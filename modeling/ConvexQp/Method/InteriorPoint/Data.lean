import ConvexQp.Linear.Vector
/-! The data of the interior-point method, `minimize ½ xᵀ P x + qᵀ x` under `A x + s = b` with `s`
zero on the first `p` rows and nonnegative after, presolved and equilibrated by Ruiz scaling. -/

namespace ConvexQp

namespace InteriorPoint

/-- A matrix by its stored entries, column by column, rows increasing within a column. -/
structure Columns where
  /-- The number of rows. -/
  rows : Nat
  /-- The stored entries of each column, as rows with values. -/
  cols : Array (Array (Nat × Float))

namespace Columns

/-- The matrix of a shape from entries sorted by column and then by row. -/
def ofEntries (rows cols : Nat) (entries : List (Nat × Nat × Float)) : Columns :=
  ⟨rows, entries.foldl (fun cs (r, c, v) => cs.modify c (·.push (r, v))) (Array.replicate cols #[])⟩

/-- The number of stored entries. -/
def nnz (a : Columns) : Nat := a.cols.foldl (fun n c => n + c.size) 0

/-- Every stored entry `a_rc` replaced by `f r c a_rc`. -/
def mapEntries (a : Columns) (f : Nat → Nat → Float → Float) : Columns :=
  { a with cols := (Array.range a.cols.size).map fun c =>
      (a.cols.getD c #[]).map fun (r, v) => (r, f r c v) }

/-- `y + A x`, column by column. -/
def mulAdd (a : Columns) (x y : Array Float) : Array Float :=
  (Array.range a.cols.size).foldl (fun y j =>
    (a.cols.getD j #[]).foldl (fun y (r, v) => y.set! r (y.getD r 0.0 + v * x.getD j 0.0)) y) y

/-- `-Aᵀ x`, each entry summed from zero. -/
def mulTransposeNeg (a : Columns) (x : Array Float) : Array Float :=
  (Array.range a.cols.size).map fun j =>
    (a.cols.getD j #[]).foldl (fun t (r, v) => t - v * x.getD r 0.0) 0.0

/-- `P x` for the symmetric `P` stored by its upper triangle: each stored `p_rc` adds to row `r`,
and off the diagonal also to row `c`. -/
def symMul (a : Columns) (x : Array Float) : Array Float :=
  (Array.range a.cols.size).foldl (fun y c =>
    (a.cols.getD c #[]).foldl (fun y (r, v) =>
      let y := y.set! r (y.getD r 0.0 + v * x.getD c 0.0)
      if r != c then y.set! c (y.getD c 0.0 + v * x.getD r 0.0) else y) y) (Vector.zeros a.cols.size)

/-- `yᵀ P x` for the symmetric `P` stored by its upper triangle, column by column. -/
def quadForm (a : Columns) (y x : Array Float) : Float :=
  (Array.range a.cols.size).foldl (fun out c =>
    let (out, t1, t2) := (a.cols.getD c #[]).foldl (fun (out, t1, t2) (r, v) =>
      if r < c then (out, t1 + v * x.getD r 0.0, t2 + v * y.getD r 0.0)
      else if r = c then (out + v * x.getD c 0.0 * y.getD c 0.0, t1, t2)
      else (out, t1, t2)) (out, 0.0, 0.0)
    out + (t1 * y.getD c 0.0 + t2 * x.getD c 0.0)) 0.0

end Columns

/-- The largest finite right-hand side kept; larger ones are capped to it. -/
def infBound : Float := 1e20

/-- A program for the interior-point method. -/
structure Data where
  /-- The number of variables. -/
  n : Nat
  /-- `P`, by its entries on and above the diagonal. -/
  quad : Columns
  /-- `q`. -/
  lin : Array Float
  /-- `A`. -/
  mat : Columns
  /-- `b`. -/
  rhs : Array Float
  /-- The number of leading equality rows. -/
  eqCount : Nat

namespace Data

/-- The number of rows. -/
def m (d : Data) : Nat := d.rhs.size

/-- The inequality rows with a right-hand side above `(1 - 10 ε) 10²⁰` dropped, and every
right-hand side capped at `10²⁰`. -/
def presolve (d : Data) : Data :=
  let bound := (1.0 - Float.epsilon * 10.0) * infBound
  let keep := (List.range d.m).filter fun i => i < d.eqCount || !(d.rhs.getD i 0.0 > bound)
  let index := keep.zipIdx.foldl (fun ix (i, k) => ix.set! i k) (Array.replicate d.m d.m)
  let cols := d.mat.cols.map fun col =>
    (col.filter fun (r, _) => index.getD r d.m < d.m).map fun (r, v) => (index.getD r 0, v)
  { d with mat := ⟨keep.length, cols⟩,
           rhs := (keep.map fun i => Float.minNum (d.rhs.getD i 0.0) infBound).toArray }

end Data

/-- Data after equilibration, with the scalings that map back. -/
structure Scaled where
  /-- The scaled program. -/
  data : Data
  /-- The column scaling `d`. -/
  colScale : Array Float
  /-- The row scaling `e`. -/
  rowScale : Array Float
  /-- The cost scaling `c`. -/
  cost : Float

/-- `s` clamped to `[lo, hi]`. -/
def clampTo (lo hi s : Float) : Float :=
  if s < lo then lo else if s > hi then hi else s

/-- The least accumulated scaling. -/
def minScaling : Float := 1e-4

/-- The greatest accumulated scaling. -/
def maxScaling : Float := 1e4

/-- The factor of a round for a line of greatest magnitude `norm` already scaled by `acc`: one over
the root of the norm (a zero norm counting as one), kept so that the accumulated scaling stays
within `[10⁻⁴, 10⁴]`. -/
def roundFactor (acc norm : Float) : Float :=
  let f := 1.0 / (if norm == 0.0 then 1.0 else norm).sqrt
  clampTo (minScaling / acc) (maxScaling / acc) f

/-- One round of Ruiz scaling, then the cost scaling. -/
def ruizRound (s : Scaled) : Scaled :=
  let d := s.data
  let n := d.n
  let m := d.m
  -- greatest magnitudes of the columns of the symmetric `P` and of `A`, and of the rows of `A`
  let dwork := (Array.range n).foldl (fun w c =>
    (d.quad.cols.getD c #[]).foldl (fun w (r, v) =>
      let w := w.set! c (Float.maxNum (w.getD c 0.0) v.abs)
      if r != c then w.set! r (Float.maxNum (w.getD r 0.0) v.abs) else w) w) (Vector.zeros n)
  let dwork := (Array.range n).foldl (fun w c =>
    (d.mat.cols.getD c #[]).foldl (fun w (_, v) => w.set! c (Float.maxNum (w.getD c 0.0) v.abs)) w) dwork
  let ework := (Array.range n).foldl (fun w c =>
    (d.mat.cols.getD c #[]).foldl (fun w (r, v) => w.set! r (Float.maxNum (w.getD r 0.0) v.abs)) w)
    (Vector.zeros m)
  let dwork := Array.zipWith roundFactor s.colScale dwork
  let ework := Array.zipWith roundFactor s.rowScale ework
  let quad := d.quad.mapEntries fun r c v => v * (dwork.getD r 0.0 * dwork.getD c 0.0)
  let mat := d.mat.mapEntries fun r c v => v * (ework.getD r 0.0 * dwork.getD c 0.0)
  let lin := Vector.hadamard d.lin dwork
  let rhs := Vector.hadamard d.rhs ework
  let colScale := Vector.hadamard s.colScale dwork
  let rowScale := Vector.hadamard s.rowScale ework
  -- cost scaling
  let colMax := (Array.range n).map fun c =>
    (quad.cols.getD c #[]).foldl (fun w (_, v) => Float.maxNum w v.abs) 0.0
  let mean := if n > 0 then Vector.sum colMax / n.toFloat else 0.0
  let normQ := Vector.normInf lin
  let (quad, lin, cost) :=
    if mean != 0.0 && normQ != 0.0 then
      let ct := clampTo (minScaling / s.cost) (maxScaling / s.cost) (1.0 / Float.maxNum normQ mean)
      (quad.mapEntries fun _ _ v => v * ct, Vector.scale ct lin, s.cost * ct)
    else (quad, lin, s.cost)
  { data := { d with quad, lin, mat, rhs }, colScale, rowScale, cost }

/-- Ten rounds of equilibration from the identity scaling. -/
def equilibrate (d : Data) : Scaled :=
  (List.range 10).foldl (fun s _ => ruizRound s)
    { data := d, colScale := Array.replicate d.n 1.0, rowScale := Array.replicate d.m 1.0, cost := 1.0 }

end InteriorPoint

end ConvexQp
