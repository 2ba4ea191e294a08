import ConvexQp.Method.InteriorPoint.Data
import ConvexQp.Linear.Ldl
import ConvexQp.Linear.Ordering
/-! The linear systems `K = [P  Aᵀ; A  -H]` of the interior-point method, factored with static and
dynamic regularization in minimum-degree order and solved with iterative refinement. -/

namespace ConvexQp

namespace InteriorPoint

/-- The fixed part of `K` and its elimination order. -/
structure Kkt where
  /-- The number of variables. -/
  n : Nat
  /-- The number of rows of `A`. -/
  m : Nat
  /-- `P`, by its upper triangle. -/
  quad : Columns
  /-- `A`. -/
  mat : Columns
  /-- The elimination order. -/
  perm : Array Nat

/-- The factors of `K` for one `H`, with the matrix itself for refinement. -/
structure Factored where
  /-- The upper triangle of `K`, unregularized. -/
  upper : Grid
  /-- The factors of the regularized `K`. -/
  factors : Ldl.Factor

namespace Kkt

/-- The size of `K`. -/
def size (k : Kkt) : Nat := k.n + k.m

/-- The fixed part of `K` for a program, with its minimum-degree order. -/
def ofData (d : Data) : Kkt :=
  let n := d.n
  let edgesP := (List.range n).flatMap fun c => (d.quad.cols.getD c #[]).toList.map fun (r, _) => (r, c)
  let edgesA := (List.range n).flatMap fun c => (d.mat.cols.getD c #[]).toList.map fun (r, _) => (c, n + r)
  ⟨n, d.m, d.quad, d.mat, Ordering.minimumDegree (n + d.m) (edgesP ++ edgesA)⟩

/-- The upper triangle of `K` for the diagonal `h` of `H`. -/
def upper (k : Kkt) (h : Array Float) : Grid :=
  let g := (List.range k.n).foldl (fun g c =>
    (k.quad.cols.getD c #[]).foldl (fun g (r, v) => g.set r c v) g) (Grid.zeros k.size k.size)
  let g := (List.range k.n).foldl (fun g c =>
    (k.mat.cols.getD c #[]).foldl (fun g (r, v) => g.set c (k.n + r) v) g) g
  (List.range k.m).foldl (fun g i => g.set (k.n + i) (k.n + i) (-h.getD i 0.0)) g

/-- The expected signs of the pivots: `+1` on the variables, `-1` on the constraints. -/
def signs (k : Kkt) : Array Float :=
  Array.replicate k.n 1.0 ++ Array.replicate k.m (-1.0)

/-- `K` factored for the diagonal `h` of `H`. -/
def factor (k : Kkt) (h : Array Float) : Factored :=
  let u := k.upper h
  let sz := k.size
  let maxDiag := Vector.normInf ((Array.range sz).map fun i => u.get i i)
  let reg := 1e-8 + Float.epsilon * Float.epsilon * maxDiag
  let sg := k.signs
  let full := Grid.ofFn sz sz fun i j =>
    if i = j then u.get i i + sg.getD i 1.0 * reg
    else if i < j then u.get i j else u.get j i
  ⟨u, Ldl.factor full sz k.perm sg 1e-13 2e-7⟩

end Kkt

namespace Factored

/-- `y - K x` from the upper triangle, column by column, each entry's product subtracted from
`y` where it falls, passing over zero entries off the diagonal. -/
def subMul (f : Factored) (sz : Nat) (x y : Array Float) : Array Float :=
  (List.range sz).foldl (fun y c =>
    (List.range (c + 1)).foldl (fun y r =>
      let v := f.upper.get r c
      if v == 0.0 && r != c then y
      else
        let y := y.set! r (y.getD r 0.0 + -v * x.getD c 0.0)
        if r != c then y.set! c (y.getD c 0.0 + -v * x.getD r 0.0) else y) y) y

/-- The residual `b - K x` and its greatest magnitude. -/
def residual (f : Factored) (sz : Nat) (b x : Array Float) : Array Float × Float :=
  let e := f.subMul sz x b
  (e, Vector.normInf e)

/-- Refinement rounds from `x` with residual `e` of size `ne`, at most `rounds` of them; `none` when
a residual is not finite. -/
def refine (f : Factored) (sz : Nat) (b : Array Float) (tolerance : Float) :
    (rounds : Nat) → Array Float → Array Float → Float → Option (Array Float)
  | 0, x, _, _ => some x
  | rounds + 1, x, e, ne =>
    if ne ≤ tolerance then some x
    else
      let dx := Array.zipWith (· + ·) (f.factors.solve sz e) x
      let (e2, ne2) := f.residual sz b dx
      if !(ne2.isFinite) then none
      else
        let ratio := ne / ne2
        if ratio < 5.0 then some (if ratio > 1.0 then dx else x)
        else refine f sz b tolerance rounds dx e2 ne2

/-- The solution of `K x = b`, refined; `none` when the solve fails. -/
def solve (f : Factored) (sz : Nat) (b : Array Float) : Option (Array Float) :=
  let x := f.factors.solve sz b
  let (e, ne) := f.residual sz b x
  if !(ne.isFinite) then none
  else refine f sz b (1e-12 + 1e-13 * Vector.normInf b) 10 x e ne

end Factored

end InteriorPoint

end ConvexQp
