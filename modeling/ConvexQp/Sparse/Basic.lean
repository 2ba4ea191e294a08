import ConvexQp.Sort.Quicksort
/-! Sparse matrices in compressed column order, assembled from triplets sorted by column then row
with `Quicksort.sort`, those at one position summed from the left, zeros stored. -/

namespace ConvexQp

/-- One entry of a matrix: a position and a value. -/
structure Triplet where
  row : Nat
  col : Nat
  value : Float
deriving Inhabited

namespace Triplet

/-- The storage order of positions, strict: by column, then by row. -/
def before (a b : Triplet) : Bool :=
  a.col < b.col || (a.col == b.col && a.row < b.row)

/-- Whether two triplets stand at one position. -/
def samePosition (a b : Triplet) : Bool :=
  a.row == b.row && a.col == b.col

/-- The triplet with its row and column exchanged. -/
def swap (t : Triplet) : Triplet := ⟨t.col, t.row, t.value⟩

/-- The triplet moved down by `dr` rows and right by `dc` columns. -/
def shift (dr dc : Nat) (t : Triplet) : Triplet := ⟨t.row + dr, t.col + dc, t.value⟩

end Triplet

/-- Pushes a triplet onto the summed triplets, latest first: it is added into the latest one when
they stand at one position. -/
def pushSummed (acc : List Triplet) (t : Triplet) : List Triplet :=
  match acc with
  | last :: rest =>
    if last.samePosition t then { last with value := last.value + t.value } :: rest else t :: acc
  | [] => [t]

/-- Sums each run of consecutive triplets at one position into its first triplet, adding the values
from the left. -/
def sumRuns (ts : List Triplet) : List Triplet :=
  (ts.foldl pushSummed []).reverse

/-- A sparse `rows × cols` matrix: its stored entries in storage order, at most one per position. -/
structure Sparse where
  rows : Nat
  cols : Nat
  entries : List Triplet

namespace Sparse

/-- The matrix assembled from triplets, all inside the shape: sorted into storage order by
`Quicksort.sort`, with the triplets at each position summed in the order that sort leaves them. -/
def ofTriplets (rows cols : Nat) (ts : List Triplet) : Sparse :=
  ⟨rows, cols, sumRuns (Quicksort.sort Triplet.before ts.toArray).toList⟩

@[simp] theorem rows_ofTriplets (rows cols : Nat) (ts : List Triplet) :
    (ofTriplets rows cols ts).rows = rows := rfl

@[simp] theorem cols_ofTriplets (rows cols : Nat) (ts : List Triplet) :
    (ofTriplets rows cols ts).cols = cols := rfl

/-- The matrix with no stored entries. -/
def zeros (rows cols : Nat) : Sparse := ⟨rows, cols, []⟩

@[simp] theorem rows_zeros (rows cols : Nat) : (zeros rows cols).rows = rows := rfl

@[simp] theorem cols_zeros (rows cols : Nat) : (zeros rows cols).cols = cols := rfl

/-- The identity matrix of size `n`, storing its diagonal. -/
def identity (n : Nat) : Sparse :=
  ofTriplets n n ((List.range n).map fun i => ⟨i, i, 1.0⟩)

@[simp] theorem rows_identity (n : Nat) : (identity n).rows = n := rfl

@[simp] theorem cols_identity (n : Nat) : (identity n).cols = n := rfl

/-- Every stored value multiplied by `alpha`, with the same entries stored. -/
def scale (a : Sparse) (alpha : Float) : Sparse :=
  ofTriplets a.rows a.cols (a.entries.map fun t => { t with value := alpha * t.value })

@[simp] theorem rows_scale (a : Sparse) (alpha : Float) : (a.scale alpha).rows = a.rows := rfl

@[simp] theorem cols_scale (a : Sparse) (alpha : Float) : (a.scale alpha).cols = a.cols := rfl

/-- The transpose. -/
def transpose (a : Sparse) : Sparse :=
  ofTriplets a.cols a.rows (a.entries.map Triplet.swap)

/-- The symmetric part `(A + Aᵀ) / 2`: each stored value `v` at `(r, c)` gives `v / 2` at `(r, c)`
and at `(c, r)`, and the halves meeting at one position are summed. -/
def symmetrize (a : Sparse) : Sparse :=
  ofTriplets a.rows a.cols (a.entries.flatMap fun t =>
    let h := 0.5 * t.value
    [⟨t.row, t.col, h⟩, ⟨t.col, t.row, h⟩])

@[simp] theorem rows_symmetrize (a : Sparse) : a.symmetrize.rows = a.rows := rfl

@[simp] theorem cols_symmetrize (a : Sparse) : a.symmetrize.cols = a.cols := rfl

/-- The symmetric part of a square matrix; `none` for a matrix that is not square. -/
def symmetrize? (a : Sparse) : Option Sparse :=
  if a.rows = a.cols then some a.symmetrize else none

/-- The compressed column pointers: entry `c` counts the stored entries in the columns before `c`,
so column `c` is stored from `colPointers[c]` to `colPointers[c + 1]`. -/
def colPointers (a : Sparse) : Array Nat :=
  Array.ofFn (n := a.cols + 1) fun c => (a.entries.filter (·.col < c.val)).length

/-- The row of each stored entry, in storage order. -/
def rowIndices (a : Sparse) : Array Nat := (a.entries.map (·.row)).toArray

/-- The value of each stored entry, in storage order. -/
def values (a : Sparse) : Array Float := (a.entries.map (·.value)).toArray

/-- The product `A x`: each stored value `v` at `(r, c)` adds `v * x c` to entry `r`, in storage
order, from `0.0`. Positions not stored contribute nothing, not even a NaN. -/
def mulVec (a : Sparse) (x : Array Float) : Array Float :=
  a.entries.foldl (fun y t => y.modify t.row (· + t.value * x.getD t.col 0.0))
    (Array.replicate a.rows 0.0)

@[simp] theorem size_mulVec (a : Sparse) (x : Array Float) : (a.mulVec x).size = a.rows := by
  -- each stored entry modifies one value in place
  have hfold : ∀ (ts : List Triplet) (y : Array Float),
      (ts.foldl (fun y t => y.modify t.row (· + t.value * x.getD t.col 0.0)) y).size = y.size := by
    intro ts
    induction ts with
    | nil => intro y; rfl
    | cons t ts ih => intro y; rw [List.foldl_cons, ih, Array.size_modify]
  rw [mulVec, hfold, Array.size_replicate]

/-- The product `A x`; `none` unless `x` has one value per column. -/
def mulVec? (a : Sparse) (x : Array Float) : Option (Array Float) :=
  if a.cols = x.size then some (a.mulVec x) else none

end Sparse

end ConvexQp
