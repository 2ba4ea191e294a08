import ConvexQp.Linear.Vector
/-! Work matrices of the numerical methods, kept as arrays of rows. Reading outside the grid gives
`0.0` and writing outside it changes nothing, so each method states its loops over the indices it
means and nothing else guards them. -/

namespace ConvexQp

/-- A matrix of floats as an array of rows. -/
structure Grid where
  rowsOf : Array (Array Float)

namespace Grid

/-- The `rows × cols` grid with entry `f i j` at row `i` and column `j`. -/
def ofFn (rows cols : Nat) (f : Nat → Nat → Float) : Grid :=
  ⟨(Array.range rows).map fun i => (Array.range cols).map fun j => f i j⟩

/-- The `rows × cols` grid of zeros. -/
def zeros (rows cols : Nat) : Grid := ofFn rows cols fun _ _ => 0.0

/-- The number of rows. -/
def rows (a : Grid) : Nat := a.rowsOf.size

/-- The entry at row `i` and column `j`; `0.0` outside the grid. -/
def get (a : Grid) (i j : Nat) : Float := ((a.rowsOf[i]?).bind (·[j]?)).getD 0.0

/-- The grid with the entry at row `i` and column `j` replaced by `v`. -/
def set (a : Grid) (i j : Nat) (v : Float) : Grid :=
  ⟨a.rowsOf.modify i (·.setIfInBounds j v)⟩

/-- Row `i`; empty outside the grid. -/
def row (a : Grid) (i : Nat) : Array Float := a.rowsOf.getD i #[]

/-- Column `j` of the first `n` rows. -/
def column (a : Grid) (n j : Nat) : Array Float := (Array.range n).map fun i => a.get i j

/-- The grid with columns `j` and `k` of the first `n` rows exchanged. -/
def swapColumns (a : Grid) (n j k : Nat) : Grid :=
  (List.range n).foldl (fun a i => (a.set i j (a.get i k)).set i k (a.get i j)) a

@[simp] theorem rows_set (a : Grid) (i j : Nat) (v : Float) : (a.set i j v).rows = a.rows := by
  simp [set, rows]

end Grid

end ConvexQp
