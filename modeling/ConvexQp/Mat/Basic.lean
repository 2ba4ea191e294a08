import ConvexQp.Dense.Basic
import ConvexQp.Sparse.Basic
/-! Matrices of either storage. Every operation keeps the storage of the matrix it acts on and
converts a second matrix to it; to sparse drops the zeros, to dense adds each stored value into
`0.0`. -/

namespace ConvexQp

/-- How a matrix is stored. -/
inductive Storage where
  | dense
  | sparse
  deriving DecidableEq, Repr

namespace Dense

/-- The entries other than zero, column by column; a NaN is kept and both zeros are dropped. -/
def nonzeros (a : Dense) : List Triplet :=
  (List.range a.cols).flatMap fun c =>
    ((List.range a.rows).filter fun r => a.entry r c != 0.0).map fun r => ⟨r, c, a.entry r c⟩

/-- Adds each triplet's value into its cell, in order. -/
def accumulate (a : Dense) (ts : List Triplet) : Dense :=
  ts.foldl (fun m t => ⟨m.rows, m.cols, m.data.modify (t.col * m.rows + t.row) (· + t.value),
    by simp [m.size_data]⟩) a

@[simp] theorem rows_accumulate (a : Dense) (ts : List Triplet) : (a.accumulate ts).rows = a.rows := by
  induction ts generalizing a with
  | nil => rfl
  | cons t ts ih => exact ih _

@[simp] theorem cols_accumulate (a : Dense) (ts : List Triplet) : (a.accumulate ts).cols = a.cols := by
  induction ts generalizing a with
  | nil => rfl
  | cons t ts ih => exact ih _

end Dense

namespace Sparse

/-- The dense matrix with each stored value added into a zero cell, so a stored `-0.0` becomes
`0.0`. -/
def toDense (a : Sparse) : Dense :=
  (Dense.zeros a.rows a.cols).accumulate a.entries

@[simp] theorem rows_toDense (a : Sparse) : a.toDense.rows = a.rows := by simp [toDense]

@[simp] theorem cols_toDense (a : Sparse) : a.toDense.cols = a.cols := by simp [toDense]

end Sparse

/-- A matrix, dense or sparse. -/
inductive Mat where
  | dense (a : Dense)
  | sparse (a : Sparse)

namespace Mat

/-- The identity matrix of size `n` in the given storage. -/
def identity (n : Nat) : Storage → Mat
  | .dense => .dense (Dense.identity n)
  | .sparse => .sparse (Sparse.identity n)

/-- The zero matrix in the given storage. -/
def zeros (rows cols : Nat) : Storage → Mat
  | .dense => .dense (Dense.zeros rows cols)
  | .sparse => .sparse (Sparse.zeros rows cols)

/-- How the matrix is stored. -/
def storage : Mat → Storage
  | .dense _ => .dense
  | .sparse _ => .sparse

/-- The number of rows. -/
def rows : Mat → Nat
  | .dense a => a.rows
  | .sparse a => a.rows

/-- The number of columns. -/
def cols : Mat → Nat
  | .dense a => a.cols
  | .sparse a => a.cols

@[simp] theorem rows_dense (a : Dense) : (Mat.dense a).rows = a.rows := rfl

@[simp] theorem rows_sparse (a : Sparse) : (Mat.sparse a).rows = a.rows := rfl

@[simp] theorem cols_dense (a : Dense) : (Mat.dense a).cols = a.cols := rfl

@[simp] theorem cols_sparse (a : Sparse) : (Mat.sparse a).cols = a.cols := rfl

@[simp] theorem rows_identity (n : Nat) (s : Storage) : (identity n s).rows = n := by
  cases s <;> rfl

@[simp] theorem cols_identity (n : Nat) (s : Storage) : (identity n s).cols = n := by
  cases s <;> rfl

@[simp] theorem storage_identity (n : Nat) (s : Storage) : (identity n s).storage = s := by
  cases s <;> rfl

@[simp] theorem rows_zeros (rows cols : Nat) (s : Storage) : (zeros rows cols s).rows = rows := by
  cases s <;> rfl

@[simp] theorem cols_zeros (rows cols : Nat) (s : Storage) : (zeros rows cols s).cols = cols := by
  cases s <;> rfl

@[simp] theorem storage_zeros (rows cols : Nat) (s : Storage) : (zeros rows cols s).storage = s := by
  cases s <;> rfl

/-- The entries as triplets: a dense matrix's entries other than zero, column by column, or a sparse
matrix's stored entries in storage order. -/
def triplets : Mat → List Triplet
  | .dense a => a.nonzeros
  | .sparse a => a.entries

/-- The dense copy. -/
def toDense : Mat → Dense
  | .dense a => a
  | .sparse a => a.toDense

@[simp] theorem rows_toDense (m : Mat) : m.toDense.rows = m.rows := by
  cases m <;> simp [toDense, rows]

@[simp] theorem cols_toDense (m : Mat) : m.toDense.cols = m.cols := by
  cases m <;> simp [toDense, cols]

/-- The sparse copy: a dense matrix's triplets assembled. -/
def toSparse : Mat → Sparse
  | .dense a => Sparse.ofTriplets a.rows a.cols a.nonzeros
  | .sparse a => a

@[simp] theorem rows_toSparse (m : Mat) : m.toSparse.rows = m.rows := by
  cases m <;> rfl

@[simp] theorem cols_toSparse (m : Mat) : m.toSparse.cols = m.cols := by
  cases m <;> rfl

/-- The copy in the given storage. -/
def toStorage (m : Mat) : Storage → Mat
  | .dense => .dense m.toDense
  | .sparse => .sparse m.toSparse

@[simp] theorem rows_toStorage (m : Mat) (s : Storage) : (m.toStorage s).rows = m.rows := by
  cases s <;> simp [toStorage, rows]

@[simp] theorem cols_toStorage (m : Mat) (s : Storage) : (m.toStorage s).cols = m.cols := by
  cases s <;> simp [toStorage, cols]

@[simp] theorem storage_toStorage (m : Mat) (s : Storage) : (m.toStorage s).storage = s := by
  cases s <;> rfl

/-- Every entry multiplied by `alpha`. -/
def scale (m : Mat) (alpha : Float) : Mat :=
  match m with
  | .dense a => .dense (a.scale alpha)
  | .sparse a => .sparse (a.scale alpha)

@[simp] theorem rows_scale (m : Mat) (alpha : Float) : (m.scale alpha).rows = m.rows := by
  cases m <;> rfl

@[simp] theorem cols_scale (m : Mat) (alpha : Float) : (m.scale alpha).cols = m.cols := by
  cases m <;> rfl

@[simp] theorem storage_scale (m : Mat) (alpha : Float) : (m.scale alpha).storage = m.storage := by
  cases m <;> rfl

/-- The transpose. -/
def transpose : Mat → Mat
  | .dense a => .dense a.transpose
  | .sparse a => .sparse a.transpose

/-- The symmetric part `(A + Aᵀ) / 2` of a square matrix; `none` for one that is not square. -/
def symmetrize? : Mat → Option Mat
  | .dense a => a.symmetrize?.map .dense
  | .sparse a => a.symmetrize?.map .sparse

/-- The symmetric part keeps the shape and the storage. -/
theorem symmetrize?_shape {m o : Mat} (h : m.symmetrize? = some o) :
    o.rows = m.rows ∧ o.cols = m.cols ∧ o.storage = m.storage := by
  cases m with
  | dense a =>
    simp only [symmetrize?, Dense.symmetrize?, Option.map_eq_some_iff] at h
    obtain ⟨b, hb, rfl⟩ := h
    split at hb
    · cases hb
      simp_all [rows, cols, storage]
    · cases hb
  | sparse a =>
    simp only [symmetrize?, Sparse.symmetrize?, Option.map_eq_some_iff] at h
    obtain ⟨b, hb, rfl⟩ := h
    split at hb
    · cases hb
      simp_all [rows, cols, storage]
    · cases hb

/-- The sparse matrix of a shape assembled from the triplets of `a`, then those of `b` moved by
`dr` rows and `dc` columns. -/
def joinTriplets (rows cols : Nat) (a : Sparse) (b : Mat) (dr dc : Nat) : Sparse :=
  Sparse.ofTriplets rows cols (a.entries ++ b.triplets.map (Triplet.shift dr dc))

/-- `m` above `o`, in the storage of `m` and with the width of `m`. -/
def vcat (m o : Mat) : Mat :=
  match m with
  | .dense a => .dense (a.vcat o.toDense)
  | .sparse a => .sparse (joinTriplets (a.rows + o.rows) a.cols a o a.rows 0)

@[simp] theorem rows_vcat (m o : Mat) : (m.vcat o).rows = m.rows + o.rows := by
  cases m <;> simp [vcat, rows, joinTriplets]

@[simp] theorem cols_vcat (m o : Mat) : (m.vcat o).cols = m.cols := by
  cases m <;> simp [vcat, cols, joinTriplets]

@[simp] theorem storage_vcat (m o : Mat) : (m.vcat o).storage = m.storage := by
  cases m <;> rfl

/-- `m` above `o`; `none` unless they have the same width. -/
def vcat? (m o : Mat) : Option Mat :=
  if m.cols = o.cols then some (m.vcat o) else none

theorem vcat?_of_cols_eq {m o : Mat} (h : m.cols = o.cols) : m.vcat? o = some (m.vcat o) := by
  simp [vcat?, h]

/-- `m` beside `o`, in the storage of `m` and with the height of `m`. A dense `m` is followed by the
columns of `o`, and is the zero matrix of that shape where `o` is not as high (see `hcat?`). -/
def hcat (m o : Mat) : Mat :=
  match m with
  | .dense a =>
    .dense <| if h : a.rows = o.toDense.rows then a.hcat o.toDense h
      else .zeros a.rows (a.cols + o.cols)
  | .sparse a => .sparse (joinTriplets a.rows (a.cols + o.cols) a o 0 a.cols)

@[simp] theorem rows_hcat (m o : Mat) : (m.hcat o).rows = m.rows := by
  cases m with
  | dense a => simp only [hcat, rows]; split <;> rfl
  | sparse a => simp [hcat, rows, joinTriplets]

@[simp] theorem cols_hcat (m o : Mat) : (m.hcat o).cols = m.cols + o.cols := by
  cases m with
  | dense a =>
    show (dite _ _ _ : Dense).cols = a.cols + o.cols
    split
    · simp
    · rfl
  | sparse a => simp [hcat, cols, joinTriplets]

@[simp] theorem storage_hcat (m o : Mat) : (m.hcat o).storage = m.storage := by
  cases m <;> rfl

/-- A dense matrix beside a matrix as high is the concatenation of their arrays. -/
theorem dense_hcat {a : Dense} {o : Mat} (h : a.rows = o.rows) :
    (Mat.dense a).hcat o = .dense (a.hcat o.toDense (h.trans o.rows_toDense.symm)) := by
  simp [hcat, h]

/-- `m` beside `o`; `none` unless they have the same height. -/
def hcat? (m o : Mat) : Option Mat :=
  if m.rows = o.rows then some (m.hcat o) else none

theorem hcat?_of_rows_eq {m o : Mat} (h : m.rows = o.rows) : m.hcat? o = some (m.hcat o) := by
  simp [hcat?, h]

/-- The block-diagonal matrix with `m` above left and `o` below right, in the storage of `m`. -/
def blockDiag (m o : Mat) : Mat :=
  match m with
  | .dense a => .dense (a.blockDiag o.toDense)
  | .sparse a => .sparse (joinTriplets (a.rows + o.rows) (a.cols + o.cols) a o a.rows a.cols)

@[simp] theorem rows_blockDiag (m o : Mat) : (m.blockDiag o).rows = m.rows + o.rows := by
  cases m <;> simp [blockDiag, rows, joinTriplets]

@[simp] theorem cols_blockDiag (m o : Mat) : (m.blockDiag o).cols = m.cols + o.cols := by
  cases m <;> simp [blockDiag, cols, joinTriplets]

@[simp] theorem storage_blockDiag (m o : Mat) : (m.blockDiag o).storage = m.storage := by
  cases m <;> rfl

/-- The product `A x`, for `x` with one value per column. -/
def mulVec (m : Mat) (x : Array Float) : Array Float :=
  match m with
  | .dense a => a.mulVec x
  | .sparse a => a.mulVec x

@[simp] theorem size_mulVec (m : Mat) (x : Array Float) : (m.mulVec x).size = m.rows := by
  cases m <;> simp [mulVec, rows]

/-- The product `A x`; `none` unless `x` has one value per column. -/
def mulVec? (m : Mat) (x : Array Float) : Option (Array Float) :=
  if m.cols = x.size then some (m.mulVec x) else none

/-- The compressed columns of a matrix: its triplets assembled, only those on or above the diagonal
when `upper` is set. -/
def cscParts (m : Mat) (upper : Bool) : Sparse :=
  Sparse.ofTriplets m.rows m.cols (m.triplets.filter fun t => !upper || decide (t.row ≤ t.col))

end Mat

end ConvexQp
