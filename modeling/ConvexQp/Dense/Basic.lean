/-! Dense matrices of floats, stored column by column and read through `entry`. An operation that
needs a shape has a `?` form that is `none` outside it; side by side appends the two arrays, and so
asks for the proof that the heights agree. -/

namespace ConvexQp

/-- A dense `rows × cols` matrix of floats; the entry in row `r` and column `c` is stored at
`c * rows + r`. -/
structure Dense where
  rows : Nat
  cols : Nat
  data : Array Float
  size_data : data.size = rows * cols

namespace Dense

/-- The entry in row `r` and column `c`; `0.0` outside the matrix. -/
def entry (a : Dense) (r c : Nat) : Float :=
  a.data.getD (c * a.rows + r) 0.0

/-- The matrix whose entries are `f r c`, computed in storage order. -/
def ofFn (rows cols : Nat) (f : Nat → Nat → Float) : Dense :=
  ⟨rows, cols, Array.ofFn (n := rows * cols) fun i => f (i.val % rows) (i.val / rows), by simp⟩

@[simp] theorem rows_ofFn (rows cols : Nat) (f : Nat → Nat → Float) : (ofFn rows cols f).rows = rows :=
  rfl

@[simp] theorem cols_ofFn (rows cols : Nat) (f : Nat → Nat → Float) : (ofFn rows cols f).cols = cols :=
  rfl

/-- Inside the shape, an entry of `ofFn` is the value of the function there. -/
theorem entry_ofFn {rows cols r c : Nat} (f : Nat → Nat → Float) (hr : r < rows) (hc : c < cols) :
    (ofFn rows cols f).entry r c = f r c := by
  have hi : c * rows + r < rows * cols := by
    have : (c + 1) * rows ≤ cols * rows := Nat.mul_le_mul_right rows hc
    rw [Nat.mul_comm rows cols]
    rw [Nat.succ_mul] at this
    omega
  have hpos : 0 < rows := by omega
  have hmod : (c * rows + r) % rows = r := by
    rw [Nat.add_comm, Nat.add_mul_mod_self_right, Nat.mod_eq_of_lt hr]
  have hdiv : (c * rows + r) / rows = c := by
    rw [Nat.add_comm, Nat.add_mul_div_right _ _ hpos, Nat.div_eq_of_lt hr, Nat.zero_add]
  simp only [entry, ofFn, Array.getD_eq_getD_getElem?, Array.getElem?_ofFn, hi]
  simp [hmod, hdiv]

/-- The zero matrix. -/
def zeros (rows cols : Nat) : Dense :=
  ofFn rows cols fun _ _ => 0.0

@[simp] theorem rows_zeros (rows cols : Nat) : (zeros rows cols).rows = rows := rfl

@[simp] theorem cols_zeros (rows cols : Nat) : (zeros rows cols).cols = cols := rfl

/-- The identity matrix of size `n`. -/
def identity (n : Nat) : Dense :=
  ofFn n n fun r c => if r = c then 1.0 else 0.0

@[simp] theorem rows_identity (n : Nat) : (identity n).rows = n := rfl

@[simp] theorem cols_identity (n : Nat) : (identity n).cols = n := rfl

/-- Overwrites the first cells in row-major order with `xs`; cells past the end of `xs` keep their
value, and values past the last cell are ignored. -/
def fillRowMajor (a : Dense) (xs : Array Float) : Dense :=
  ofFn a.rows a.cols fun r c => xs.getD (r * a.cols + c) (a.entry r c)

@[simp] theorem rows_fillRowMajor (a : Dense) (xs : Array Float) : (a.fillRowMajor xs).rows = a.rows :=
  rfl

@[simp] theorem cols_fillRowMajor (a : Dense) (xs : Array Float) : (a.fillRowMajor xs).cols = a.cols :=
  rfl

/-- Overwrites the first cells in column-major order with `xs`, as `fillRowMajor` does by rows. -/
def fillColMajor (a : Dense) (xs : Array Float) : Dense :=
  ofFn a.rows a.cols fun r c => xs.getD (c * a.rows + r) (a.entry r c)

/-- The one-row matrix holding `xs`. -/
def ofRow (xs : Array Float) : Dense :=
  (zeros 1 xs.size).fillRowMajor xs

@[simp] theorem rows_ofRow (xs : Array Float) : (ofRow xs).rows = 1 := rfl

@[simp] theorem cols_ofRow (xs : Array Float) : (ofRow xs).cols = xs.size := rfl

/-- The cells of a `rows × cols` matrix in storage order: column by column, rows inner. -/
def storageOrder (rows cols : Nat) : List (Nat × Nat) :=
  (List.range cols).flatMap fun c => (List.range rows).map fun r => (r, c)

/-- The matrix with the cell in row `r` and column `c` overwritten by `v` in place; nothing changes
for a cell outside the matrix. -/
def write (a : Dense) (r c : Nat) (v : Float) : Dense :=
  ⟨a.rows, a.cols, a.data.setIfInBounds (c * a.rows + r) v, by simp [a.size_data]⟩

/-- One call of a stateful fill: `f` gives, from the state, a value for the cell, which is written
there, and the state it gives is passed on. -/
def fillStep {σ : Type} (f : σ → Nat → Nat → Float × σ) (acc : Dense × σ) (cell : Nat × Nat) :
    Dense × σ :=
  let out := f acc.2 cell.1 cell.2
  (acc.1.write cell.1 cell.2 out.1, out.2)

/-- Overwrites the cells in storage order with the values of `f`, which carries a state from one
call to the next: each call is given the row, the column and the state the call before it left.
The last state comes back with the matrix. -/
def fillByState {σ : Type} (a : Dense) (f : σ → Nat → Nat → Float × σ) (s : σ) : Dense × σ :=
  (storageOrder a.rows a.cols).foldl (fillStep f) (a, s)

/-- Overwrites every cell with `f r c`. -/
def fillBy (a : Dense) (f : Nat → Nat → Float) : Dense :=
  (a.fillByState (fun u r c => (f r c, u)) ()).1

/-- Overwrites every cell, in storage order (column by column, rows inner), with `start`,
`start + 1`, …, each one more than the last by a float addition. -/
def fillCounting (a : Dense) (start : Float) : Dense :=
  (a.fillByState (fun x _ _ => (x, x + 1.0)) start).1

/-- Every entry multiplied by `alpha`. -/
def scale (a : Dense) (alpha : Float) : Dense :=
  ⟨a.rows, a.cols, a.data.map (· * alpha), by simp [a.size_data]⟩

@[simp] theorem rows_scale (a : Dense) (alpha : Float) : (a.scale alpha).rows = a.rows := rfl

@[simp] theorem cols_scale (a : Dense) (alpha : Float) : (a.scale alpha).cols = a.cols := rfl

/-- The symmetric part `(A + Aᵀ) / 2` of a square matrix: each pair off the diagonal is replaced by
half the sum of the entry above the diagonal and the one below; the diagonal stays. -/
def symmetrize (a : Dense) : Dense :=
  ofFn a.rows a.cols fun r c =>
    if r = c then a.entry r c
    else 0.5 * (a.entry (min r c) (max r c) + a.entry (max r c) (min r c))

@[simp] theorem rows_symmetrize (a : Dense) : a.symmetrize.rows = a.rows := rfl

@[simp] theorem cols_symmetrize (a : Dense) : a.symmetrize.cols = a.cols := rfl

/-- The symmetric part of a square matrix; `none` for a matrix that is not square. -/
def symmetrize? (a : Dense) : Option Dense :=
  if a.rows = a.cols then some a.symmetrize else none

/-- The transpose. -/
def transpose (a : Dense) : Dense :=
  ofFn a.cols a.rows fun r c => a.entry c r

/-- `a` above `b`, with the width of `a`. -/
def vcat (a b : Dense) : Dense :=
  ofFn (a.rows + b.rows) a.cols fun r c => if r < a.rows then a.entry r c else b.entry (r - a.rows) c

@[simp] theorem rows_vcat (a b : Dense) : (a.vcat b).rows = a.rows + b.rows := rfl

@[simp] theorem cols_vcat (a b : Dense) : (a.vcat b).cols = a.cols := rfl

/-- `a` above `b`; `none` unless they have the same width. -/
def vcat? (a b : Dense) : Option Dense :=
  if a.cols = b.cols then some (a.vcat b) else none

/-- `a` beside `b`, as high as `a`: the columns of `b` are stored after those of `a`. -/
def hcat (a b : Dense) (h : a.rows = b.rows) : Dense :=
  ⟨a.rows, a.cols + b.cols, a.data ++ b.data, by
    rw [Array.size_append, a.size_data, b.size_data, h, Nat.mul_add]⟩

@[simp] theorem rows_hcat (a b : Dense) (h : a.rows = b.rows) : (a.hcat b h).rows = a.rows := rfl

@[simp] theorem cols_hcat (a b : Dense) (h : a.rows = b.rows) :
    (a.hcat b h).cols = a.cols + b.cols := rfl

@[simp] theorem data_hcat (a b : Dense) (h : a.rows = b.rows) : (a.hcat b h).data = a.data ++ b.data :=
  rfl

/-- `a` beside `b`; `none` unless they have the same height. -/
def hcat? (a b : Dense) : Option Dense :=
  if h : a.rows = b.rows then some (a.hcat b h) else none

/-- The block-diagonal matrix with `a` above left and `b` below right, zeros elsewhere. -/
def blockDiag (a b : Dense) : Dense :=
  ofFn (a.rows + b.rows) (a.cols + b.cols) fun r c =>
    if r < a.rows ∧ c < a.cols then a.entry r c
    else if a.rows ≤ r ∧ a.cols ≤ c then b.entry (r - a.rows) (c - a.cols)
    else 0.0

@[simp] theorem rows_blockDiag (a b : Dense) : (a.blockDiag b).rows = a.rows + b.rows := rfl

@[simp] theorem cols_blockDiag (a b : Dense) : (a.blockDiag b).cols = a.cols + b.cols := rfl

/-- Whether the matrix is square and each entry above the diagonal is within `eps` of the entry
across the diagonal from it; a NaN difference fails. -/
def isSymmetricWithin (a : Dense) (eps : Float) : Bool :=
  a.rows == a.cols &&
    (List.range a.cols).all fun c => (List.range c).all fun r =>
      (a.entry r c - a.entry c r).abs ≤ eps

/-- The product `A x`: entry `r` is `0.0 + a r 0 * x 0 + a r 1 * x 1 + …`, summed from the left. -/
def mulVec (a : Dense) (x : Array Float) : Array Float :=
  Array.ofFn (n := a.rows) fun r =>
    (List.range a.cols).foldl (fun acc c => acc + a.entry r c * x.getD c 0.0) 0.0

@[simp] theorem size_mulVec (a : Dense) (x : Array Float) : (a.mulVec x).size = a.rows := by
  simp [mulVec]

/-- The product `A x`; `none` unless `x` has one value per column. -/
def mulVec? (a : Dense) (x : Array Float) : Option (Array Float) :=
  if a.cols = x.size then some (a.mulVec x) else none

/-- Row `r`. -/
def row (a : Dense) (r : Nat) : Array Float :=
  Array.ofFn (n := a.cols) fun c => a.entry r c.val

/-- Row `r`; `none` for a row past the last, unless the matrix has no columns, whose rows are all
empty. -/
def row? (a : Dense) (r : Nat) : Option (Array Float) :=
  if a.cols = 0 ∨ r < a.rows then some (a.row r) else none

/-- The entry in row `r` and column `c`; `none` outside the matrix. -/
def get? (a : Dense) (r c : Nat) : Option Float :=
  if r < a.rows ∧ c < a.cols then some (a.entry r c) else none

/-- The matrix with the entry in row `r` and column `c` replaced by `v`. -/
def set (a : Dense) (r c : Nat) (v : Float) : Dense :=
  ofFn a.rows a.cols fun i j => if i = r ∧ j = c then v else a.entry i j

/-- The matrix with one entry replaced; `none` outside the matrix. -/
def set? (a : Dense) (r c : Nat) (v : Float) : Option Dense :=
  if r < a.rows ∧ c < a.cols then some (a.set r c v) else none

/-- The entries row by row. -/
def toRowMajor (a : Dense) : Array Float :=
  Array.ofFn (n := a.rows * a.cols) fun i => a.entry (i.val / a.cols) (i.val % a.cols)

end Dense

end ConvexQp
