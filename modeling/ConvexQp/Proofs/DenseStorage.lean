import Mathlib
import ConvexQp.Proofs.BlockLayout
import ConvexQp.Proofs.Filling
import ConvexQp.Proofs.SymmetricProjection
/-! Where a dense matrix keeps its entries: cell `(r, c)` at place `c * rows + r`, two matrices side
by side as their arrays appended, and each checked operation stopping on its shape check alone. -/

namespace ConvexQp

namespace Dense

variable {a b : Dense} {r c : Nat}

/-! ### Places in the array -/

theorem index_lt_size (hr : r < a.rows) (hc : c < a.cols) : c * a.rows + r < a.data.size := by
  rw [a.size_data]
  exact index_lt hr hc

/-- The place of a cell inside the matrix holds its entry. -/
theorem getElem?_data_index (hr : r < a.rows) (hc : c < a.cols) :
    a.data[c * a.rows + r]? = some (a.entry r c) := by
  simp [entry, Array.getD_eq_getD_getElem?, Array.getElem?_eq_getElem (index_lt_size hr hc)]

theorem column_end_le (hc : c < a.cols) : (c + 1) * a.rows ≤ a.data.size := by
  rw [a.size_data, Nat.mul_comm a.rows a.cols]
  exact Nat.mul_le_mul_right _ hc

/-- Column `c` is the slice of the array from `c * rows` to `(c + 1) * rows`. -/
theorem column_slice (hc : c < a.cols) :
    (a.data.extract (c * a.rows) ((c + 1) * a.rows)).toList =
      (List.range a.rows).map fun r => a.entry r c := by
  have hend := column_end_le hc
  apply List.ext_getElem
  · simp only [Array.length_toList, Array.size_extract, List.length_map, List.length_range]
    rw [Nat.min_eq_left hend, Nat.succ_mul]
    omega
  · intro r hr _
    simp only [Array.length_toList, Array.size_extract, Nat.succ_mul] at hr
    have hr' : r < a.rows := by omega
    have hplace := getElem?_data_index hr' hc
    rw [Array.getElem?_eq_getElem (index_lt_size hr' hc), Option.some_inj] at hplace
    simp only [Array.getElem_toList, Array.getElem_extract, List.getElem_map, List.getElem_range]
    exact hplace

/-- The two arrays one after the other are as long as the joint shape asks exactly when the heights
agree, or the second matrix has no columns. -/
theorem size_append_data_iff (a b : Dense) :
    (a.data ++ b.data).size = a.rows * (a.cols + b.cols) ↔ a.rows = b.rows ∨ b.cols = 0 := by
  rw [Array.size_append, a.size_data, b.size_data, Nat.mul_add, Nat.add_left_cancel_iff]
  constructor
  · intro h
    rcases Nat.eq_zero_or_pos b.cols with hzero | hpos
    · exact .inr hzero
    · exact .inl (Nat.eq_of_mul_eq_mul_right hpos h).symm
  · rintro (h | h)
    · rw [h]
    · rw [h, Nat.mul_zero, Nat.mul_zero]

/-! ### Checked reads and writes -/

theorem get?_of_lt (hr : r < a.rows) (hc : c < a.cols) : a.get? r c = some (a.entry r c) := by
  simp [get?, hr, hc]

theorem get?_eq_none_iff : a.get? r c = none ↔ a.rows ≤ r ∨ a.cols ≤ c := by
  simp only [get?, ite_eq_right_iff, reduceCtorEq, imp_false, not_and_or, Nat.not_lt]

theorem set?_eq_none_iff (v : Float) : a.set? r c v = none ↔ a.rows ≤ r ∨ a.cols ≤ c := by
  simp only [set?, ite_eq_right_iff, reduceCtorEq, imp_false, not_and_or, Nat.not_lt]

theorem entry_write (v : Float) {i j : Nat} (hr : r < a.rows) (hi : i < a.rows) (hj : j < a.cols) :
    (a.write r c v).entry i j = if i = r ∧ j = c then v else a.entry i j := by
  have hplace := getElem?_data_write a r c v (j * a.rows + i)
  rw [if_pos (index_lt_size hi hj)] at hplace
  simp only [entry, rows_write, Array.getD_eq_getD_getElem?, hplace]
  by_cases hcell : i = r ∧ j = c
  · obtain ⟨rfl, rfl⟩ := hcell
    simp
  · have hne : c * a.rows + r ≠ j * a.rows + i := fun h =>
      hcell (((index_eq_iff hr hi).1 h).imp Eq.symm Eq.symm).symm
    simp [hne, hcell]

/-- Replacing an entry in a row of the matrix is writing the cell's place in the array; past the
last column both change nothing. -/
theorem set_eq_write (v : Float) (hr : r < a.rows) : a.set r c v = a.write r c v :=
  ext_entry rfl rfl fun i hi j hj => by rw [entry_set a v hi hj, entry_write v hr hi hj]

/-! ### Shape checks -/

theorem symmetrize?_eq_none_iff : a.symmetrize? = none ↔ a.rows ≠ a.cols := by
  simp [symmetrize?]

theorem vcat?_eq_none_iff : a.vcat? b = none ↔ a.cols ≠ b.cols := by
  simp [vcat?]

theorem hcat?_eq_none_iff : a.hcat? b = none ↔ a.rows ≠ b.rows := by
  simp [hcat?]

theorem mulVec?_eq_none_iff (x : Array Float) : a.mulVec? x = none ↔ x.size ≠ a.cols := by
  simp [mulVec?, eq_comm]

theorem row?_eq_none_iff : a.row? r = none ↔ 0 < a.cols ∧ a.rows ≤ r := by
  simp only [row?, ite_eq_right_iff, reduceCtorEq, imp_false, not_or]
  omega

/-- Past the width check, each cell of a stack is read, through the checked index, from the block
that holds its row. -/
theorem get?_vcat (h : a.cols = b.cols) (r c : Nat) :
    (a.vcat b).get? r c = if r < a.rows then a.get? r c else b.get? (r - a.rows) c := by
  by_cases hin : r < a.rows + b.rows ∧ c < a.cols
  · obtain ⟨hr, hc⟩ := hin
    rw [get?_of_lt (by simpa using hr) (by simpa using hc), entry_vcat hr hc]
    split
    · rw [get?_of_lt (by assumption) hc]
    · rw [get?_of_lt (by omega) (h ▸ hc)]
  · have hout : (a.vcat b).get? r c = none :=
      get?_eq_none_iff.2 (by simp only [rows_vcat, cols_vcat]; omega)
    rw [hout]
    split <;> exact (get?_eq_none_iff.2 (by omega)).symm

/-- The transpose reads each cell from the mirrored cell, inside the matrix exactly when its own is. -/
theorem get?_transpose (r c : Nat) : a.transpose.get? r c = a.get? c r := by
  by_cases hin : r < a.cols ∧ c < a.rows
  · rw [get?_of_lt hin.1 hin.2, get?_of_lt hin.2 hin.1, entry_transpose a hin.1 hin.2]
  · have hout : a.transpose.get? r c = none :=
      get?_eq_none_iff.2 (by simp only [transpose, rows_ofFn, cols_ofFn]; omega)
    rw [hout, get?_eq_none_iff.2 (by omega)]

/-- A row, when there is one, reads the cells of the matrix in that row. -/
theorem getElem?_row? {y : Array Float} (h : a.row? r = some y) :
    y.size = a.cols ∧ ∀ c < a.cols, y[c]? = a.get? r c := by
  simp only [row?, Option.ite_none_right_eq_some, Option.some.injEq] at h
  obtain ⟨hrow, rfl⟩ := h
  refine ⟨by simp [row], fun c hc => ?_⟩
  rcases hrow with hzero | hr
  · omega
  · simp [row, hc, get?_of_lt hr hc]

end Dense

/-- The storage of a dense matrix: each cell at its place, each column a slice, side by side the
arrays appended; each checked operation stops exactly on its shape check, and past it reads cells
inside. -/
theorem dense_storage_in_bounds (a b : Dense) :
    a.data.size = a.rows * a.cols ∧
    (∀ r c, r < a.rows → c < a.cols → a.data[c * a.rows + r]? = some (a.entry r c)) ∧
    (∀ c, c < a.cols → (c + 1) * a.rows ≤ a.data.size ∧
      (a.data.extract (c * a.rows) ((c + 1) * a.rows)).toList = (List.range a.rows).map (a.entry · c)) ∧
    (a.hcat? b).map Dense.data = (if a.rows = b.rows then some (a.data ++ b.data) else none) ∧
    ((a.data ++ b.data).size = a.rows * (a.cols + b.cols) ↔ a.rows = b.rows ∨ b.cols = 0) ∧
    (a.symmetrize? = none ↔ a.rows ≠ a.cols) ∧
    (a.vcat? b = none ↔ a.cols ≠ b.cols) ∧
    (a.hcat? b = none ↔ a.rows ≠ b.rows) ∧
    (∀ x : Array Float, a.mulVec? x = none ↔ x.size ≠ a.cols) ∧
    (∀ r c, a.get? r c = none ↔ a.rows ≤ r ∨ a.cols ≤ c) ∧
    (∀ r c v, a.set? r c v = none ↔ a.rows ≤ r ∨ a.cols ≤ c) ∧
    (∀ r, a.row? r = none ↔ 0 < a.cols ∧ a.rows ≤ r) ∧
    (∀ v ∈ a.vcat? b, ∀ r c, v.get? r c = if r < a.rows then a.get? r c else b.get? (r - a.rows) c) ∧
    (∀ r c, a.transpose.get? r c = a.get? c r) ∧
    (∀ r, ∀ y ∈ a.row? r, y.size = a.cols ∧ ∀ c < a.cols, y[c]? = a.get? r c) ∧
    (∀ r c v, ∀ m ∈ a.set? r c v, m = a.write r c v) := by
  refine ⟨a.size_data, fun r c hr hc => Dense.getElem?_data_index hr hc,
    fun c hc => ⟨Dense.column_end_le hc, Dense.column_slice hc⟩, Dense.map_data_hcat? a b,
    Dense.size_append_data_iff a b, Dense.symmetrize?_eq_none_iff, Dense.vcat?_eq_none_iff,
    Dense.hcat?_eq_none_iff, Dense.mulVec?_eq_none_iff, fun r c => Dense.get?_eq_none_iff,
    fun r c v => Dense.set?_eq_none_iff v, fun r => Dense.row?_eq_none_iff, fun v hv => ?_,
    Dense.get?_transpose, fun r y hy => Dense.getElem?_row? hy, ?_⟩
  · obtain ⟨hcols, rfl⟩ := Dense.mem_vcat? hv
    exact Dense.get?_vcat hcols
  · intro r c v m hm
    simp only [Dense.set?, Option.mem_def, Option.ite_none_right_eq_some, Option.some.injEq] at hm
    obtain ⟨⟨hr, -⟩, rfl⟩ := hm
    exact Dense.set_eq_write v hr

end ConvexQp
