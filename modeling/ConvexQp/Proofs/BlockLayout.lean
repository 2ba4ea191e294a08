import Mathlib
import ConvexQp.Proofs.Conversion
/-! Blocks of dense matrices and their storage. Side by side is the two arrays one after the other,
which read by entries is the transpose of the two transposes stacked. -/

namespace ConvexQp

namespace Dense

variable {a b : Dense}

/-- Side by side is defined exactly for matrices of one height, and stores their two arrays one
after the other. -/
theorem map_data_hcat? (a b : Dense) :
    (a.hcat? b).map data = if a.rows = b.rows then some (a.data ++ b.data) else none := by
  by_cases h : a.rows = b.rows
  · rw [hcat?, dif_pos h, if_pos h, Option.map_some, data_hcat]
  · rw [hcat?, dif_neg h, if_neg h, Option.map_none]

theorem mem_hcat? {h : Dense} (hh : h ∈ a.hcat? b) : ∃ hr : a.rows = b.rows, h = a.hcat b hr := by
  by_cases hr : a.rows = b.rows
  · exact ⟨hr, by simpa [hcat?, hr, eq_comm] using hh⟩
  · simp [hcat?, hr] at hh

theorem mem_vcat? {v : Dense} (hv : v ∈ a.vcat? b) : a.cols = b.cols ∧ v = a.vcat b := by
  by_cases hc : a.cols = b.cols
  · exact ⟨hc, by simpa [vcat?, hc, eq_comm] using hv⟩
  · simp [vcat?, hc] at hv

/-- Transposing twice gives a matrix back. -/
theorem transpose_transpose (a : Dense) : a.transpose.transpose = a :=
  ext_entry rfl rfl fun r (hr : r < a.rows) c (hc : c < a.cols) => by
    rw [entry_transpose a.transpose hr hc, entry_transpose a hc hr]

/-- A matrix beside another of the same height is the transpose of their transposes stacked. -/
theorem hcat_eq_transpose_vcat (h : a.rows = b.rows) :
    a.hcat b h = (a.transpose.vcat b.transpose).transpose := by
  refine ext_entry rfl rfl fun r (hr : r < a.rows) c (hc : c < a.cols + b.cols) => ?_
  have hheight : a.transpose.rows = a.cols := rfl
  rw [entry_hcat h hr, entry_transpose (a.transpose.vcat b.transpose) hr hc, entry_vcat hc hr, hheight]
  by_cases hleft : c < a.cols
  · rw [if_pos hleft, if_pos hleft, entry_transpose a hleft hr]
  · rw [if_neg hleft, if_neg hleft, entry_transpose b (show c - a.cols < b.cols by omega) (h ▸ hr)]

/-- Side by side, defined for matrices of the same height, is the transpose of the transposes
stacked, defined for matrices of the same width. -/
theorem hcat?_eq_map_transpose (a b : Dense) :
    a.hcat? b = (a.transpose.vcat? b.transpose).map transpose := by
  by_cases h : a.rows = b.rows
  · have hw : a.transpose.cols = b.transpose.cols := h
    rw [hcat?, dif_pos h, vcat?, if_pos hw, Option.map_some, hcat_eq_transpose_vcat h]
  · have hw : ¬a.transpose.cols = b.transpose.cols := h
    rw [hcat?, dif_neg h, vcat?, if_neg hw, Option.map_none]

end Dense

/-- Blocks of dense matrices: side by side, defined on one height, appends the two arrays and is the
transpose of the transposes stacked; each block stands at its offset, `0.0` around it in the
block-diagonal; transposing twice gives the matrix back. -/
theorem dense_blocks_layout (a b : Dense) :
    (a.hcat? b).map Dense.data = (if a.rows = b.rows then some (a.data ++ b.data) else none) ∧
    a.hcat? b = (a.transpose.vcat? b.transpose).map Dense.transpose ∧
    (∀ h ∈ a.hcat? b, h.rows = a.rows ∧ h.cols = a.cols + b.cols ∧
      ∀ r < h.rows, ∀ c < h.cols,
        h.entry r c = if c < a.cols then a.entry r c else b.entry r (c - a.cols)) ∧
    (∀ v ∈ a.vcat? b, v.rows = a.rows + b.rows ∧ v.cols = a.cols ∧
      ∀ r < v.rows, ∀ c < v.cols,
        v.entry r c = if r < a.rows then a.entry r c else b.entry (r - a.rows) c) ∧
    ((a.blockDiag b).rows = a.rows + b.rows ∧ (a.blockDiag b).cols = a.cols + b.cols ∧
      ∀ r < (a.blockDiag b).rows, ∀ c < (a.blockDiag b).cols,
        (a.blockDiag b).entry r c =
          if r < a.rows ∧ c < a.cols then a.entry r c
          else if a.rows ≤ r ∧ a.cols ≤ c then b.entry (r - a.rows) (c - a.cols) else 0.0) ∧
    a.transpose.transpose = a := by
  refine ⟨Dense.map_data_hcat? a b, Dense.hcat?_eq_map_transpose a b, fun h hh => ?_, fun v hv => ?_,
    ⟨rfl, rfl, fun r hr c hc => Dense.entry_blockDiag hr hc⟩, Dense.transpose_transpose a⟩
  · obtain ⟨hrows, rfl⟩ := Dense.mem_hcat? hh
    exact ⟨rfl, rfl, fun r hr c _ => Dense.entry_hcat hrows hr⟩
  · obtain ⟨-, rfl⟩ := Dense.mem_vcat? hv
    exact ⟨rfl, rfl, fun r hr c hc => Dense.entry_vcat hr hc⟩

/-- The row `(1, 2)` beside the row `(3)` is stored as `(1, 2, 3)`. -/
theorem dense_blocks_layout_at_row :
    ((Dense.ofRow #[1.0, 2.0]).hcat? (Dense.ofRow #[3.0])).map Dense.data = some #[1.0, 2.0, 3.0] := by
  rw [(dense_blocks_layout (Dense.ofRow #[1.0, 2.0]) (Dense.ofRow #[3.0])).1]
  decide +kernel

end ConvexQp
