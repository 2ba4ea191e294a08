import Mathlib
import ConvexQp.Proofs.Compression
import ConvexQp.Proofs.SparseRefinement
/-! What the sparse operations store: on compressed storage no two triplets meet, so each operation
stores every entry it is given once, none summed and none dropped. -/

namespace ConvexQp

@[simp] theorem Triplet.swap_swap (t : Triplet) : t.swap.swap = t := rfl

namespace Sparse

variable {s : Sparse}

/-- Scaling a compressed matrix multiplies each stored value in place. -/
theorem entries_scale (hs : s.Compressed) (alpha : Float) :
    (s.scale alpha).entries = s.entries.map (Triplet.scaled alpha) :=
  entries_ofTriplets_eq (distinct_map_scaled alpha hs.wellFormed.distinct) (List.pairwise_map.2 hs.sorted)
    (List.Perm.refl _)

theorem colPointers_scale (hs : s.Compressed) (alpha : Float) :
    (s.scale alpha).colPointers = s.colPointers := by
  rw [colPointers, colPointers, entries_scale hs]
  simp only [List.filter_map, List.length_map, Function.comp_def, Triplet.scaled]
  rfl

theorem rowIndices_scale (hs : s.Compressed) (alpha : Float) :
    (s.scale alpha).rowIndices = s.rowIndices := by
  simp [rowIndices, entries_scale hs, Function.comp_def, Triplet.scaled]

theorem values_scale (hs : s.Compressed) (alpha : Float) :
    (s.scale alpha).values = s.values.map (alpha * ·) := by
  simp [values, entries_scale hs, Function.comp_def, Triplet.scaled]

/-- Transposing a compressed matrix twice gives it back. -/
theorem transpose_transpose (hs : s.Compressed) : s.transpose.transpose = s := by
  have hperm : s.transpose.entries.Perm (s.entries.map Triplet.swap) :=
    entries_ofTriplets_perm (distinct_map_swap hs.wellFormed.distinct)
  have hback : s.entries.Perm (s.transpose.entries.map Triplet.swap) := by
    simpa [List.map_map, Function.comp_def] using (hperm.map Triplet.swap).symm
  have hentries : s.transpose.transpose.entries = s.entries :=
    entries_ofTriplets_eq (distinct_map_swap (wellFormed_transpose hs.wellFormed).distinct) hs.sorted hback
  calc s.transpose.transpose = ⟨s.rows, s.cols, s.transpose.transpose.entries⟩ := rfl
    _ = s := by rw [hentries]

end Sparse

namespace Mat

/-- A well-formed sparse matrix joined with a well-formed block moved past it stores its own entries
and the moved triplets of the block, each once. -/
theorem joinTriplets_perm {a : Sparse} {o : Mat} (ha : a.WellFormed) (ho : o.WellFormed)
    {rows cols dr dc : Nat} (hsep : a.rows ≤ dr ∨ a.cols ≤ dc) :
    (joinTriplets rows cols a o dr dc).entries.Perm (a.entries ++ o.triplets.map (Triplet.shift dr dc)) :=
  Sparse.entries_ofTriplets_perm (distinct_join ha ho hsep)

end Mat

/-- The sparse operations on a compressed matrix store what they are given: scaling keeps the arrays
and multiplies the values, transposing twice gives the matrix back, and joining a block stores the
entries and the block's moved triplets, each once. -/
theorem sparse_ops_keep_entries (s : Sparse) (hs : s.Compressed) (alpha : Float) (o : Mat)
    (ho : o.WellFormed) :
    ((Mat.sparse s).scale alpha).toSparse.colPointers = s.colPointers ∧
      ((Mat.sparse s).scale alpha).toSparse.rowIndices = s.rowIndices ∧
      ((Mat.sparse s).scale alpha).toSparse.values = s.values.map (alpha * ·) ∧
      (Mat.sparse s).transpose.transpose.toSparse = s ∧
      ((Mat.sparse s).vcat o).toSparse.entries.Perm
        (s.entries ++ o.triplets.map (Triplet.shift s.rows 0)) ∧
      ((Mat.sparse s).hcat o).toSparse.entries.Perm
        (s.entries ++ o.triplets.map (Triplet.shift 0 s.cols)) ∧
      ((Mat.sparse s).blockDiag o).toSparse.entries.Perm
        (s.entries ++ o.triplets.map (Triplet.shift s.rows s.cols)) :=
  ⟨Sparse.colPointers_scale hs alpha, Sparse.rowIndices_scale hs alpha, Sparse.values_scale hs alpha,
    Sparse.transpose_transpose hs, Mat.joinTriplets_perm hs.wellFormed ho (.inl le_rfl),
    Mat.joinTriplets_perm hs.wellFormed ho (.inr le_rfl),
    Mat.joinTriplets_perm hs.wellFormed ho (.inl le_rfl)⟩

/-- A compressed `2 × 2` matrix storing `2.0` and `-0.0` in its first column and `3.0` below right,
over the dense row `(-0.0, 1.0)`: stacked, they store four entries, the row giving only its `1.0`;
and the matrix transposed twice is itself. -/
theorem sparse_ops_keep_entries_at_two :
    let s : Sparse := ⟨2, 2, [⟨0, 0, 2.0⟩, ⟨1, 0, -0.0⟩, ⟨1, 1, 3.0⟩]⟩
    let o : Mat := .dense (Dense.ofRow #[-0.0, 1.0])
    s.Compressed ∧ o.WellFormed ∧ ((Mat.sparse s).vcat o).toSparse.entries.length = 4 ∧
      (Mat.sparse s).transpose.transpose.toSparse = s := by
  intro s o
  have hs : s.Compressed := ⟨by decide, by decide⟩
  have ho : o.WellFormed := trivial
  have h := sparse_ops_keep_entries s hs 2.0 o ho
  refine ⟨hs, ho, ?_, h.2.2.2.1⟩
  rw [h.2.2.2.2.1.length_eq]
  decide

end ConvexQp
