import Mathlib
import ConvexQp.Proofs.Compression
import ConvexQp.Proofs.SparseRefinement
/-! Conversions between the two storages. Each round trip normalizes zeros its own way: through
sparse every zero becomes `0.0`, through dense the stored zeros are dropped. -/

namespace ConvexQp

namespace Float

/-- Adding a float into `0.0` turns a zero of either sign into `0.0` and keeps every other float. -/
theorem posZero_add_eq_ite (x : Float) : 0.0 + x = if (x == 0.0) = true then 0.0 else x := by
  split
  · rename_i hzero
    exact posZero_add_isZero (beq_zero_iff.1 hzero)
  · rename_i hnonzero
    refine posZero_add fun hneg => hnonzero ?_
    rw [hneg]
    decide

theorem bne_zero_iff {x : Float} : (x != 0.0) = true ↔ ¬(x == 0.0) = true := by
  simp [bne]

end Float

/-- Two lists strictly in storage order with the same members are one. -/
theorem eq_of_before_of_mem_iff {l l' : List Triplet} (hl : l.Pairwise fun s t => s.before t = true)
    (hl' : l'.Pairwise fun s t => s.before t = true) (h : ∀ t, t ∈ l ↔ t ∈ l') : l = l' := by
  have hnodup : ∀ {l : List Triplet}, l.Pairwise (fun s t => s.before t = true) → l.Nodup :=
    fun hl => hl.imp fun {s t} hst heq => by
      subst heq
      simp [Triplet.before] at hst
  exact eq_of_perm_of_before hl hl' ((List.perm_ext_iff_of_nodup (hnodup hl) (hnodup hl')).2 h)

namespace Dense

/-- Two dense matrices of one shape with the same entries inside it are equal. -/
theorem ext_entry {a b : Dense} (hr : a.rows = b.rows) (hc : a.cols = b.cols)
    (h : ∀ r < a.rows, ∀ c < a.cols, a.entry r c = b.entry r c) : a = b := by
  obtain ⟨rows, cols, da, hda⟩ := a
  obtain ⟨rows', cols', db, hdb⟩ := b
  dsimp only at hr hc h
  subst hr hc
  congr 1
  refine Array.ext (by rw [hda, hdb]) fun i hia hib => ?_
  have hpos : 0 < rows := Nat.pos_of_ne_zero fun h0 => by
    rw [h0, Nat.zero_mul] at hda
    omega
  have hcell := h (i % rows) (Nat.mod_lt i hpos) (i / rows) (Nat.div_lt_of_lt_mul (hda ▸ hia))
  simpa only [entry, Nat.div_add_mod', Array.getD_eq_getD_getElem?, Array.getElem?_eq_getElem hia,
    Array.getElem?_eq_getElem hib, Option.getD_some] using hcell

/-- The entries other than zero are listed strictly in storage order. -/
theorem nonzeros_sorted (a : Dense) : a.nonzeros.Pairwise fun s t => s.before t = true := by
  unfold nonzeros
  rw [List.pairwise_flatMap]
  constructor
  · intro c _
    rw [List.pairwise_map]
    exact (List.pairwise_lt_range.filter _).imp fun {r s} (h : r < s) => by simp [Triplet.before, h]
  · refine List.pairwise_lt_range.imp fun {c d} (hcd : c < d) => ?_
    intro s hs t ht
    simp only [List.mem_map] at hs ht
    obtain ⟨_, _, rfl⟩ := hs
    obtain ⟨_, _, rfl⟩ := ht
    simp [Triplet.before, hcd]

/-- The sparse copy of a dense matrix stores exactly its entries other than zero, in storage
order. -/
theorem entries_toSparse (a : Dense) : (Mat.dense a).toSparse.entries = a.nonzeros :=
  Sparse.entries_ofTriplets_eq (distinct_nonzeros a) (nonzeros_sorted a) (List.Perm.refl _)

theorem compressed_toSparse (a : Dense) : (Mat.dense a).toSparse.Compressed :=
  Sparse.compressed_ofTriplets fun _ ht => mem_nonzeros ht

/-- The sparse copy of a dense matrix, copied back: each entry added into `0.0`. -/
theorem entry_toDense_toSparse (a : Dense) {r c : Nat} (hr : r < a.rows) (hc : c < a.cols) :
    (Mat.dense a).toSparse.toDense.entry r c = 0.0 + a.entry r c := by
  rw [Sparse.entry_toDense (wellFormed_toSparse a) hr hc, Sparse.entry, entries_toSparse,
    valueAt_nonzeros a hr hc]
  split
  · rename_i hzero
    rw [Float.posZero_add_isZero (.inl rfl), Float.posZero_add_isZero (Float.beq_zero_iff.1 hzero)]
  · rfl

end Dense

namespace Sparse

variable {a : Sparse}

/-- In a well-formed matrix a triplet is stored exactly when its position is stored with its
value. -/
theorem mem_entries_iff (ha : a.WellFormed) {t : Triplet} :
    t ∈ a.entries ↔ a.stores t.row t.col = true ∧ t.value = a.entry t.row t.col := by
  constructor
  · intro ht
    exact ⟨storesAt_iff.2 ⟨t, ht, rfl, rfl⟩, (valueAt_of_mem ha.distinct ht).symm⟩
  · rintro ⟨hs, hv⟩
    obtain ⟨u, hu, hur, huc⟩ := storesAt_iff.1 hs
    have huv : u.value = t.value := by
      rw [hv, entry, ← hur, ← huc, valueAt_of_mem ha.distinct hu]
    obtain ⟨r, c, v⟩ := t
    obtain ⟨r', c', v'⟩ := u
    dsimp only at hur huc huv
    subst hur huc huv
    exact hu

/-- A position holding a value other than zero is stored. -/
theorem stores_of_entry_bne_zero {r c : Nat} (h : (a.entry r c != 0.0) = true) :
    a.stores r c = true := by
  by_contra hno
  rw [entry_of_stores_eq_false (Bool.of_not_eq_true hno)] at h
  exact absurd h (by decide)

/-- Adding the stored values into `0.0` never gives `-0.0`. -/
theorem entry_toDense_ne_negZero (ha : a.WellFormed) {r c : Nat} (hr : r < a.rows) (hc : c < a.cols) :
    a.toDense.entry r c ≠ -0.0 := by
  rw [entry_toDense ha hr hc]
  exact Float.add_ne_negZero (by decide) _

/-- The entries other than zero of the dense copy of a compressed matrix are its stored entries
other than zero, in their order. -/
theorem nonzeros_toDense (ha : a.Compressed) :
    a.toDense.nonzeros = a.entries.filter fun t => t.value != 0.0 := by
  refine eq_of_before_of_mem_iff (Dense.nonzeros_sorted _) (ha.sorted.filter _) fun t => ?_
  rw [Dense.mem_nonzeros_iff, List.mem_filter, rows_toDense, cols_toDense]
  constructor
  · rintro ⟨hr, hc, hne, hv⟩
    rw [entry_toDense ha.wellFormed hr hc, Float.posZero_add_eq_ite] at hne hv
    by_cases hzero : (a.entry t.row t.col == 0.0) = true
    · rw [if_pos hzero] at hne
      exact absurd hne (by decide)
    · rw [if_neg hzero] at hne hv
      refine ⟨(mem_entries_iff ha.wellFormed).2 ⟨stores_of_entry_bne_zero hne, hv⟩, ?_⟩
      rwa [hv]
  · rintro ⟨ht, hne⟩
    obtain ⟨hr, hc⟩ := ha.inside t ht
    have hv := ((mem_entries_iff ha.wellFormed).1 ht).2
    rw [entry_toDense ha.wellFormed hr hc, ← hv, Float.posZero_add_eq_ite,
      if_neg (Float.bne_zero_iff.1 hne)]
    exact ⟨hr, hc, hne, rfl⟩

end Sparse

namespace Mat

/-- Dense to sparse to dense: every zero becomes `0.0`; every other entry, NaN included, stays. -/
theorem toDense_sparse_toSparse_dense (a : Dense) :
    (Mat.sparse (Mat.dense a).toSparse).toDense =
      Dense.ofFn a.rows a.cols fun r c => if (a.entry r c == 0.0) = true then 0.0 else a.entry r c := by
  have hrows : (Mat.sparse (Mat.dense a).toSparse).toDense.rows = a.rows := by simp
  have hcols : (Mat.sparse (Mat.dense a).toSparse).toDense.cols = a.cols := by simp
  refine Dense.ext_entry hrows hcols fun r hr c hc => ?_
  rw [hrows] at hr
  rw [hcols] at hc
  rw [Dense.entry_ofFn _ hr hc, ← Float.posZero_add_eq_ite]
  exact Dense.entry_toDense_toSparse a hr hc

/-- Sparse to dense to sparse: the stored entries other than zero, in place and in order. -/
theorem toSparse_dense_toDense_sparse {s : Sparse} (hs : s.Compressed) :
    (Mat.dense (Mat.sparse s).toDense).toSparse =
      ⟨s.rows, s.cols, s.entries.filter fun t => t.value != 0.0⟩ := by
  have hentries := Dense.entries_toSparse s.toDense
  rw [Sparse.nonzeros_toDense hs] at hentries
  calc (Mat.dense (Mat.sparse s).toDense).toSparse
      = ⟨(Mat.dense s.toDense).toSparse.rows, (Mat.dense s.toDense).toSparse.cols,
          (Mat.dense s.toDense).toSparse.entries⟩ := rfl
    _ = ⟨s.rows, s.cols, s.entries.filter fun t => t.value != 0.0⟩ := by
      rw [hentries]
      simp

/-- Converting a dense matrix to sparse is stable under a round trip through dense. -/
theorem toSparse_round_trip (a : Dense) :
    (Mat.dense (Mat.sparse (Mat.dense a).toSparse).toDense).toSparse = (Mat.dense a).toSparse := by
  rw [toSparse_dense_toDense_sparse (Dense.compressed_toSparse a)]
  have hkeep : ((Mat.dense a).toSparse.entries.filter fun t => t.value != 0.0) =
      (Mat.dense a).toSparse.entries := by
    refine List.filter_eq_self.2 fun t ht => ?_
    rw [Dense.entries_toSparse] at ht
    obtain ⟨-, -, hne, hv⟩ := Dense.mem_nonzeros_iff.1 ht
    rwa [hv]
  rw [hkeep]

/-- Converting a sparse matrix to dense is stable under a round trip through sparse. -/
theorem toDense_round_trip {s : Sparse} (hs : s.WellFormed) :
    (Mat.sparse (Mat.dense (Mat.sparse s).toDense).toSparse).toDense = (Mat.sparse s).toDense := by
  rw [toDense_sparse_toSparse_dense]
  refine Dense.ext_entry rfl rfl fun r hr c hc => ?_
  have hr' : r < (Mat.sparse s).toDense.rows := hr
  have hc' : c < (Mat.sparse s).toDense.cols := hc
  rw [Dense.entry_ofFn _ hr' hc', ← Float.posZero_add_eq_ite]
  exact Float.posZero_add (Sparse.entry_toDense_ne_negZero hs (by simpa using hr') (by simpa using hc'))

end Mat

/-- Dense to sparse to dense makes every zero `0.0` and keeps the rest; sparse to dense to sparse
keeps the stored entries other than zero, in order; each round trip is stable. -/
theorem storage_round_trips (a : Dense) (s : Sparse) (hs : s.Compressed) (m : Mat) (k : Storage) :
    (Mat.sparse (Mat.dense a).toSparse).toDense =
        Dense.ofFn a.rows a.cols (fun r c => if (a.entry r c == 0.0) = true then 0.0 else a.entry r c) ∧
      (Mat.dense (Mat.sparse s).toDense).toSparse =
        ⟨s.rows, s.cols, s.entries.filter fun t => t.value != 0.0⟩ ∧
      (Mat.dense (Mat.sparse (Mat.dense a).toSparse).toDense).toSparse = (Mat.dense a).toSparse ∧
      (Mat.sparse (Mat.dense (Mat.sparse s).toDense).toSparse).toDense = (Mat.sparse s).toDense ∧
      (m.toStorage k).storage = k ∧ (m.toStorage k).rows = m.rows ∧ (m.toStorage k).cols = m.cols :=
  ⟨Mat.toDense_sparse_toSparse_dense a, Mat.toSparse_dense_toDense_sparse hs,
    Mat.toSparse_round_trip a, Mat.toDense_round_trip hs.wellFormed, by simp, by simp, by simp⟩

/-- A compressed `2 × 2` matrix storing `-0.0` and `3.0` in its first column: through dense and
back it keeps only the `3.0`. -/
theorem storage_round_trips_at_two :
    let s : Sparse := ⟨2, 2, [⟨0, 0, -0.0⟩, ⟨1, 0, 3.0⟩]⟩
    s.Compressed ∧ (Mat.dense (Mat.sparse s).toDense).toSparse.entries = [⟨1, 0, 3.0⟩] := by
  intro s
  have hs : s.Compressed := ⟨by decide, by decide⟩
  refine ⟨hs, ?_⟩
  rw [(storage_round_trips (Dense.zeros 1 1) s hs (.sparse s) .dense).2.1]
  rfl

end ConvexQp
