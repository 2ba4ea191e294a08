import Mathlib
import ConvexQp.Proofs.Halving
import ConvexQp.Proofs.SymmetricProjection
import ConvexQp.Problem.Normalize
/-! The sparse and the dense symmetric projection of a sparse matrix, compared as dense matrices:
they agree bit for bit when halving is exact and no mirrored pair overflows, and differ otherwise.
-/

namespace ConvexQp

namespace Sparse

/-- Every stored value surely halves exactly (`Float.halvesExactly`). -/
def HalvesExactly (s : Sparse) : Prop := ∀ t ∈ s.entries, Float.halvesExactly t.value = true

instance (s : Sparse) : Decidable s.HalvesExactly :=
  inferInstanceAs (Decidable (∀ t ∈ s.entries, _))

/-- No two finite values stored at mirrored positions off the diagonal overflow when summed. -/
def MirrorSumsFinite (s : Sparse) : Prop :=
  ∀ t ∈ s.entries, ∀ u ∈ s.entries, t.row ≠ t.col → u.row = t.col → u.col = t.row →
    t.value.isFinite = true → u.value.isFinite = true → (t.value + u.value).isFinite = true

instance (s : Sparse) : Decidable s.MirrorSumsFinite :=
  inferInstanceAs (Decidable (∀ t ∈ s.entries, ∀ u ∈ s.entries, _))

variable {s : Sparse}

theorem mem_of_stores (hs : s.WellFormed) {r c : Nat} (h : s.stores r c = true) :
    (⟨r, c, s.entry r c⟩ : Triplet) ∈ s.entries :=
  (mem_entries_iff hs).2 ⟨h, rfl⟩

theorem halvesExactly_entry (hs : s.WellFormed) (hh : s.HalvesExactly) (r c : Nat) :
    Float.halvesExactly (s.entry r c) = true := by
  cases hst : s.stores r c with
  | false =>
    rw [entry_of_stores_eq_false hst]
    exact Float.halvesExactly_zero
  | true => exact hh ⟨r, c, s.entry r c⟩ (mem_of_stores hs hst)

/-- Off the diagonal, the entries at mirrored positions sum to a finite float when both are finite:
stored values by assumption, and a `0.0` where nothing is stored changes no finiteness. -/
theorem isFinite_entry_add (hs : s.WellFormed) (hm : s.MirrorSumsFinite) {r c : Nat} (hrc : r ≠ c) :
    (s.entry r c).isFinite = true → (s.entry c r).isFinite = true →
      (s.entry r c + s.entry c r).isFinite = true := by
  cases hrs : s.stores r c with
  | false =>
    rw [entry_of_stores_eq_false hrs, Float.isFinite_posZero_add]
    exact fun _ h => h
  | true =>
    cases hcs : s.stores c r with
    | false =>
      rw [entry_of_stores_eq_false hcs, Float.add_comm, Float.isFinite_posZero_add]
      exact fun h _ => h
    | true =>
      exact hm ⟨r, c, s.entry r c⟩ (mem_of_stores hs hrs) ⟨c, r, s.entry c r⟩ (mem_of_stores hs hcs) hrc rfl rfl

/-- The projection of a square matrix stores inside its shape, in storage order. -/
theorem compressed_symmetrize (hs : s.WellFormed) (hsq : s.rows = s.cols) : s.symmetrize.Compressed :=
  compressed_ofTriplets fun t ht => by
    obtain ⟨u, hu, ht⟩ := List.mem_flatMap.1 ht
    have hin := hs.inside u hu
    simp only [List.mem_cons, List.not_mem_nil, or_false] at ht
    rcases ht with rfl | rfl
    · exact hin
    · exact ⟨hsq ▸ hin.2, hsq ▸ hin.1⟩

/-- Added into `0.0`, an entry of the projection is the sum of the halves of the entries at its
position and at the mirrored one, stored or not: a `0.0` where nothing is stored halves to `0.0`,
and a zero added to a sum leaves it once it is added into `0.0`. -/
theorem posZero_add_entry_symmetrize (hs : s.WellFormed) (r c : Nat) :
    0.0 + s.symmetrize.entry r c = 0.0 + (0.5 * s.entry r c + 0.5 * s.entry c r) := by
  have hzero : Float.IsZero (0.5 * 0.0) := .inl (by decide)
  rw [entry_symmetrize hs]
  cases hrc : s.stores r c <;> cases hcr : s.stores c r <;>
    simp only [Bool.and_self, Bool.and_false, Bool.false_and, Bool.false_eq_true, if_true, if_false]
  · rw [entry_of_stores_eq_false hrc, entry_of_stores_eq_false hcr]
    decide
  · rw [entry_of_stores_eq_false hrc, Float.posZero_add_zero_add hzero]
  · rw [entry_of_stores_eq_false hcr, Float.posZero_add_add_zero hzero]

/-- The sparse projection of a square matrix, copied to dense, is the dense projection of its dense
copy, when every stored value halves exactly and no mirrored pair overflows. -/
theorem toDense_symmetrize (hs : s.WellFormed) (hsq : s.rows = s.cols) (hh : s.HalvesExactly)
    (hm : s.MirrorSumsFinite) : s.symmetrize.toDense = s.toDense.symmetrize := by
  have hsym := (compressed_symmetrize hs hsq).wellFormed
  refine Dense.ext_entry (by simp) (by simp) fun r hr c hc => ?_
  have hr' : r < s.rows := by simpa using hr
  have hc' : c < s.cols := by simpa using hc
  have hx := halvesExactly_entry hs hh r c
  rw [entry_toDense hsym hr' hc', posZero_add_entry_symmetrize hs,
    Dense.entry_symmetrize (by simpa using hr') (by simpa using hc')]
  split
  · rename_i hrc
    subst hrc
    rw [Float.half_mul_add_self hx, entry_toDense hs hr' hc']
  · rename_i hrc
    have hy := halvesExactly_entry hs hh c r
    have hr'' : r < s.cols := hsq ▸ hr'
    have hc'' : c < s.rows := hsq ▸ hc'
    rw [Float.posZero_add_half_add hx hy (isFinite_entry_add hs hm hrc), ← entry_toDense hs hr' hc',
      ← entry_toDense hs hc'' hr'']
    rcases Nat.lt_or_gt_of_ne hrc with hlt | hgt
    · rw [min_eq_left hlt.le, max_eq_right hlt.le]
    · rw [min_eq_right hgt.le, max_eq_left hgt.le, Float.add_comm]

end Sparse

namespace Mat

theorem toDense_symmetrize?_getD (m : Mat) :
    (m.symmetrize?.getD m).toDense = (m.symmetrize?.map toDense).getD m.toDense := by
  cases m.symmetrize? <;> rfl

end Mat

/-- The sparse and the dense symmetric projections of a well-formed sparse matrix agree bit for bit
when every stored value surely halves exactly and no mirrored pair overflows when summed, and so do
the symmetric parts that normalizing takes of `P` in either storage. -/
theorem symmetric_projections_agree (s : Sparse) (hs : s.WellFormed) (hh : s.HalvesExactly)
    (hm : s.MirrorSumsFinite) :
    (Mat.sparse s).symmetrize?.map Mat.toDense =
        (Mat.dense (Mat.sparse s).toDense).symmetrize?.map Mat.toDense ∧
      ∀ p : Problem, p.quad = .sparse s →
        (p.quadFor true).toDense =
          (({ p with quad := .dense (Mat.sparse s).toDense } : Problem).quadFor true).toDense := by
  have hagree : (Mat.sparse s).symmetrize?.map Mat.toDense =
      (Mat.dense (Mat.sparse s).toDense).symmetrize?.map Mat.toDense := by
    by_cases hsq : s.rows = s.cols
    · simp [Mat.symmetrize?, Sparse.symmetrize?, Dense.symmetrize?, Mat.toDense, hsq,
        Sparse.toDense_symmetrize hs hsq hh hm]
    · simp [Mat.symmetrize?, Sparse.symmetrize?, Dense.symmetrize?, hsq]
  refine ⟨hagree, fun p hp => ?_⟩
  simp only [Problem.quadFor, if_true, hp, Mat.toDense_symmetrize?_getD, hagree]
  rfl

/-- A `2 × 2` matrix storing `2.0` on the diagonal and `1.0` and `3.0` at the mirrored pair. -/
theorem symmetric_projections_agree_at_two :
    let s : Sparse := ⟨2, 2, [⟨0, 0, 2.0⟩, ⟨1, 0, 1.0⟩, ⟨0, 1, 3.0⟩]⟩
    s.WellFormed ∧ s.HalvesExactly ∧ s.MirrorSumsFinite ∧
      (Mat.sparse s).symmetrize?.map Mat.toDense =
        (Mat.dense (Mat.sparse s).toDense).symmetrize?.map Mat.toDense := by
  intro s
  have hs : s.WellFormed := ⟨by decide, by unfold Distinct Triplet.Apart; decide⟩
  have hh : s.HalvesExactly := by decide +kernel
  have hm : s.MirrorSumsFinite := by decide +kernel
  exact ⟨hs, hh, hm, (symmetric_projections_agree s hs hh hm).1⟩

/-- Either condition dropped, the projections differ: `1e308` at a mirrored pair overflows on the
dense path only, and `5e-324` on the diagonal halves to `0.0` on the sparse path only. -/
theorem symmetric_projections_differ :
    let s : Sparse := ⟨2, 2, [⟨1, 0, 1e308⟩, ⟨0, 1, 1e308⟩]⟩
    let d : Sparse := ⟨1, 1, [⟨0, 0, 5e-324⟩]⟩
    s.WellFormed ∧ (Mat.sparse s).symmetrize?.map Mat.toDense ≠
        (Mat.dense (Mat.sparse s).toDense).symmetrize?.map Mat.toDense ∧
      d.WellFormed ∧ (Mat.sparse d).symmetrize?.map Mat.toDense ≠
        (Mat.dense (Mat.sparse d).toDense).symmetrize?.map Mat.toDense := by
  intro s d
  have hs : s.WellFormed := ⟨by decide, by unfold Distinct Triplet.Apart; decide⟩
  have hd : d.WellFormed := ⟨by decide, by unfold Distinct Triplet.Apart; decide⟩
  have hpair : ((Mat.sparse s).symmetrize?.map Mat.toDense).map (Dense.entry · 0 1) = some 1e308 ∧
      ((Mat.dense (Mat.sparse s).toDense).symmetrize?.map Mat.toDense).map (Dense.entry · 0 1) =
        some Float.inf := by
    decide +kernel
  have hdiag : ((Mat.sparse d).symmetrize?.map Mat.toDense).map (Dense.entry · 0 0) = some 0.0 ∧
      ((Mat.dense (Mat.sparse d).toDense).symmetrize?.map Mat.toDense).map (Dense.entry · 0 0) =
        some 5e-324 := by
    decide +kernel
  refine ⟨hs, fun h => ?_, hd, fun h => ?_⟩
  · have hcell := congrArg (Option.map (Dense.entry · 0 1)) h
    rw [hpair.1, hpair.2] at hcell
    exact absurd hcell (by decide +kernel)
  · have hcell := congrArg (Option.map (Dense.entry · 0 0)) h
    rw [hdiag.1, hdiag.2] at hcell
    exact absurd hcell (by decide +kernel)

end ConvexQp
