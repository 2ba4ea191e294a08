import Mathlib
import ConvexQp.Proofs.Entries
/-! Sparse operations against dense ones: transpose, stacking, side by side and block-diagonal agree
up to the sign of a zero; scaling agrees exactly for a finite factor or a full sparse matrix. -/

namespace ConvexQp

namespace Float

/-- Two floats that are equal, or both zeros, of any signs. -/
def EqUpToZeroSign (a b : Float) : Prop := a = b ∨ (IsZero a ∧ IsZero b)

theorem EqUpToZeroSign.refl (a : Float) : EqUpToZeroSign a a := .inl rfl

theorem EqUpToZeroSign.trans {a b c : Float} (hab : EqUpToZeroSign a b) (hbc : EqUpToZeroSign b c) :
    EqUpToZeroSign a c := by
  rcases hab with rfl | ⟨ha, hb⟩
  · exact hbc
  · rcases hbc with rfl | ⟨-, hc⟩
    · exact .inr ⟨ha, hb⟩
    · exact .inr ⟨ha, hc⟩

theorem posZero_add_isZero {z : Float} (hz : IsZero z) : 0.0 + z = 0.0 := by
  rcases hz with rfl | rfl <;> decide

/-- Adding to `0.0` changes at most the sign of a zero. -/
theorem eqUpToZeroSign_posZero_add (w : Float) : EqUpToZeroSign (0.0 + w) w := by
  by_cases hw : w = -0.0
  · exact .inr ⟨.inl (posZero_add_isZero (.inr hw)), .inr hw⟩
  · exact .inl (posZero_add hw)

/-- A factor times `v` and times `0.0 + v`: these differ only for `v = -0.0`, and then both products
are zeros or both `NaN`. -/
theorem eqUpToZeroSign_mul_posZero_add (v alpha : Float) :
    EqUpToZeroSign (v * alpha) ((0.0 + v) * alpha) := by
  by_cases hv : v = -0.0
  · rw [hv, posZero_add_isZero (.inr rfl)]
    cases hfin : alpha.isFinite with
    | true => exact .inr ⟨zero_mul_isZero (.inr rfl) hfin, zero_mul_isZero (.inl rfl) hfin⟩
    | false =>
      rw [zero_mul_of_not_finite (.inr rfl) hfin, zero_mul_of_not_finite (.inl rfl) hfin]
      exact .refl _
  · rw [posZero_add hv]
    exact .refl _

/-- `0.0` times `alpha` is a zero exactly when `alpha` is finite; otherwise it is `NaN`. -/
theorem eqUpToZeroSign_zero_mul_iff (alpha : Float) :
    EqUpToZeroSign 0.0 (0.0 * alpha) ↔ alpha.isFinite = true := by
  constructor
  · intro h
    cases hfin : alpha.isFinite with
    | true => rfl
    | false =>
      rw [zero_mul_of_not_finite (.inl rfl) hfin] at h
      have hnan : ¬IsZero Binary64.quietNan := by
        rintro (h | h) <;> exact absurd h (by decide)
      rcases h with h | ⟨-, h⟩
      · exact absurd h (by decide)
      · exact absurd h hnan
  · intro hfin
    exact .inr ⟨.inl rfl, zero_mul_isZero (.inl rfl) hfin⟩

end Float

namespace Dense

/-- Two dense matrices of one shape whose entries are equal up to the sign of a zero. -/
structure EqUpToZeroSign (a b : Dense) : Prop where
  rows : a.rows = b.rows
  cols : a.cols = b.cols
  entry : ∀ r < a.rows, ∀ c < a.cols, Float.EqUpToZeroSign (a.entry r c) (b.entry r c)

end Dense

namespace Sparse

theorem wellFormed_transpose {a : Sparse} (ha : a.WellFormed) : a.transpose.WellFormed :=
  wellFormed_ofTriplets (distinct_map_swap ha.distinct) fun t ht => by
    obtain ⟨u, hu, rfl⟩ := List.mem_map.1 ht
    exact ⟨(ha.inside u hu).2, (ha.inside u hu).1⟩

theorem ite_stores_entry (a : Sparse) (r c : Nat) :
    (if a.stores r c then a.entry r c else 0.0) = a.entry r c := by
  cases h : a.stores r c with
  | true => rfl
  | false => rw [if_neg (by simp), entry_of_stores_eq_false h]

end Sparse

namespace Mat

/-- The triplets of a block, read as a sparse matrix and copied to dense, against its own dense copy:
equal for a sparse block, and for a dense one up to the sign of a zero, which its triplets leave
out. -/
theorem eqUpToZeroSign_valueAt_triplets {o : Mat} (ho : o.WellFormed) {i j : Nat} (hi : i < o.rows)
    (hj : j < o.cols) : Float.EqUpToZeroSign (0.0 + valueAt o.triplets i j) (o.toDense.entry i j) := by
  cases o with
  | sparse b =>
    rw [show (Mat.sparse b).toDense = b.toDense from rfl, Sparse.entry_toDense ho hi hj]
    exact .refl _
  | dense b =>
    show Float.EqUpToZeroSign (0.0 + valueAt b.nonzeros i j) (b.entry i j)
    rw [Dense.valueAt_nonzeros b hi hj]
    split
    · rename_i hzero
      exact .inr ⟨.inl (Float.posZero_add_isZero (.inl rfl)), Float.beq_zero_iff.1 hzero⟩
    · rename_i hnonzero
      have hne : b.entry i j ≠ -0.0 := by
        rintro hneg
        rw [hneg] at hnonzero
        exact hnonzero (by decide)
      exact .inl (Float.posZero_add hne)

section Join

variable {a : Sparse} {o : Mat} {rows cols dr dc : Nat}

/-- A well-formed `a` and a well-formed block moved past it, inside a shape that holds both, join
into a well-formed sparse matrix. -/
theorem wellFormed_joinTriplets (ha : a.WellFormed) (ho : o.WellFormed)
    (hsep : a.rows ≤ dr ∨ a.cols ≤ dc) (hra : a.rows ≤ rows) (hca : a.cols ≤ cols)
    (hro : dr + o.rows ≤ rows) (hco : dc + o.cols ≤ cols) :
    (joinTriplets rows cols a o dr dc).WellFormed := by
  refine Sparse.wellFormed_ofTriplets (distinct_join ha ho hsep) fun t ht => ?_
  rcases List.mem_append.1 ht with ht | ht
  · have := ha.inside t ht
    omega
  · obtain ⟨u, hu, rfl⟩ := List.mem_map.1 ht
    have := ho.inside u hu
    simp only [Triplet.shift]
    omega

theorem entry_toDense_join_left (ha : a.WellFormed) (ho : o.WellFormed)
    (hJ : (joinTriplets rows cols a o dr dc).WellFormed) (hsep : a.rows ≤ dr ∨ a.cols ≤ dc)
    {r c : Nat} (hr : r < a.rows) (hc : c < a.cols) (hrows : r < rows) (hcols : c < cols) :
    (joinTriplets rows cols a o dr dc).toDense.entry r c = a.toDense.entry r c := by
  have hout : ¬(dr ≤ r ∧ dc ≤ c) := by omega
  rw [Sparse.entry_toDense hJ hrows hcols, entry_joinTriplets ha ho hsep, if_neg hout,
    Sparse.ite_stores_entry, Sparse.entry_toDense ha hr hc]

theorem entry_toDense_join_block (ha : a.WellFormed) (ho : o.WellFormed)
    (hJ : (joinTriplets rows cols a o dr dc).WellFormed) (hsep : a.rows ≤ dr ∨ a.cols ≤ dc)
    {r c : Nat} (hout : ¬(r < a.rows ∧ c < a.cols)) (hdr : dr ≤ r) (hdc : dc ≤ c)
    (hr : r - dr < o.rows) (hc : c - dc < o.cols) (hrows : r < rows) (hcols : c < cols) :
    Float.EqUpToZeroSign ((joinTriplets rows cols a o dr dc).toDense.entry r c)
      (o.toDense.entry (r - dr) (c - dc)) := by
  have hst := Sparse.stores_eq_false_of_outside ha (show a.rows ≤ r ∨ a.cols ≤ c by omega)
  rw [Sparse.entry_toDense hJ hrows hcols, entry_joinTriplets ha ho hsep, hst, if_neg (by simp),
    if_pos ⟨hdr, hdc⟩]
  exact eqUpToZeroSign_valueAt_triplets ho hr hc

theorem entry_toDense_join_outside (ha : a.WellFormed) (ho : o.WellFormed)
    (hJ : (joinTriplets rows cols a o dr dc).WellFormed) (hsep : a.rows ≤ dr ∨ a.cols ≤ dc)
    {r c : Nat} (hout : ¬(r < a.rows ∧ c < a.cols)) (hblock : ¬(dr ≤ r ∧ dc ≤ c))
    (hrows : r < rows) (hcols : c < cols) :
    (joinTriplets rows cols a o dr dc).toDense.entry r c = 0.0 := by
  have hst := Sparse.stores_eq_false_of_outside ha (show a.rows ≤ r ∨ a.cols ≤ c by omega)
  rw [Sparse.entry_toDense hJ hrows hcols, entry_joinTriplets ha ho hsep, hst, if_neg (by simp),
    if_neg hblock]
  decide

/-- Every cell of the dense copy of a join, up to the sign of a zero: the dense copy of `a` inside
`a`, that of the block inside the moved block, and `0.0` elsewhere. -/
theorem eqUpToZeroSign_toDense_join (ha : a.WellFormed) (ho : o.WellFormed)
    (hJ : (joinTriplets rows cols a o dr dc).WellFormed) (hsep : a.rows ≤ dr ∨ a.cols ≤ dc)
    {r c : Nat} (hrows : r < rows) (hcols : c < cols)
    (hfit : ¬(r < a.rows ∧ c < a.cols) → dr ≤ r ∧ dc ≤ c → r - dr < o.rows ∧ c - dc < o.cols) :
    Float.EqUpToZeroSign ((joinTriplets rows cols a o dr dc).toDense.entry r c)
      (if r < a.rows ∧ c < a.cols then a.toDense.entry r c
        else if dr ≤ r ∧ dc ≤ c then o.toDense.entry (r - dr) (c - dc) else 0.0) := by
  by_cases hin : r < a.rows ∧ c < a.cols
  · rw [if_pos hin, entry_toDense_join_left ha ho hJ hsep hin.1 hin.2 hrows hcols]
    exact .refl _
  · rw [if_neg hin]
    by_cases hblock : dr ≤ r ∧ dc ≤ c
    · obtain ⟨hr, hc⟩ := hfit hin hblock
      rw [if_pos hblock]
      exact entry_toDense_join_block ha ho hJ hsep hin hblock.1 hblock.2 hr hc hrows hcols
    · rw [if_neg hblock, entry_toDense_join_outside ha ho hJ hsep hin hblock hrows hcols]
      exact .refl _

end Join

variable {a : Sparse}

/-- The transpose: exactly the dense copy's transpose. -/
theorem eqUpToZeroSign_transpose (ha : a.WellFormed) :
    ((Mat.sparse a).transpose.toDense).EqUpToZeroSign ((Mat.dense a.toDense).transpose.toDense) := by
  refine ⟨by simp [transpose, toDense, Sparse.transpose, Dense.transpose],
    by simp [transpose, toDense, Sparse.transpose, Dense.transpose], fun r hr c hc => ?_⟩
  replace hr : r < a.cols := by simpa [transpose, toDense, Sparse.transpose] using hr
  replace hc : c < a.rows := by simpa [transpose, toDense, Sparse.transpose] using hc
  change Float.EqUpToZeroSign (a.transpose.toDense.entry r c) (a.toDense.transpose.entry r c)
  rw [Sparse.entry_toDense (Sparse.wellFormed_transpose ha) hr hc, Sparse.entry_transpose ha,
    Dense.entry_transpose _ (by simpa using hr) (by simpa using hc), Sparse.entry_toDense ha hc hr]
  exact .refl _

/-- A block of the same width stacked below. -/
theorem eqUpToZeroSign_vcat (ha : a.WellFormed) {o : Mat} (ho : o.WellFormed) (hcols : o.cols = a.cols) :
    ((Mat.sparse a).vcat o).toDense.EqUpToZeroSign ((Mat.dense a.toDense).vcat o).toDense := by
  have hJ : (joinTriplets (a.rows + o.rows) a.cols a o a.rows 0).WellFormed :=
    wellFormed_joinTriplets ha ho (.inl le_rfl) (by omega) le_rfl le_rfl (by omega)
  refine ⟨by simp, by simp, fun r hr c hc => ?_⟩
  replace hr : r < a.rows + o.rows := by simpa using hr
  replace hc : c < a.cols := by simpa using hc
  change Float.EqUpToZeroSign ((joinTriplets _ _ a o a.rows 0).toDense.entry r c)
    ((a.toDense.vcat o.toDense).entry r c)
  rw [Dense.entry_vcat (by simpa using hr) (by simpa using hc), Sparse.rows_toDense]
  have hcell := eqUpToZeroSign_toDense_join ha ho hJ (.inl le_rfl) hr hc fun _ _ => by omega
  by_cases htop : r < a.rows
  · simpa [htop, hc] using hcell
  · simpa [htop, Nat.le_of_not_lt htop] using hcell

/-- A block of the same height placed beside. -/
theorem eqUpToZeroSign_hcat (ha : a.WellFormed) {o : Mat} (ho : o.WellFormed) (hrows : o.rows = a.rows) :
    ((Mat.sparse a).hcat o).toDense.EqUpToZeroSign ((Mat.dense a.toDense).hcat o).toDense := by
  have hJ : (joinTriplets a.rows (a.cols + o.cols) a o 0 a.cols).WellFormed :=
    wellFormed_joinTriplets ha ho (.inr le_rfl) le_rfl (by omega) (by omega) le_rfl
  refine ⟨by simp, by simp, fun r hr c hc => ?_⟩
  replace hr : r < a.rows := by simpa using hr
  replace hc : c < a.cols + o.cols := by simpa using hc
  rw [Mat.dense_hcat (by simpa using hrows.symm), Mat.toDense]
  change Float.EqUpToZeroSign ((joinTriplets _ _ a o 0 a.cols).toDense.entry r c) _
  rw [Dense.entry_hcat _ (by simpa using hr), Sparse.cols_toDense]
  have hcell := eqUpToZeroSign_toDense_join ha ho hJ (.inr le_rfl) hr hc fun _ _ => by omega
  by_cases hleft : c < a.cols
  · simpa [hleft, hr] using hcell
  · simpa [hleft, Nat.le_of_not_lt hleft] using hcell

/-- The block-diagonal matrix with a block below right. -/
theorem eqUpToZeroSign_blockDiag (ha : a.WellFormed) {o : Mat} (ho : o.WellFormed) :
    ((Mat.sparse a).blockDiag o).toDense.EqUpToZeroSign ((Mat.dense a.toDense).blockDiag o).toDense := by
  have hJ : (joinTriplets (a.rows + o.rows) (a.cols + o.cols) a o a.rows a.cols).WellFormed :=
    wellFormed_joinTriplets ha ho (.inl le_rfl) (by omega) (by omega) le_rfl le_rfl
  refine ⟨by simp, by simp, fun r hr c hc => ?_⟩
  replace hr : r < a.rows + o.rows := by simpa using hr
  replace hc : c < a.cols + o.cols := by simpa using hc
  change Float.EqUpToZeroSign ((joinTriplets _ _ a o a.rows a.cols).toDense.entry r c)
    ((a.toDense.blockDiag o.toDense).entry r c)
  rw [Dense.entry_blockDiag (by simpa using hr) (by simpa using hc), Sparse.rows_toDense,
    Sparse.cols_toDense]
  exact eqUpToZeroSign_toDense_join ha ho hJ (.inl le_rfl) hr hc fun _ _ => by omega

/-- One cell of a scaled matrix: a stored cell agrees whatever the factor; a cell not stored holds
`0.0` on the sparse path and `0.0 * alpha` on the dense one, so it agrees just for a finite
factor. -/
theorem eqUpToZeroSign_scale_cell_iff (ha : a.WellFormed) (alpha : Float) {r c : Nat} (hr : r < a.rows)
    (hc : c < a.cols) :
    Float.EqUpToZeroSign ((a.scale alpha).toDense.entry r c) ((a.toDense.scale alpha).entry r c) ↔
      a.stores r c = true ∨ alpha.isFinite = true := by
  rw [Sparse.entry_toDense (Sparse.wellFormed_scale alpha ha) hr hc, Sparse.entry_scale ha,
    Dense.entry_scale _ _ (by simpa using hr) (by simpa using hc), Sparse.entry_toDense ha hr hc]
  cases hs : a.stores r c with
  | true =>
    simp only [if_true, true_or, iff_true]
    rw [Float.mul_comm alpha]
    exact (Float.eqUpToZeroSign_posZero_add _).trans (Float.eqUpToZeroSign_mul_posZero_add _ _)
  | false =>
    rw [if_neg (by simp), Sparse.entry_of_stores_eq_false hs, Float.posZero_add_isZero (.inl rfl)]
    simpa using Float.eqUpToZeroSign_zero_mul_iff alpha

/-- Scaling: the two agree exactly when the factor is finite or the sparse matrix stores every
cell. -/
theorem eqUpToZeroSign_scale_iff (ha : a.WellFormed) (alpha : Float) :
    ((Mat.sparse a).scale alpha).toDense.EqUpToZeroSign ((Mat.dense a.toDense).scale alpha).toDense ↔
      alpha.isFinite = true ∨ ∀ r < a.rows, ∀ c < a.cols, a.stores r c = true := by
  have hcell := fun r c (hr : r < a.rows) (hc : c < a.cols) =>
    eqUpToZeroSign_scale_cell_iff ha alpha hr hc
  constructor
  · intro h
    by_cases hfin : alpha.isFinite = true
    · exact .inl hfin
    · refine .inr fun r hr c hc => ?_
      have := (hcell r c hr hc).1 (h.entry r (by simpa using hr) c (by simpa using hc))
      simpa [hfin] using this
  · intro h
    refine ⟨by simp, by simp, fun r hr c hc => ?_⟩
    replace hr : r < a.rows := by simpa using hr
    replace hc : c < a.cols := by simpa using hc
    refine (hcell r c hr hc).2 ?_
    rcases h with hfin | hall
    · exact .inr hfin
    · exact .inl (hall r hr c hc)

end Mat

/-- The operations of a well-formed sparse matrix against those of its dense copy: transpose, stack,
side by side and block-diagonal agree up to the sign of a zero, and scaling does exactly when the
factor is finite or every cell is stored. -/
theorem sparse_ops_refine_dense (a : Sparse) (ha : a.WellFormed) (o : Mat) (ho : o.WellFormed)
    (alpha : Float) :
    (Mat.sparse a).transpose.toDense.EqUpToZeroSign (Mat.dense a.toDense).transpose.toDense ∧
    (o.cols = a.cols →
      ((Mat.sparse a).vcat o).toDense.EqUpToZeroSign ((Mat.dense a.toDense).vcat o).toDense) ∧
    (o.rows = a.rows →
      ((Mat.sparse a).hcat o).toDense.EqUpToZeroSign ((Mat.dense a.toDense).hcat o).toDense) ∧
    ((Mat.sparse a).blockDiag o).toDense.EqUpToZeroSign ((Mat.dense a.toDense).blockDiag o).toDense ∧
    (((Mat.sparse a).scale alpha).toDense.EqUpToZeroSign ((Mat.dense a.toDense).scale alpha).toDense ↔
      alpha.isFinite = true ∨ ∀ r < a.rows, ∀ c < a.cols, a.stores r c = true) :=
  ⟨Mat.eqUpToZeroSign_transpose ha, Mat.eqUpToZeroSign_vcat ha ho, Mat.eqUpToZeroSign_hcat ha ho,
    Mat.eqUpToZeroSign_blockDiag ha ho, Mat.eqUpToZeroSign_scale_iff ha alpha⟩

/-- A `2 × 2` sparse matrix storing `2.0` and `-0.0` in its first column and `3.0` below right, and
the dense row `(-0.0, 1.0)`: the row stacks below it on both paths alike, and so does a scaling by
`2.0`; a scaling by `∞` does not, the cell above right not being stored. -/
theorem sparse_ops_refine_dense_at_two :
    let a : Sparse := ⟨2, 2, [⟨0, 0, 2.0⟩, ⟨1, 0, -0.0⟩, ⟨1, 1, 3.0⟩]⟩
    let o : Mat := .dense (Dense.ofRow #[-0.0, 1.0])
    a.WellFormed ∧ o.WellFormed ∧
    ((Mat.sparse a).vcat o).toDense.EqUpToZeroSign ((Mat.dense a.toDense).vcat o).toDense ∧
    ((Mat.sparse a).scale 2.0).toDense.EqUpToZeroSign ((Mat.dense a.toDense).scale 2.0).toDense ∧
    ¬((Mat.sparse a).scale Float.inf).toDense.EqUpToZeroSign
      ((Mat.dense a.toDense).scale Float.inf).toDense := by
  intro a o
  have ha : a.WellFormed := ⟨by decide, by unfold Distinct Triplet.Apart; decide⟩
  have ho : o.WellFormed := trivial
  have htwo := sparse_ops_refine_dense a ha o ho 2.0
  have hinf := sparse_ops_refine_dense a ha o ho Float.inf
  refine ⟨ha, ho, htwo.2.1 (by decide), htwo.2.2.2.2.2 (.inl (by decide)), fun h => ?_⟩
  rcases hinf.2.2.2.2.1 h with hfin | hall
  · exact absurd hfin (by decide)
  · exact absurd (hall 0 (by decide) 1 (by decide)) (by decide)

end ConvexQp
