import Mathlib
import ConvexQp.Proofs.ProjectionAgreement
import ConvexQp.Proofs.Relaxation
/-! Symmetric parts of block-diagonal matrices: the cells across the blocks hold `0.0` in both, so
symmetrizing commutes with the block-diagonal, and a scaled identity whose factor halves exactly is
its own symmetric part. -/

namespace ConvexQp

namespace Float

/-- Half the sum of a product of `0.0` with itself is that product: a zero of either sign, or NaN. -/
theorem half_mul_add_self_zero_mul (x : Float) : 0.5 * (0.0 * x + 0.0 * x) = 0.0 * x := by
  cases hx : x.isFinite with
  | true =>
    rcases zero_mul_isZero (.inl rfl) hx with hz | hz <;> rw [hz] <;> decide
  | false =>
    rw [zero_mul_of_not_finite (.inl rfl) hx]
    decide +kernel

end Float

namespace Dense

variable {a b : Dense}

/-- The symmetric part of a block-diagonal matrix of square blocks is the block-diagonal matrix of
the symmetric parts of the blocks. -/
theorem symmetrize_blockDiag (ha : a.rows = a.cols) (hb : b.rows = b.cols) :
    (a.blockDiag b).symmetrize = a.symmetrize.blockDiag b.symmetrize := by
  refine ext_entry rfl rfl fun r (hr : r < a.rows + b.rows) c (hc : c < a.cols + b.cols) => ?_
  have hcell : ∀ i j, i < a.rows + b.rows → j < a.cols + b.cols → (a.blockDiag b).entry i j =
      if i < a.rows ∧ j < a.cols then a.entry i j
      else if a.rows ≤ i ∧ a.cols ≤ j then b.entry (i - a.rows) (j - a.cols) else 0.0 :=
    fun i j hi hj => entry_blockDiag hi hj
  rw [entry_symmetrize hr hc, entry_blockDiag (a := a.symmetrize) (b := b.symmetrize) hr hc,
    hcell r c hr hc, hcell (min r c) (max r c) (by omega) (by omega),
    hcell (max r c) (min r c) (by omega) (by omega), rows_symmetrize, cols_symmetrize]
  by_cases hin : r < a.rows ∧ c < a.cols
  · have hlow : min r c < a.rows ∧ max r c < a.cols := by omega
    have hhigh : max r c < a.rows ∧ min r c < a.cols := by omega
    simp only [if_pos hin, if_pos hlow, if_pos hhigh]
    rw [entry_symmetrize hin.1 hin.2]
  · by_cases hout : a.rows ≤ r ∧ a.cols ≤ c
    · have hr' : r - a.rows < b.rows := by omega
      have hc' : c - a.cols < b.cols := by omega
      have hlow : a.rows ≤ min r c ∧ a.cols ≤ max r c := by omega
      have hhigh : a.rows ≤ max r c ∧ a.cols ≤ min r c := by omega
      simp only [if_neg hin, if_pos hout, if_neg (show ¬(min r c < a.rows ∧ max r c < a.cols) by omega),
        if_pos hlow, if_neg (show ¬(max r c < a.rows ∧ min r c < a.cols) by omega), if_pos hhigh]
      rw [entry_symmetrize hr' hc']
      have hmin : min r c - a.rows = min (r - a.rows) (c - a.cols) := by omega
      have hmax : max r c - a.cols = max (r - a.rows) (c - a.cols) := by omega
      have hmin' : min r c - a.cols = min (r - a.rows) (c - a.cols) := by omega
      have hmax' : max r c - a.rows = max (r - a.rows) (c - a.cols) := by omega
      have hdiag : (r = c) ↔ (r - a.rows = c - a.cols) := by omega
      simp only [hmin, hmax, hmin', hmax', hdiag]
    · have hne : r ≠ c := by omega
      simp only [if_neg hin, if_neg hout, if_neg hne,
        if_neg (show ¬(min r c < a.rows ∧ max r c < a.cols) by omega),
        if_neg (show ¬(a.rows ≤ min r c ∧ a.cols ≤ max r c) by omega),
        if_neg (show ¬(max r c < a.rows ∧ min r c < a.cols) by omega),
        if_neg (show ¬(a.rows ≤ max r c ∧ a.cols ≤ min r c) by omega)]
      decide

/-- A dense scaled identity is its own symmetric part: off the diagonal, each pair holds the same
zero, or NaN, and half their sum is that value. -/
theorem symmetrize_scale_identity (n : Nat) (alpha : Float) :
    ((identity n).scale alpha).symmetrize = (identity n).scale alpha := by
  refine ext_entry rfl rfl fun r (hr : r < n) c (hc : c < n) => ?_
  have hoff : ∀ i j, i < n → j < n → i ≠ j → ((identity n).scale alpha).entry i j = 0.0 * alpha :=
    fun i j hi hj hij => by rw [entry_scale _ _ hi hj, entry_identity hi hj, if_neg hij]
  rw [entry_symmetrize hr hc]
  split
  · rfl
  · rename_i hrc
    rw [hoff _ _ (by omega) (by omega) (by omega), hoff _ _ (by omega) (by omega) (by omega),
      hoff r c hr hc hrc, Float.half_mul_add_self_zero_mul]

end Dense

namespace Sparse

variable {a b : Sparse}

/-- Two compressed matrices of one shape that store at the same positions the same values are
equal. -/
theorem ext_of_compressed (ha : a.Compressed) (hb : b.Compressed) (hr : a.rows = b.rows)
    (hc : a.cols = b.cols) (hs : ∀ r c, a.stores r c = b.stores r c)
    (he : ∀ r c, a.stores r c = true → a.entry r c = b.entry r c) : a = b := by
  have hentries : a.entries = b.entries := by
    refine eq_of_before_of_mem_iff ha.sorted hb.sorted fun t => ?_
    rw [mem_entries_iff ha.wellFormed, mem_entries_iff hb.wellFormed, hs]
    constructor
    · rintro ⟨hst, hv⟩
      exact ⟨hst, hv.trans (he _ _ (by rw [hs]; exact hst))⟩
    · rintro ⟨hst, hv⟩
      exact ⟨hst, hv.trans (he _ _ (by rw [hs]; exact hst)).symm⟩
  obtain ⟨ar, ac, ae⟩ := a
  obtain ⟨br, bc, be⟩ := b
  dsimp only at hr hc hentries
  rw [hr, hc, hentries]

/-- The block-diagonal matrix of `a` and `b` in sparse storage: the triplets of `b` moved past
those of `a`. -/
def blockJoin (a b : Sparse) : Sparse :=
  Mat.joinTriplets (a.rows + b.rows) (a.cols + b.cols) a (.sparse b) a.rows a.cols

theorem blockDiag_sparse (a b : Sparse) : (Mat.sparse a).blockDiag (.sparse b) = .sparse (a.blockJoin b) :=
  rfl

@[simp] theorem rows_blockJoin (a b : Sparse) : (a.blockJoin b).rows = a.rows + b.rows := rfl

@[simp] theorem cols_blockJoin (a b : Sparse) : (a.blockJoin b).cols = a.cols + b.cols := rfl

theorem wellFormed_blockJoin (ha : a.WellFormed) (hb : b.WellFormed) : (blockJoin a b).WellFormed :=
  Mat.wellFormed_joinTriplets ha (show Mat.WellFormed (.sparse b) from hb) (.inl le_rfl)
    (Nat.le_add_right _ _) (Nat.le_add_right _ _) (Nat.le_refl _) (Nat.le_refl _)

theorem compressed_blockJoin (ha : a.WellFormed) (hb : b.WellFormed) : (blockJoin a b).Compressed :=
  ⟨(wellFormed_blockJoin ha hb).inside, pairwise_ofTriplets _ _ _⟩

/-- What the block-diagonal matrix stores: what `a` stores in its block, what `b` stores in its
block, and nothing across the blocks. -/
theorem stores_blockJoin (ha : a.WellFormed) (hb : b.WellFormed) (r c : Nat) :
    (blockJoin a b).stores r c =
      if r < a.rows ∧ c < a.cols then a.stores r c
      else if a.rows ≤ r ∧ a.cols ≤ c then b.stores (r - a.rows) (c - a.cols) else false := by
  rw [blockJoin, Mat.joinTriplets_eq, stores_ofTriplets (Mat.distinct_join ha
    (show Mat.WellFormed (.sparse b) from hb) (.inl le_rfl)), storesAt, List.any_append, ← storesAt,
    ← storesAt, storesAt_map_shift]
  by_cases hin : r < a.rows ∧ c < a.cols
  · simp [hin, show ¬(a.rows ≤ r ∧ a.cols ≤ c) by omega, stores]
  · have hnot := stores_eq_false_of_outside ha (show a.rows ≤ r ∨ a.cols ≤ c by omega)
    rw [stores] at hnot
    simp [hin, hnot, stores, Mat.triplets]

theorem entry_blockJoin (ha : a.WellFormed) (hb : b.WellFormed) (r c : Nat) :
    (blockJoin a b).entry r c =
      if r < a.rows ∧ c < a.cols then a.entry r c
      else if a.rows ≤ r ∧ a.cols ≤ c then b.entry (r - a.rows) (c - a.cols) else 0.0 := by
  rw [blockJoin, Mat.entry_joinTriplets ha (show Mat.WellFormed (.sparse b) from hb) (.inl le_rfl)]
  by_cases hin : r < a.rows ∧ c < a.cols
  · cases hst : a.stores r c
    · simp [hin, show ¬(a.rows ≤ r ∧ a.cols ≤ c) by omega, entry_of_stores_eq_false hst]
    · simp [hin]
  · simp [hin, stores_eq_false_of_outside ha (show a.rows ≤ r ∨ a.cols ≤ c by omega)]
    rfl

/-- The symmetric part of a block-diagonal matrix of square blocks stores, at every position, what
the block-diagonal matrix of their symmetric parts stores. -/
theorem symmetrize_blockJoin (ha : a.WellFormed) (hb : b.WellFormed) (hsa : a.rows = a.cols)
    (hsb : b.rows = b.cols) : (blockJoin a b).symmetrize = blockJoin a.symmetrize b.symmetrize := by
  have hJ := wellFormed_blockJoin ha hb
  have ha' := (compressed_symmetrize ha hsa).wellFormed
  have hb' := (compressed_symmetrize hb hsb).wellFormed
  have hsq : (blockJoin a b).rows = (blockJoin a b).cols := by
    rw [rows_blockJoin, cols_blockJoin]
    omega
  refine ext_of_compressed (compressed_symmetrize hJ hsq) (compressed_blockJoin ha' hb') rfl rfl
    (fun r c => ?_) (fun r c _ => ?_)
  · rw [stores_symmetrize, stores_blockJoin ha hb, stores_blockJoin ha hb,
      stores_blockJoin ha' hb']
    simp only [rows_symmetrize, cols_symmetrize, stores_symmetrize, ← hsa]
    by_cases hin : r < a.rows ∧ c < a.rows
    · simp only [if_pos hin, if_pos (show c < a.rows ∧ r < a.rows by omega)]
    · by_cases hout : a.rows ≤ r ∧ a.rows ≤ c
      · simp only [if_neg hin, if_pos hout, if_neg (show ¬(c < a.rows ∧ r < a.rows) by omega),
          if_pos (show a.rows ≤ c ∧ a.rows ≤ r by omega)]
      · simp only [if_neg hin, if_neg hout, if_neg (show ¬(c < a.rows ∧ r < a.rows) by omega),
          if_neg (show ¬(a.rows ≤ c ∧ a.rows ≤ r) by omega), Bool.or_self]
  · rw [entry_symmetrize hJ, entry_blockJoin ha' hb', stores_blockJoin ha hb,
      stores_blockJoin ha hb, entry_blockJoin ha hb, entry_blockJoin ha hb]
    simp only [rows_symmetrize, cols_symmetrize, ← hsa]
    by_cases hin : r < a.rows ∧ c < a.rows
    · simp only [if_pos hin, if_pos (show c < a.rows ∧ r < a.rows by omega)]
      rw [entry_symmetrize ha]
    · by_cases hout : a.rows ≤ r ∧ a.rows ≤ c
      · simp only [if_neg hin, if_pos hout, if_neg (show ¬(c < a.rows ∧ r < a.rows) by omega),
          if_pos (show a.rows ≤ c ∧ a.rows ≤ r by omega)]
        rw [entry_symmetrize hb]
      · simp only [if_neg hin, if_neg hout, if_neg (show ¬(c < a.rows ∧ r < a.rows) by omega),
          if_neg (show ¬(a.rows ≤ c ∧ a.rows ≤ r) by omega), Bool.and_self, Bool.false_eq_true,
          if_false]

/-- A sparse scaled identity whose factor halves exactly is its own symmetric part: it stores the
diagonal only, where the two halves of the factor add back to it. -/
theorem symmetrize_scale_identity (n : Nat) {alpha : Float} (hh : Float.halvesExactly alpha = true) :
    ((identity n).scale alpha).symmetrize = (identity n).scale alpha := by
  have hS := wellFormed_scale alpha (wellFormed_identity n)
  have hstores : ∀ r c, ((identity n).scale alpha).stores r c = decide (r = c ∧ r < n) := fun r c => by
    rw [stores_scale (wellFormed_identity n), stores_identity]
  refine ext_of_compressed (compressed_symmetrize hS rfl)
    ⟨hS.inside, pairwise_ofTriplets _ _ _⟩ rfl rfl (fun r c => ?_) (fun r c hst => ?_)
  · rw [stores_symmetrize, hstores, hstores]
    by_cases hrc : r = c
    · subst hrc
      simp
    · simp [hrc, Ne.symm hrc]
  · rw [stores_symmetrize, hstores, hstores] at hst
    obtain rfl : r = c := by
      by_contra hrc
      simp [hrc, Ne.symm hrc] at hst
    have hr : r < n := by simpa using hst
    have hdiag : ((identity n).scale alpha).entry r r = alpha := by
      rw [entry_scale (wellFormed_identity n), stores_identity, entry_identity]
      simp [hr, Float.mul_one]
    rw [entry_symmetrize hS, hstores, Bool.and_self, decide_eq_true ⟨rfl, hr⟩, if_pos rfl, hdiag,
      Float.half_mul_add_self hh]

end Sparse

namespace Mat

/-- The symmetric part of a block-diagonal matrix of square well-formed blocks of one storage is the
block-diagonal matrix of their symmetric parts. -/
theorem symmetrize?_blockDiag {p b : Mat} (hp : p.WellFormed) (hb : b.WellFormed)
    (hs : b.storage = p.storage) (hpsq : p.rows = p.cols) (hbsq : b.rows = b.cols) :
    (p.blockDiag b).symmetrize? = p.symmetrize?.bind fun p' => b.symmetrize?.map p'.blockDiag := by
  cases p with
  | dense a =>
    cases b with
    | dense d =>
      have hsq : (a.blockDiag d).rows = (a.blockDiag d).cols := by
        simp only [Dense.rows_blockDiag, Dense.cols_blockDiag]
        simp only [rows_dense, cols_dense] at hpsq hbsq
        omega
      simp only [blockDiag, toDense, symmetrize?, Dense.symmetrize?, if_pos hsq,
        if_pos (show a.rows = a.cols from hpsq), if_pos (show d.rows = d.cols from hbsq),
        Option.map_some, Option.bind_some, Dense.symmetrize_blockDiag hpsq hbsq]
    | sparse d => cases hs
  | sparse a =>
    cases b with
    | dense d => cases hs
    | sparse d =>
      have hsq : (a.blockJoin d).rows = (a.blockJoin d).cols := by
        simp only [Sparse.rows_blockJoin, Sparse.cols_blockJoin]
        simp only [rows_sparse, cols_sparse] at hpsq hbsq
        omega
      rw [Sparse.blockDiag_sparse]
      simp only [symmetrize?, Sparse.symmetrize?, if_pos hsq,
        if_pos (show a.rows = a.cols from hpsq), if_pos (show d.rows = d.cols from hbsq),
        Option.map_some, Option.bind_some, Sparse.blockDiag_sparse,
        Sparse.symmetrize_blockJoin hp hb hpsq hbsq]

/-- A scaled identity is its own symmetric part: always when dense, and when sparse once its factor
halves exactly. -/
theorem symmetrize?_scale_identity (n : Nat) {k : Storage} {alpha : Float}
    (hk : k = .dense ∨ Float.halvesExactly alpha = true) :
    ((identity n k).scale alpha).symmetrize? = some ((identity n k).scale alpha) := by
  cases k with
  | dense =>
    simp [identity, scale, symmetrize?, Dense.symmetrize?, Dense.symmetrize_scale_identity]
  | sparse =>
    have hh : Float.halvesExactly alpha = true := by simpa using hk
    simp [identity, scale, symmetrize?, Sparse.symmetrize?, Sparse.symmetrize_scale_identity n hh]

/-- Beside a square well-formed matrix, a scaled identity of its storage leaves the symmetric part
block-diagonal: the symmetric part of the matrix, then the scaled identity, when the matrix is dense
or the factor halves exactly. -/
theorem symmetrize?_blockDiag_scale_identity {p : Mat} (hp : p.WellFormed) (hpsq : p.rows = p.cols)
    (n : Nat) {alpha : Float} (hk : p.storage = .dense ∨ Float.halvesExactly alpha = true) :
    (p.blockDiag ((identity n p.storage).scale alpha)).symmetrize? =
      p.symmetrize?.map fun p' => p'.blockDiag ((identity n p.storage).scale alpha) := by
  rw [symmetrize?_blockDiag hp ((wellFormed_identity n _).scale alpha) (by simp) hpsq (by simp),
    symmetrize?_scale_identity n hk]
  cases p.symmetrize? <;> rfl

end Mat

namespace SaferProblem

variable {s : SaferProblem}

/-- A relaxed problem whose `P` is `n × n`, whose `G` is `m × n` in the storage of `P`, and whose
starting point, if any, has length `n` or `n + m`, has no defect. -/
theorem firstDefect_eq_none_of_sizes (hsize : s.quad.rows = s.dim ∧ s.quad.cols = s.dim)
    (hfit : (s.constraints.rows, s.constraints.cols) = (s.ineqRhs.size, s.dim))
    (hstart : ∀ x0, s.start = some x0 → x0.size = s.dim ∨ x0.size = s.dim + s.ineqRhs.size) :
    s.firstDefect = none := by
  simp only [firstDefect, Option.orElse_eq_orElse, Option.orElse_eq_or, Option.or_eq_none_iff]
  refine ⟨sizeDefect_eq_none_iff.2 hfit.symm, sizeDefect_eq_none_iff.2 (by rw [hsize.1, hsize.2]), ?_⟩
  cases hx : s.start with
  | none => rfl
  | some x0 =>
    by_cases hn : x0.size = s.dim
    · simp [hn]
    · have hnm : x0.size = s.dim + s.ineqRhs.size := (hstart x0 hx).resolve_left hn
      simp [sizeDefect_eq_none_iff, hnm]

/-- A relaxed problem without defect whose `G` fits is augmented into a problem without defect,
whose `P` is the relaxed `P` beside the scaled identity. -/
theorem augmented_valid (hfit : (s.constraints.rows, s.constraints.cols) = (s.ineqRhs.size, s.dim))
    (hd : s.firstDefect = none) :
    ∃ aug, s.augmented = some (.ok aug) ∧ aug.Valid ∧
      aug.quad = s.quad.blockDiag ((Mat.identity s.ineqRhs.size s.quad.storage).scale s.reg) := by
  obtain ⟨hrows, hcols⟩ := Prod.mk.inj hfit
  obtain ⟨aug, haug, hdef⟩ := augmented_of_fit (sizeDefect_eq_none_iff.2 hfit.symm)
  refine ⟨aug, haug, (Problem.firstDefect_eq_none_iff aug).1 (hdef.trans hd), ?_⟩
  rw [augmented_eq_ok hrows hcols] at haug
  cases haug
  rfl

end SaferProblem

/-- Symmetrizing commutes with the block-diagonal of square blocks of one storage; so normalizing an
augmented problem with `P` symmetrized gives the `P` of augmenting the symmetrized `P`, for a dense
`P` or a `reg` that halves exactly. -/
theorem symmetrize_commutes_with_blockDiag (p b : Mat) (hp : p.WellFormed) (hb : b.WellFormed)
    (hs : b.storage = p.storage) (hpsq : p.rows = p.cols) (hbsq : b.rows = b.cols)
    (s : SaferProblem) (hP : s.quad.WellFormed) (hsize : s.quad.rows = s.dim ∧ s.quad.cols = s.dim)
    (hfit : (s.constraints.rows, s.constraints.cols) = (s.ineqRhs.size, s.dim))
    (hstart : ∀ x0, s.start = some x0 → x0.size = s.dim ∨ x0.size = s.dim + s.ineqRhs.size)
    (hreg : s.quad.storage = .dense ∨ Float.halvesExactly s.reg = true) :
    (p.blockDiag b).symmetrize? = p.symmetrize?.bind (fun p' => b.symmetrize?.map p'.blockDiag) ∧
    ∃ q' aug aug' d d', s.quad.symmetrize? = some q' ∧ s.augmented = some (.ok aug) ∧
      { s with quad := q' }.augmented = some (.ok aug') ∧ aug.normalize true = some (.ok d) ∧
      aug'.normalize false = some (.ok d') ∧ d.quad = d'.quad := by
  refine ⟨Mat.symmetrize?_blockDiag hp hb hs hpsq hbsq, ?_⟩
  obtain ⟨q', hq'⟩ := Option.isSome_iff_exists.1
    ((Mat.symmetrize?_isSome_iff s.quad).2 (hsize.1.trans hsize.2.symm))
  obtain ⟨hqr, hqc, hqs⟩ := Mat.symmetrize?_shape hq'
  have hfit' : ({ s with quad := q' }.constraints.rows, { s with quad := q' }.constraints.cols) =
      (s.ineqRhs.size, s.dim) := by
    simpa only [SaferProblem.constraints, hqs] using hfit
  obtain ⟨aug, haug, hvalid, hquad⟩ :=
    SaferProblem.augmented_valid hfit (SaferProblem.firstDefect_eq_none_of_sizes hsize hfit hstart)
  obtain ⟨aug', haug', hvalid', hquad'⟩ := SaferProblem.augmented_valid hfit'
    (SaferProblem.firstDefect_eq_none_of_sizes (s := { s with quad := q' }) ⟨hqr.trans hsize.1, hqc.trans hsize.2⟩
      hfit' hstart)
  obtain ⟨ineq, hnorm, -⟩ := Problem.normalize_of_valid hvalid true
  obtain ⟨ineq', hnorm', -⟩ := Problem.normalize_of_valid hvalid' false
  refine ⟨q', aug, aug', _, _, hq', haug, haug', hnorm, hnorm', ?_⟩
  show aug.quadFor true = aug'.quadFor false
  rw [Problem.quadFor, Problem.quadFor, if_pos rfl, if_neg Bool.false_ne_true, hquad, hquad',
    Mat.symmetrize?_blockDiag_scale_identity hP (hsize.1.trans hsize.2.symm) _ hreg, hq']
  simp only [Option.map_some, Option.getD_some, hqs]

/-- A sparse `2 × 2` matrix storing `2.0` on the diagonal and `1.0` and `3.0` at the mirrored pair,
beside itself; relaxed with one row of `G` and the default `reg`. -/
theorem symmetrize_commutes_with_blockDiag_at_two :
    let p : Sparse := ⟨2, 2, [⟨0, 0, 2.0⟩, ⟨1, 0, 1.0⟩, ⟨0, 1, 3.0⟩]⟩
    let s : SaferProblem :=
      { quad := .sparse p, lin := #[1.0, 1.0], ineqLhs := .row #[1.0, 1.0], ineqRhs := #[1.0],
        weight := 1.0 }
    p.WellFormed ∧ Float.halvesExactly s.reg = true ∧
      ((Mat.sparse p).blockDiag (.sparse p)).symmetrize? =
        (Mat.sparse p).symmetrize?.bind (fun p' => (Mat.sparse p).symmetrize?.map p'.blockDiag) ∧
      ∃ q' aug aug' d d', s.quad.symmetrize? = some q' ∧ s.augmented = some (.ok aug) ∧
        { s with quad := q' }.augmented = some (.ok aug') ∧ aug.normalize true = some (.ok d) ∧
        aug'.normalize false = some (.ok d') ∧ d.quad = d'.quad := by
  intro p s
  have hp : p.WellFormed := ⟨by decide, by unfold Distinct Triplet.Apart; decide⟩
  have hh : Float.halvesExactly s.reg = true := by decide +kernel
  exact ⟨hp, hh, symmetrize_commutes_with_blockDiag (.sparse p) (.sparse p) hp hp rfl rfl rfl s hp
    ⟨rfl, rfl⟩ (by decide) (fun _ h => by cases h) (Or.inr hh)⟩

end ConvexQp
