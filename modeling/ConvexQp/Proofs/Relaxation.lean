import Mathlib
import ConvexQp.Proofs.Entries
import ConvexQp.Proofs.RelaxedSolve
/-! The augmented problem of a relaxed problem, cell by cell, and the extraction of the answer; the
only failure is a `G` that is not `m × n`. -/

namespace ConvexQp

namespace Lhs

/-- A block of constraints given as a matrix stores its triplets at pairwise different positions
inside it; a single row always does. -/
def WellFormed : Lhs → Prop
  | .matrix m => m.WellFormed
  | .row _ => True

theorem WellFormed.toMat {l : Lhs} (hl : l.WellFormed) (k : Storage) : (l.toMat k).WellFormed := by
  cases l with
  | matrix m => exact hl
  | row xs => exact Mat.wellFormed_toStorage_dense _ k

end Lhs

namespace Mat

theorem wellFormed_zeros (rows cols : Nat) (k : Storage) : (zeros rows cols k).WellFormed := by
  cases k with
  | dense => trivial
  | sparse => exact ⟨fun _ h => (nomatch h), List.Pairwise.nil⟩

/-- What a scaled identity holds off its diagonal: `0.0 * alpha` when dense, which is `NaN` for an
`alpha` that is not finite, and no entry, so `0.0`, when sparse. -/
def offDiagonal (k : Storage) (alpha : Float) : Float :=
  if k = .dense then 0.0 * alpha else 0.0

theorem entry_scale_identity {n i j : Nat} (k : Storage) (alpha : Float) (hi : i < n) (hj : j < n) :
    ((identity n k).scale alpha).entry i j = if i = j then alpha else offDiagonal k alpha := by
  by_cases hij : i = j
  · subst hij
    rw [if_pos rfl, entry_scale_identity_self k alpha hi]
  · rw [if_neg hij, entry_scale_identity_of_ne k alpha hi hj hij]
    rfl

theorem entry_blockDiag_scale_identity {m : Mat} (hm : m.WellFormed) (k : Nat) (alpha : Float)
    {r c : Nat} (hr : r < m.rows + k) (hc : c < m.cols + k) :
    (m.blockDiag ((identity k m.storage).scale alpha)).entry r c =
      if r < m.rows ∧ c < m.cols then m.entry r c
      else if m.rows ≤ r ∧ m.cols ≤ c then
        (if r - m.rows = c - m.cols then alpha else offDiagonal m.storage alpha)
      else 0.0 := by
  rw [entry_blockDiag hm ((wellFormed_identity k _).scale alpha) (by simp) (by simpa using hr)
    (by simpa using hc)]
  by_cases hbelow : m.rows ≤ r ∧ m.cols ≤ c
  · have hin : ¬(r < m.rows ∧ c < m.cols) := by omega
    rw [if_neg hin, if_neg hin, if_pos hbelow, if_pos hbelow,
      entry_scale_identity _ _ (by omega) (by omega)]
  · simp only [hbelow, if_false]

theorem entry_zeros_hcat_scale_identity (m n : Nat) (k : Storage) (alpha : Float) {r c : Nat}
    (hr : r < m) (hc : c < n + m) :
    ((zeros m n k).hcat ((identity m k).scale alpha)).entry r c =
      if c < n then 0.0 else if r = c - n then alpha else offDiagonal k alpha := by
  rw [entry_hcat (wellFormed_zeros m n k) ((wellFormed_identity m k).scale alpha) (by simp)
    (by simp) (by simpa using hr) (by simpa using hc)]
  simp only [cols_zeros]
  by_cases hleft : c < n
  · rw [if_pos hleft, if_pos hleft, entry_zeros k hr hleft]
  · rw [if_neg hleft, if_neg hleft, entry_scale_identity k alpha hr (by omega)]

theorem entry_hcat_identity {g : Mat} (hg : g.WellFormed) {m : Nat} (hrows : g.rows = m)
    {r c : Nat} (hr : r < m) (hc : c < g.cols + m) :
    (g.hcat (identity m g.storage)).entry r c =
      if c < g.cols then g.entry r c else if r = c - g.cols then 1.0 else 0.0 := by
  rw [entry_hcat hg (wellFormed_identity _ _) (by simp) (by simp [hrows]) (by omega)
    (by simpa using hc)]
  by_cases hleft : c < g.cols
  · rw [if_pos hleft, if_pos hleft]
  · rw [if_neg hleft, if_neg hleft, entry_identity _ hr (by omega)]

end Mat

/-- The slack of each row, `hᵢ - yᵢ`, after a vector `x`. -/
theorem getD_append_zipWith_sub (x : Array Float) {h y : Array Float} (hy : y.size = h.size) {i : Nat}
    (hi : i < h.size) :
    (x ++ (List.zipWith (· - ·) h.toList y.toList).toArray).getD (x.size + i) 0.0 =
      h.getD i 0.0 - y.getD i 0.0 := by
  simp [Array.getD_eq_getD_getElem?, hi, hy]

namespace SaferProblem

/-- The augmented problem `p` of `s`, cell by cell: `P` beside `reg · I` on the diagonal, `q` then
`-sw`, `[0 | -I] z ≤ 0` and `[G | I] z = h` in the storage of `G`, no bounds, and a starting point
of length `n` extended by its slacks. -/
structure Relaxation (s : SaferProblem) (p : Problem) : Prop where
  quad_storage : p.quad.storage = s.quad.storage
  quad_rows : p.quad.rows = s.quad.rows + s.ineqRhs.size
  quad_cols : p.quad.cols = s.quad.cols + s.ineqRhs.size
  quad_entry : ∀ r c, r < p.quad.rows → c < p.quad.cols →
    p.quad.entry r c =
      if r < s.quad.rows ∧ c < s.quad.cols then s.quad.entry r c
      else if s.quad.rows ≤ r ∧ s.quad.cols ≤ c then
        (if r - s.quad.rows = c - s.quad.cols then s.reg else Mat.offDiagonal s.quad.storage s.reg)
      else 0.0
  lin : p.lin = s.lin ++ Array.replicate s.ineqRhs.size (-s.weight)
  ineq_lhs : ∃ g2 : Mat, p.ineqLhs = some (.matrix g2) ∧ g2.storage = s.constraints.storage ∧
    g2.rows = s.ineqRhs.size ∧ g2.cols = s.dim + s.ineqRhs.size ∧
    ∀ r c, r < s.ineqRhs.size → c < s.dim + s.ineqRhs.size →
      g2.entry r c = if c < s.dim then 0.0
        else if r = c - s.dim then -1.0 else Mat.offDiagonal s.constraints.storage (-1.0)
  ineq_rhs : p.ineqRhs = some (Array.replicate s.ineqRhs.size 0.0)
  eq_lhs : ∃ a2 : Mat, p.eqLhs = some (.matrix a2) ∧ a2.storage = s.constraints.storage ∧
    a2.rows = s.ineqRhs.size ∧ a2.cols = s.dim + s.ineqRhs.size ∧
    ∀ r c, r < s.ineqRhs.size → c < s.dim + s.ineqRhs.size →
      a2.entry r c = if c < s.dim then s.constraints.entry r c
        else if r = c - s.dim then 1.0 else 0.0
  eq_rhs : p.eqRhs = some s.ineqRhs
  lower : p.lower = none
  upper : p.upper = none
  start_none : s.start = none → p.start = none
  start_extended : ∀ x0, s.start = some x0 → x0.size = s.dim → ∃ z, p.start = some z ∧
    z.size = s.dim + s.ineqRhs.size ∧ (∀ i < s.dim, z.getD i 0.0 = x0.getD i 0.0) ∧
    ∀ i < s.ineqRhs.size,
      z.getD (s.dim + i) 0.0 = s.ineqRhs.getD i 0.0 - (s.constraints.mulVec x0).getD i 0.0
  start_kept : ∀ x0, s.start = some x0 → x0.size ≠ s.dim → p.start = some x0

/-- With a `G` that fits, the augmented problem is the relaxation of `s`. -/
theorem relaxation_of_fit {s : SaferProblem} (hP : s.quad.WellFormed) (hG : s.ineqLhs.WellFormed)
    (hfit : (s.constraints.rows, s.constraints.cols) = (s.ineqRhs.size, s.dim)) :
    ∃ p, s.augmented = some (.ok p) ∧ s.Relaxation p := by
  obtain ⟨hrows, hcols⟩ := Prod.mk.inj hfit
  have hg : s.constraints.WellFormed := hG.toMat s.quad.storage
  refine ⟨_, augmented_eq_ok hrows hcols, {
    quad_storage := by simp
    quad_rows := by simp
    quad_cols := by simp
    quad_entry := fun r c hr hc => ?_
    lin := rfl
    ineq_lhs := ⟨_, rfl, by simp, by simp, by simp,
      fun r c hr hc => Mat.entry_zeros_hcat_scale_identity _ _ _ _ hr hc⟩
    ineq_rhs := rfl
    eq_lhs := ⟨_, rfl, by simp, by simp [hrows], by simp [hcols], fun r c hr hc => ?_⟩
    eq_rhs := rfl
    lower := rfl
    upper := rfl
    start_none := fun h => by simp [h]
    start_extended := fun x0 hx hn => ?_
    start_kept := fun x0 hx hn => by simp [hx, hn] }⟩
  · simp only [Mat.rows_blockDiag, Mat.cols_blockDiag, Mat.rows_scale, Mat.cols_scale,
      Mat.rows_identity, Mat.cols_identity] at hr hc
    exact Mat.entry_blockDiag_scale_identity hP _ _ hr hc
  · rw [Mat.entry_hcat_identity hg hrows hr (by omega), hcols]
  · refine ⟨_, by rw [hx, Option.map_some, if_pos hn], by simp [hn, hrows], fun i hi => ?_, fun i hi => ?_⟩
    · simp [Array.getD_eq_getD_getElem?, Array.getElem?_append_left (hn ▸ hi)]
    · rw [← hn]
      exact getD_append_zipWith_sub x0 (by simp [hrows]) hi

/-- `extract?` of a vector at least `n` long: its first `n` values. -/
theorem extract?_of_le {s : SaferProblem} {z : Array Float} (hz : s.dim ≤ z.size) :
    ∃ x, s.extract? z = some x ∧ x.size = s.dim ∧ ∀ i < s.dim, x.getD i 0.0 = z.getD i 0.0 := by
  refine ⟨z.extract 0 s.dim, by simp [extract?, hz], by simp [hz], fun i hi => ?_⟩
  simp [Array.getD_eq_getD_getElem?, hi, Nat.lt_of_lt_of_le hi hz]

/-- `extract?` gives back a vector of length `n` from any vector that begins with it. -/
theorem extract?_of_prefix {s : SaferProblem} {x z : Array Float} (hx : x.size = s.dim)
    (hz : s.dim ≤ z.size) (hpre : ∀ i < s.dim, z.getD i 0.0 = x.getD i 0.0) :
    s.extract? z = some x := by
  obtain ⟨y, hy, hsize, hfirst⟩ := extract?_of_le hz
  rw [hy, Option.some.injEq]
  refine Array.ext (hsize.trans hx.symm) fun i hiy hix => ?_
  have h := (hfirst i (hsize ▸ hiy)).trans (hpre i (hsize ▸ hiy))
  simpa [Array.getD_eq_getD_getElem?, hiy, hix] using h

namespace Relaxation

variable {s : SaferProblem} {p : Problem}

/-- Both constraint pairs of a relaxation are complete. -/
theorem checkPairs (h : s.Relaxation p) : p.checkPairs = .ok () := by
  obtain ⟨g2, hg2, -⟩ := h.ineq_lhs
  obtain ⟨a2, ha2, -⟩ := h.eq_lhs
  unfold Problem.checkPairs
  rw [hg2, ha2, h.ineq_rhs, h.eq_rhs]
  rfl

/-- The extension of a starting point of length `n` gives it back through `extract?`. -/
theorem extract?_start (h : s.Relaxation p) {x0 : Array Float} (hx : s.start = some x0)
    (hn : x0.size = s.dim) : ∃ z, p.start = some z ∧ s.extract? z = some x0 := by
  obtain ⟨z, hz, hsize, hfirst, -⟩ := h.start_extended x0 hx hn
  exact ⟨z, hz, extract?_of_prefix hn (by omega) hfirst⟩

end Relaxation

end SaferProblem

/-- Building the augmented problem fails exactly on a `G` that is not `m × n`; otherwise it never
stops and builds the relaxation, whose pairs are complete, and `extract?` gives a starting point of
length `n` back from its extension. -/
theorem augmented_builds_relaxation (s : SaferProblem) (hP : s.quad.WellFormed)
    (hG : s.ineqLhs.WellFormed) :
    ((s.constraints.rows, s.constraints.cols) ≠ (s.ineqRhs.size, s.dim) →
      s.augmented = some (.error (.dimensionMismatch .ineqLhs (s.ineqRhs.size, s.dim)
        (s.constraints.rows, s.constraints.cols)))) ∧
    ((s.constraints.rows, s.constraints.cols) = (s.ineqRhs.size, s.dim) →
      ∃ p, s.augmented = some (.ok p) ∧ s.Relaxation p ∧ p.checkPairs = .ok () ∧
        (∀ z : Array Float, s.dim ≤ z.size → ∃ x, s.extract? z = some x ∧ x.size = s.dim ∧
          ∀ i < s.dim, x.getD i 0.0 = z.getD i 0.0) ∧
        ∀ x0, s.start = some x0 → x0.size = s.dim → ∃ z, p.start = some z ∧ s.extract? z = some x0) := by
  refine ⟨fun hne => ?_, fun hfit => ?_⟩
  · have hdefect : sizeDefect .ineqLhs (s.ineqRhs.size, s.dim)
        (s.constraints.rows, s.constraints.cols) =
        some (.dimensionMismatch .ineqLhs (s.ineqRhs.size, s.dim)
          (s.constraints.rows, s.constraints.cols)) := by
      simp [sizeDefect, Ne.symm hne]
    exact (SaferProblem.augmented_of_misfit hdefect).1
  · obtain ⟨p, hp, hrel⟩ := SaferProblem.relaxation_of_fit hP hG hfit
    exact ⟨p, hp, hrel, hrel.checkPairs, fun z hz => SaferProblem.extract?_of_le hz,
      fun x0 hx hn => hrel.extract?_start hx hn⟩

/-- A sparse identity `P` and the row `x₀ - x₁ ≤ 3`, with a starting point: a second right-hand
side makes `G` misfit; as it is, the relaxation is built and its starting point gives `x₀` back. -/
theorem augmented_builds_relaxation_at_row :
    let s : SaferProblem :=
      { quad := .sparse (Sparse.identity 2), lin := #[1.0, 2.0], ineqLhs := .row #[1.0, -1.0],
        ineqRhs := #[3.0], weight := 1.0, start := some #[0.5, 0.25] }
    s.quad.WellFormed ∧ s.ineqLhs.WellFormed ∧
    { s with ineqRhs := #[3.0, 1.0] }.augmented =
      some (.error (.dimensionMismatch .ineqLhs (2, 2) (1, 2))) ∧
    ∃ p, s.augmented = some (.ok p) ∧ s.Relaxation p ∧
      ∃ z, p.start = some z ∧ s.extract? z = some #[0.5, 0.25] := by
  intro s
  have hP : s.quad.WellFormed := Mat.wellFormed_identity 2 .sparse
  have hG : s.ineqLhs.WellFormed := trivial
  have hfit : (s.constraints.rows, s.constraints.cols) = (s.ineqRhs.size, s.dim) := by decide
  have hbuilt := augmented_builds_relaxation s hP hG
  have hmisfit := augmented_builds_relaxation { s with ineqRhs := #[3.0, 1.0] } hP hG
  obtain ⟨p, hp, hrel, -, -, hstart⟩ := hbuilt.2 hfit
  exact ⟨hP, hG, hmisfit.1 (by decide), p, hp, hrel, hstart _ rfl (by decide)⟩

end ConvexQp
