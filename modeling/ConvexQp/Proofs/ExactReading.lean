import Mathlib
import ConvexQp.Proofs.Relaxation
/-! The augmented problem read over the reals: its feasible points are the `x` with `G x ≤ h`, each
with its slacks, and the extended starting point is feasible only when no slack was rounded. -/

namespace ConvexQp

namespace Unpacked

open Float.Model Float.Model.UnpackedFloat

/-- The real number an unpacked float denotes: `± m · 2 ^ e` when it is finite, `0` for a zero of
either sign. An infinity or a NaN denotes none and is read as `0`. -/
noncomputable def toReal : UnpackedFloat → ℝ
  | .finite .positive m e _ => m * 2 ^ e
  | .finite .negative m e _ => -(m * 2 ^ e)
  | _ => 0

theorem toReal_neg (u : UnpackedFloat) : toReal u.neg = -toReal u := by
  cases u with
  | finite s m e h =>
    cases s with
    | negative => exact (neg_neg _).symm
    | positive => rfl
  | infinity s => exact neg_zero.symm
  | zero s => exact neg_zero.symm
  | notANumber => exact neg_zero.symm

theorem Canonical.neg {u : UnpackedFloat} (hu : Canonical u) : Canonical u.neg := by
  cases hu with
  | notANumber => exact .notANumber
  | infinity s => exact .infinity (-s)
  | zero s => exact .zero (-s)
  | subnormal s m h hm => exact .subnormal (-s) m h hm
  | normal s m e h hlo hhi helo hehi => exact .normal (-s) m e h hlo hhi helo hehi

end Unpacked

namespace Float

open Float.Model Float.Model.UnpackedFloat

/-- The real number a float denotes; an infinity or a NaN is read as `0`. -/
noncomputable def toReal (x : Float) : ℝ := Unpacked.toReal x.toModel.unpack

theorem toReal_neg (x : Float) : toReal (-x) = -toReal x := by
  rw [toReal, neg_eq_ofModel, unpack_ofModel_pack (canonical_unpack x).neg, Unpacked.toReal_neg]
  rfl

theorem toReal_of_isZero {z : Float} (hz : IsZero z) : toReal z = 0 := by
  obtain ⟨s, hs⟩ := isZero_iff.1 hz
  rw [toReal, hs]
  rfl

@[simp] theorem toReal_zero : toReal 0.0 = 0 := toReal_of_isZero (.inl rfl)

theorem toReal_quietNan : toReal Binary64.quietNan = 0 := by
  rw [toReal, show Binary64.quietNan.toModel.unpack = .notANumber from rfl]
  rfl

theorem toReal_one : toReal 1.0 = 1 := by
  rw [toReal, show (1.0 : Float).toModel.unpack = .finite .positive (2 ^ 52) (-52) (Nat.two_pow_pos 52)
    from rfl]
  norm_num [Unpacked.toReal]

theorem toReal_neg_one : toReal (-1.0) = -1 := by
  rw [toReal_neg, toReal_one]

theorem toReal_pos {x : Float} {m : Nat} {e : Int} {hm : 0 < m}
    (hx : x.toModel.unpack = .finite .positive m e hm) : 0 < toReal x := by
  rw [toReal, hx]
  exact mul_pos (by exact_mod_cast hm) (zpow_pos (by norm_num) e)

end Float

/-- Off its diagonal a scaled identity holds a zero or a NaN, both read as `0`. -/
theorem Mat.toReal_offDiagonal (k : Storage) (alpha : Float) : Float.toReal (offDiagonal k alpha) = 0 := by
  cases k with
  | dense =>
    show Float.toReal (0.0 * alpha) = 0
    cases hfin : alpha.isFinite with
    | true => exact Float.toReal_of_isZero (Float.zero_mul_isZero (.inl rfl) hfin)
    | false => rw [Float.zero_mul_of_not_finite (.inl rfl) hfin, Float.toReal_quietNan]
  | sparse => exact Float.toReal_of_isZero (.inl rfl)

namespace Mat

/-- Row `r` of the product `m z`, each entry of `m` read as the real it denotes. -/
noncomputable def realRow (m : Mat) (z : ℕ → ℝ) (r : Nat) : ℝ :=
  ∑ c ∈ Finset.range m.cols, Float.toReal (m.entry r c) * z c

end Mat

/-- `[x; sl]`: the values of `x` at the first `n` places, then those of `sl`. -/
def withSlacks (n : Nat) (x sl : ℕ → ℝ) : ℕ → ℝ := fun c => if c < n then x c else sl (c - n)

/-- A sum over the places of `[x; sl]` is a sum over `x` and a sum over `sl`. -/
theorem sum_withSlacks (n m : Nat) (x sl : ℕ → ℝ) (f : ℕ → ℝ → ℝ) :
    ∑ c ∈ Finset.range (n + m), f c (withSlacks n x sl c) =
      ∑ c ∈ Finset.range n, f c (x c) + ∑ j ∈ Finset.range m, f (n + j) (sl j) := by
  rw [Finset.sum_range_add]
  congr 1
  · exact Finset.sum_congr rfl fun c hc => by simp [withSlacks, Finset.mem_range.1 hc]
  · exact Finset.sum_congr rfl fun j _ => by simp [withSlacks]

/-- Row `r` of a matrix over `[x; sl]`, when it holds `left` over the columns of `x` and, over the
slack columns, `diag` at slack `i` and elsewhere a value read as `0`: its `x` part plus
`diag · slᵢ`. -/
theorem realRow_withSlacks {a : Mat} {n m r i : Nat} (hcols : a.cols = n + m) (hi : i < m)
    {left : ℕ → Float} {diag off : Float} (hoff : Float.toReal off = 0)
    (hentry : ∀ c < n + m, a.entry r c = if c < n then left c else if i = c - n then diag else off)
    (x sl : ℕ → ℝ) :
    a.realRow (withSlacks n x sl) r =
      ∑ c ∈ Finset.range n, Float.toReal (left c) * x c + Float.toReal diag * sl i := by
  have hleft : ∀ c ∈ Finset.range n,
      Float.toReal (a.entry r c) * x c = Float.toReal (left c) * x c := by
    intro c hc
    have hc := Finset.mem_range.1 hc
    rw [hentry c (by omega), if_pos hc]
  have hright : ∀ j ∈ Finset.range m,
      Float.toReal (a.entry r (n + j)) * sl j = if i = j then Float.toReal diag * sl j else 0 := by
    intro j hj
    have hj := Finset.mem_range.1 hj
    rw [hentry (n + j) (by omega), if_neg (by omega), Nat.add_sub_cancel_left]
    by_cases hij : i = j
    · rw [if_pos hij, if_pos hij]
    · rw [if_neg hij, if_neg hij, hoff, zero_mul]
  rw [Mat.realRow, hcols, sum_withSlacks n m x sl fun c v => Float.toReal (a.entry r c) * v,
    Finset.sum_congr rfl hleft, Finset.sum_congr rfl hright, Finset.sum_ite_eq,
    if_pos (Finset.mem_range.2 hi)]

/-- The slack block `[0 | -I]`: row `i` of `[0 | -I] [x; sl]` is `-slᵢ`, whatever `0.0 * -1.0`
gives off the diagonal. -/
theorem realRow_slackBlock {g : Mat} {n m : Nat} {k : Storage} (hcols : g.cols = n + m)
    (hentry : ∀ r c, r < m → c < n + m →
      g.entry r c = if c < n then 0.0 else if r = c - n then -1.0 else Mat.offDiagonal k (-1.0))
    (x sl : ℕ → ℝ) {i : Nat} (hi : i < m) : g.realRow (withSlacks n x sl) i = -sl i := by
  rw [realRow_withSlacks hcols hi (Mat.toReal_offDiagonal k (-1.0)) (fun c hc => hentry i c hi hc),
    Float.toReal_neg_one]
  simp

/-- The block `[G | I]`: row `i` of `[G | I] [x; sl]` is `(G x)ᵢ + slᵢ`. -/
theorem realRow_identityBlock {a g : Mat} {n m : Nat} (hg : g.cols = n) (hcols : a.cols = n + m)
    (hentry : ∀ r c, r < m → c < n + m →
      a.entry r c = if c < n then g.entry r c else if r = c - n then 1.0 else 0.0)
    (x sl : ℕ → ℝ) {i : Nat} (hi : i < m) : a.realRow (withSlacks n x sl) i = g.realRow x i + sl i := by
  rw [realRow_withSlacks hcols hi Float.toReal_zero (fun c hc => hentry i c hi hc), Float.toReal_one,
    one_mul, Mat.realRow, hg]

namespace Problem

/-- `G z ≤ h` row by row, read over the reals, with `G` in the storage of `P`. -/
def MeetsInequalities (p : Problem) (z : ℕ → ℝ) : Prop :=
  ∀ l h, p.ineqLhs = some l → p.ineqRhs = some h →
    ∀ i < h.size, (l.toMat p.quad.storage).realRow z i ≤ Float.toReal (h.getD i 0.0)

/-- `A z = b` row by row, read over the reals, with `A` in the storage of `P`. -/
def MeetsEqualities (p : Problem) (z : ℕ → ℝ) : Prop :=
  ∀ l b, p.eqLhs = some l → p.eqRhs = some b →
    ∀ i < b.size, (l.toMat p.quad.storage).realRow z i = Float.toReal (b.getD i 0.0)

/-- `lb ≤ z ≤ ub`, read over the reals. -/
def MeetsBounds (p : Problem) (z : ℕ → ℝ) : Prop :=
  (∀ lb, p.lower = some lb → ∀ i < lb.size, Float.toReal (lb.getD i 0.0) ≤ z i) ∧
    ∀ ub, p.upper = some ub → ∀ i < ub.size, z i ≤ Float.toReal (ub.getD i 0.0)

/-- `z` meets every constraint of `p`, read over the reals. -/
structure ExactFeasible (p : Problem) (z : ℕ → ℝ) : Prop where
  ineq : p.MeetsInequalities z
  eq : p.MeetsEqualities z
  bounds : p.MeetsBounds z

/-- The objective `½ zᵀ P z + qᵀ z`, read over the reals. -/
noncomputable def exactObjective (p : Problem) (z : ℕ → ℝ) : ℝ :=
  1 / 2 * ∑ r ∈ Finset.range p.quad.rows, z r * p.quad.realRow z r +
    ∑ c ∈ Finset.range p.lin.size, Float.toReal (p.lin.getD c 0.0) * z c

end Problem

namespace SaferProblem.Relaxation

variable {s : SaferProblem} {p : Problem}

/-- `[0 | -I] [x; sl] ≤ 0` says `sl ≥ 0`. -/
theorem meetsInequalities_iff (h : s.Relaxation p) (x sl : ℕ → ℝ) :
    p.MeetsInequalities (withSlacks s.dim x sl) ↔ ∀ i < s.ineqRhs.size, 0 ≤ sl i := by
  obtain ⟨g2, hg2, -, -, hcols, hentry⟩ := h.ineq_lhs
  have hrow := fun i (hi : i < s.ineqRhs.size) => realRow_slackBlock hcols hentry x sl hi
  have hzero : ∀ i, Float.toReal ((Array.replicate s.ineqRhs.size 0.0).getD i 0.0) = 0 := by
    intro i
    rw [Array.getD_eq_getD_getElem?]
    by_cases hi : i < s.ineqRhs.size <;> simp [hi]
  constructor
  · intro hle i hi
    have hrowle := hle _ _ hg2 h.ineq_rhs i (by simpa using hi)
    rw [Lhs.toMat_matrix, hrow i hi, hzero] at hrowle
    linarith
  · rintro hall l rhs hl hrhs i hi
    rw [hg2, Option.some.injEq] at hl
    rw [h.ineq_rhs, Option.some.injEq] at hrhs
    subst hl hrhs
    have hi : i < s.ineqRhs.size := by simpa using hi
    rw [Lhs.toMat_matrix, hrow i hi, hzero]
    linarith [hall i hi]

/-- `[G | I] [x; sl] = h` says `(G x)ᵢ + slᵢ = hᵢ` for each row. -/
theorem meetsEqualities_iff (h : s.Relaxation p) (hcols : s.constraints.cols = s.dim) (x sl : ℕ → ℝ) :
    p.MeetsEqualities (withSlacks s.dim x sl) ↔
      ∀ i < s.ineqRhs.size, s.constraints.realRow x i + sl i = Float.toReal (s.ineqRhs.getD i 0.0) := by
  obtain ⟨a2, ha2, -, -, hc, hentry⟩ := h.eq_lhs
  have hrow := fun i (hi : i < s.ineqRhs.size) => realRow_identityBlock hcols hc hentry x sl hi
  constructor
  · intro heq i hi
    rw [← hrow i hi]
    exact heq _ _ ha2 h.eq_rhs i hi
  · rintro hall l b hl hb i hi
    rw [ha2, Option.some.injEq] at hl
    rw [h.eq_rhs, Option.some.injEq] at hb
    subst hl hb
    rw [Lhs.toMat_matrix, hrow i hi]
    exact hall i hi

theorem meetsBounds (h : s.Relaxation p) (z : ℕ → ℝ) : p.MeetsBounds z :=
  ⟨fun lb hlb => by simp [h.lower] at hlb, fun ub hub => by simp [h.upper] at hub⟩

/-- `[x; sl]` is feasible exactly when `sl = h - G x` and `sl ≥ 0`. -/
theorem exactFeasible_iff (h : s.Relaxation p) (hcols : s.constraints.cols = s.dim) (x sl : ℕ → ℝ) :
    p.ExactFeasible (withSlacks s.dim x sl) ↔
      ∀ i < s.ineqRhs.size,
        sl i = Float.toReal (s.ineqRhs.getD i 0.0) - s.constraints.realRow x i ∧ 0 ≤ sl i := by
  constructor
  · rintro ⟨hineq, heq, -⟩ i hi
    have hrow := (h.meetsEqualities_iff hcols x sl).1 heq i hi
    exact ⟨by linarith, (h.meetsInequalities_iff x sl).1 hineq i hi⟩
  · intro hall
    refine ⟨(h.meetsInequalities_iff x sl).2 fun i hi => (hall i hi).2,
      (h.meetsEqualities_iff hcols x sl).2 fun i hi => ?_, h.meetsBounds _⟩
    linarith [(hall i hi).1]

section Objective

variable (hsquare : s.quad.rows = s.dim ∧ s.quad.cols = s.dim)

include hsquare

/-- Row `r < n` of the augmented `P` times `[x; sl]` is row `r` of `P x`. -/
theorem realRow_quad_top (h : s.Relaxation p) (x sl : ℕ → ℝ) {r : Nat} (hr : r < s.dim) :
    p.quad.realRow (withSlacks s.dim x sl) r = s.quad.realRow x r := by
  have hleft : ∀ c ∈ Finset.range s.dim,
      Float.toReal (p.quad.entry r c) * x c = Float.toReal (s.quad.entry r c) * x c := by
    intro c hc
    have hc := Finset.mem_range.1 hc
    rw [h.quad_entry r c (by rw [h.quad_rows]; omega) (by rw [h.quad_cols]; omega),
      if_pos ⟨by omega, by omega⟩]
  have hright : ∀ j ∈ Finset.range s.ineqRhs.size,
      Float.toReal (p.quad.entry r (s.dim + j)) * sl j = 0 := by
    intro j hj
    have hj := Finset.mem_range.1 hj
    rw [h.quad_entry r (s.dim + j) (by rw [h.quad_rows]; omega) (by rw [h.quad_cols]; omega),
      if_neg (by omega), if_neg (by omega), Float.toReal_zero, zero_mul]
  rw [Mat.realRow, h.quad_cols, hsquare.2,
    sum_withSlacks _ _ x sl fun c v => Float.toReal (p.quad.entry r c) * v,
    Finset.sum_congr rfl hleft, Finset.sum_eq_zero hright, add_zero, Mat.realRow, hsquare.2]

/-- Row `n + i` of the augmented `P` times `[x; sl]` is `reg · slᵢ`. -/
theorem realRow_quad_bottom (h : s.Relaxation p) (x sl : ℕ → ℝ) {i : Nat} (hi : i < s.ineqRhs.size) :
    p.quad.realRow (withSlacks s.dim x sl) (s.dim + i) = Float.toReal s.reg * sl i := by
  have hentry : ∀ c < s.dim + s.ineqRhs.size, p.quad.entry (s.dim + i) c =
      if c < s.dim then 0.0 else if i = c - s.dim then s.reg else Mat.offDiagonal s.quad.storage s.reg := by
    intro c hc
    rw [h.quad_entry _ c (by rw [h.quad_rows]; omega) (by rw [h.quad_cols]; omega), if_neg (by omega),
      hsquare.1, hsquare.2, Nat.add_sub_cancel_left]
    by_cases hleft : c < s.dim
    · rw [if_pos hleft, if_neg (show ¬(s.dim ≤ s.dim + i ∧ s.dim ≤ c) by omega)]
    · rw [if_neg hleft, if_pos (show s.dim ≤ s.dim + i ∧ s.dim ≤ c by omega)]
  rw [realRow_withSlacks (by rw [h.quad_cols, hsquare.2]) hi (Mat.toReal_offDiagonal _ _) hentry]
  simp

/-- `[x; sl]ᵀ P₂ [x; sl] = xᵀ P x + reg ‖sl‖²`. -/
theorem quadraticSum (h : s.Relaxation p) (x sl : ℕ → ℝ) :
    ∑ r ∈ Finset.range p.quad.rows, withSlacks s.dim x sl r * p.quad.realRow (withSlacks s.dim x sl) r =
      ∑ r ∈ Finset.range s.dim, x r * s.quad.realRow x r +
        Float.toReal s.reg * ∑ i ∈ Finset.range s.ineqRhs.size, sl i ^ 2 := by
  have htop : ∑ r ∈ Finset.range s.dim, x r * p.quad.realRow (withSlacks s.dim x sl) r =
      ∑ r ∈ Finset.range s.dim, x r * s.quad.realRow x r :=
    Finset.sum_congr rfl fun r hr => by rw [h.realRow_quad_top hsquare x sl (Finset.mem_range.1 hr)]
  have hbottom : ∑ i ∈ Finset.range s.ineqRhs.size,
      sl i * p.quad.realRow (withSlacks s.dim x sl) (s.dim + i) =
        Float.toReal s.reg * ∑ i ∈ Finset.range s.ineqRhs.size, sl i ^ 2 := by
    rw [Finset.mul_sum]
    refine Finset.sum_congr rfl fun i hi => ?_
    rw [h.realRow_quad_bottom hsquare x sl (Finset.mem_range.1 hi)]
    ring
  rw [h.quad_rows, hsquare.1,
    sum_withSlacks _ _ x sl fun r v => v * p.quad.realRow (withSlacks s.dim x sl) r, htop, hbottom]

end Objective

/-- `q₂ᵀ [x; sl] = qᵀ x - sw Σ sl`. -/
theorem linearSum (h : s.Relaxation p) (x sl : ℕ → ℝ) :
    ∑ c ∈ Finset.range p.lin.size, Float.toReal (p.lin.getD c 0.0) * withSlacks s.dim x sl c =
      ∑ c ∈ Finset.range s.dim, Float.toReal (s.lin.getD c 0.0) * x c -
        Float.toReal s.weight * ∑ i ∈ Finset.range s.ineqRhs.size, sl i := by
  have hsize : p.lin.size = s.dim + s.ineqRhs.size := by simp [h.lin, dim]
  have hleft : ∀ c ∈ Finset.range s.dim,
      Float.toReal (p.lin.getD c 0.0) * x c = Float.toReal (s.lin.getD c 0.0) * x c := by
    intro c hc
    have hc : c < s.lin.size := Finset.mem_range.1 hc
    simp [h.lin, Array.getD_eq_getD_getElem?, Array.getElem?_append_left hc]
  have hright : ∀ j ∈ Finset.range s.ineqRhs.size,
      Float.toReal (p.lin.getD (s.dim + j) 0.0) * sl j = -(Float.toReal s.weight * sl j) := by
    intro j hj
    have hj := Finset.mem_range.1 hj
    have hget : p.lin.getD (s.dim + j) 0.0 = -s.weight := by
      simp [h.lin, Array.getD_eq_getD_getElem?, dim, hj]
    rw [hget, Float.toReal_neg, neg_mul]
  rw [hsize, sum_withSlacks _ _ x sl fun c v => Float.toReal (p.lin.getD c 0.0) * v,
    Finset.sum_congr rfl hleft, Finset.sum_congr rfl hright, Finset.sum_neg_distrib, Finset.mul_sum,
    sub_eq_add_neg]

/-- The objective of `[x; sl]` is that of `(P, q)` at `x`, plus `½ reg ‖sl‖² - sw Σ sl`. -/
theorem exactObjective_eq (h : s.Relaxation p) (hsquare : s.quad.rows = s.dim ∧ s.quad.cols = s.dim)
    (x sl : ℕ → ℝ) :
    p.exactObjective (withSlacks s.dim x sl) =
      ({ quad := s.quad, lin := s.lin } : Problem).exactObjective x +
        Float.toReal s.reg / 2 * ∑ i ∈ Finset.range s.ineqRhs.size, sl i ^ 2 -
        Float.toReal s.weight * ∑ i ∈ Finset.range s.ineqRhs.size, sl i := by
  rw [Problem.exactObjective, h.quadraticSum hsquare, h.linearSum, Problem.exactObjective]
  simp only [hsquare.1, show s.lin.size = s.dim from rfl]
  ring

/-- The extended starting point, read over the reals, is `[x₀; sl₀]` with `sl₀ = h - G x₀` computed
in floats; it meets the equalities exactly when each of these slacks is the exact residual. -/
theorem start_reads (h : s.Relaxation p) (hcols : s.constraints.cols = s.dim) {x0 : Array Float}
    (hx : s.start = some x0) (hn : x0.size = s.dim) :
    ∃ z0, p.start = some z0 ∧ s.extract? z0 = some x0 ∧
      (p.MeetsEqualities (fun c => Float.toReal (z0.getD c 0.0)) ↔
        ∀ i < s.ineqRhs.size,
          Float.toReal (s.ineqRhs.getD i 0.0 - (s.constraints.mulVec x0).getD i 0.0) =
            Float.toReal (s.ineqRhs.getD i 0.0) -
              s.constraints.realRow (fun c => Float.toReal (x0.getD c 0.0)) i) := by
  obtain ⟨z0, hz, hsize, hfirst, hslack⟩ := h.start_extended x0 hx hn
  have hread : (fun c => Float.toReal (z0.getD c 0.0)) =
      withSlacks s.dim (fun c => Float.toReal (x0.getD c 0.0))
        (fun j => Float.toReal (z0.getD (s.dim + j) 0.0)) := by
    funext c
    by_cases hc : c < s.dim
    · simp only [withSlacks, if_pos hc, hfirst c hc]
    · simp only [withSlacks, if_neg hc, Nat.add_sub_cancel' (Nat.le_of_not_lt hc)]
  refine ⟨z0, hz, extract?_of_prefix hn (by omega) hfirst, ?_⟩
  rw [hread, h.meetsEqualities_iff hcols]
  refine forall₂_congr fun i hi => ?_
  rw [hslack i hi]
  constructor <;> intro hrow <;> linarith

end SaferProblem.Relaxation

/-- Over the reals, the augmented problem of a relaxed problem that fits is built: `[x; sl]` is
feasible exactly when `sl = h - G x ≥ 0`, at the relaxed objective, and the extended starting point
meets the equalities exactly when no slack was rounded. -/
theorem augmented_problem_reads_exactly (s : SaferProblem) (hP : s.quad.WellFormed)
    (hG : s.ineqLhs.WellFormed) (hsquare : s.quad.rows = s.dim ∧ s.quad.cols = s.dim)
    (hfit : (s.constraints.rows, s.constraints.cols) = (s.ineqRhs.size, s.dim)) :
    ∃ p, s.augmented = some (.ok p) ∧
      (∀ x sl : ℕ → ℝ, p.ExactFeasible (withSlacks s.dim x sl) ↔
        ∀ i < s.ineqRhs.size,
          sl i = Float.toReal (s.ineqRhs.getD i 0.0) - s.constraints.realRow x i ∧ 0 ≤ sl i) ∧
      (∀ x sl : ℕ → ℝ, p.exactObjective (withSlacks s.dim x sl) =
        ({ quad := s.quad, lin := s.lin } : Problem).exactObjective x +
          Float.toReal s.reg / 2 * ∑ i ∈ Finset.range s.ineqRhs.size, sl i ^ 2 -
          Float.toReal s.weight * ∑ i ∈ Finset.range s.ineqRhs.size, sl i) ∧
      (∀ x : ℕ → ℝ, (∃ sl, p.ExactFeasible (withSlacks s.dim x sl)) ↔
        ∀ i < s.ineqRhs.size, s.constraints.realRow x i ≤ Float.toReal (s.ineqRhs.getD i 0.0)) ∧
      (∀ x sl : ℕ → ℝ, p.ExactFeasible (withSlacks s.dim x sl) → ∀ i < s.ineqRhs.size,
        (0 < sl i ↔ s.constraints.realRow x i < Float.toReal (s.ineqRhs.getD i 0.0))) ∧
      ∀ x0, s.start = some x0 → x0.size = s.dim → ∃ z0, p.start = some z0 ∧ s.extract? z0 = some x0 ∧
        (p.MeetsEqualities (fun c => Float.toReal (z0.getD c 0.0)) ↔
          ∀ i < s.ineqRhs.size,
            Float.toReal (s.ineqRhs.getD i 0.0 - (s.constraints.mulVec x0).getD i 0.0) =
              Float.toReal (s.ineqRhs.getD i 0.0) -
                s.constraints.realRow (fun c => Float.toReal (x0.getD c 0.0)) i) := by
  obtain ⟨p, hp, hrel⟩ := SaferProblem.relaxation_of_fit hP hG hfit
  have hcols : s.constraints.cols = s.dim := (Prod.mk.inj hfit).2
  have hfeas := hrel.exactFeasible_iff hcols
  refine ⟨p, hp, hfeas, hrel.exactObjective_eq hsquare, fun x => ?_, fun x sl hx i hi => ?_,
    fun x0 hx hn => hrel.start_reads hcols hx hn⟩
  · constructor
    · rintro ⟨sl, hsl⟩ i hi
      have := (hfeas x sl).1 hsl i hi
      linarith [this.1, this.2]
    · intro hle
      refine ⟨fun j => Float.toReal (s.ineqRhs.getD j 0.0) - s.constraints.realRow x j,
        (hfeas x _).2 fun i hi => ⟨rfl, ?_⟩⟩
      linarith [hle i hi]
  · have := ((hfeas x sl).1 hx i hi).1
    constructor <;> intro hlt <;> linarith

/-- Two variables with `P = I` and the row `x₀ + x₁ ≤ 1`: the origin with the slack `1` is feasible. -/
theorem augmented_problem_reads_exactly_at_row :
    let s : SaferProblem :=
      { quad := .dense (Dense.identity 2), lin := #[0.0, 0.0], ineqLhs := .row #[1.0, 1.0],
        ineqRhs := #[1.0], weight := 1.0 }
    s.quad.WellFormed ∧ s.ineqLhs.WellFormed ∧ (s.quad.rows = s.dim ∧ s.quad.cols = s.dim) ∧
    (s.constraints.rows, s.constraints.cols) = (s.ineqRhs.size, s.dim) ∧
    ∃ p, s.augmented = some (.ok p) ∧ p.ExactFeasible (withSlacks s.dim (fun _ => 0) (fun _ => 1)) := by
  intro s
  have hP : s.quad.WellFormed := trivial
  have hG : s.ineqLhs.WellFormed := trivial
  have hsquare : s.quad.rows = s.dim ∧ s.quad.cols = s.dim := by decide
  have hfit : (s.constraints.rows, s.constraints.cols) = (s.ineqRhs.size, s.dim) := by decide
  obtain ⟨p, hp, hfeas, -⟩ := augmented_problem_reads_exactly s hP hG hsquare hfit
  refine ⟨hP, hG, hsquare, hfit, p, hp, (hfeas _ _).2 fun i hi => ⟨?_, zero_le_one⟩⟩
  obtain rfl : i = 0 := by simpa [s] using hi
  have hrow : s.constraints.realRow (fun _ => 0) 0 = 0 := by simp [Mat.realRow]
  rw [hrow, show s.ineqRhs.getD 0 0.0 = 1.0 from rfl, Float.toReal_one, sub_zero]

/-- Two variables, the row `x₀ + x₁ ≤ 1` and the starting point `(1, 10⁻¹⁶)`. In floats `G x₀` is
`1.0`, so the slack is `0.0`, while over the reals `x₀ + x₁` exceeds `1` by `10⁻¹⁶`: the extended
starting point misses the equality `[G | I] z = h` read over the reals. -/
theorem extended_start_misses_exact_equalities :
    let s : SaferProblem :=
      { quad := .dense (Dense.identity 2), lin := #[0.0, 0.0], ineqLhs := .row #[1.0, 1.0],
        ineqRhs := #[1.0], weight := 1.0, start := some #[1.0, 1e-16] }
    ∃ p z0, s.augmented = some (.ok p) ∧ p.start = some z0 ∧
      ¬p.MeetsEqualities (fun c => Float.toReal (z0.getD c 0.0)) := by
  intro s
  have hfit : (s.constraints.rows, s.constraints.cols) = (s.ineqRhs.size, s.dim) := by decide
  obtain ⟨p, hp, hrel⟩ := SaferProblem.relaxation_of_fit (s := s) trivial trivial hfit
  obtain ⟨z0, hz, -, hiff⟩ := hrel.start_reads (Prod.mk.inj hfit).2
    (show s.start = some #[1.0, 1e-16] from rfl) (by decide)
  refine ⟨p, z0, hp, hz, fun hmeet => ?_⟩
  have hrow0 := hiff.1 hmeet 0 (by decide)
  have hslack : s.ineqRhs.getD 0 0.0 - (s.constraints.mulVec #[1.0, 1e-16]).getD 0 0.0 = 0.0 := by
    decide
  have htiny : 0 < Float.toReal 1e-16 :=
    Float.toReal_pos (show (1e-16 : Float).toModel.unpack =
      .finite .positive 8112963841460668 (-106) (by decide) from rfl)
  have hentries : s.constraints.cols = 2 ∧ s.constraints.entry 0 0 = 1.0 ∧
      s.constraints.entry 0 1 = 1.0 := by decide
  have hrow : s.constraints.realRow (fun c => Float.toReal ((#[1.0, 1e-16] : Array Float).getD c 0.0)) 0 =
      1 + Float.toReal 1e-16 := by
    rw [Mat.realRow, hentries.1, Finset.sum_range_succ, Finset.sum_range_succ, Finset.sum_range_zero,
      hentries.2.1, hentries.2.2]
    simp [Float.toReal_one]
  rw [hslack, Float.toReal_zero, hrow, show s.ineqRhs.getD 0 0.0 = 1.0 from rfl, Float.toReal_one]
    at hrow0
  linarith

end ConvexQp
