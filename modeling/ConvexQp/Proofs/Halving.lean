import Mathlib
import ConvexQp.Proofs.Conversion
/-! Halving in binary64: `0.5 * x` lowers the exponent of `x` by one, exactly when `halvesExactly`
holds, and then distributes over a sum that does not overflow. -/

namespace ConvexQp

namespace Unpacked

open Float.Model Float.Model.UnpackedFloat

/-- The value halved exactly: a finite value one exponent down, any other value as it is. -/
def lower : UnpackedFloat → UnpackedFloat
  | .finite s m e h => .finite s m (e - 1) h
  | u => u

/-- Every value but a finite one in the two lowest binades, below `2^-1021` in magnitude: these
surely halve exactly, and so do the values below whose last mantissa bit is zero. -/
def halvesExactly : UnpackedFloat → Bool
  | .finite _ _ e _ => decide (-1073 ≤ e)
  | _ => true

theorem le_roundedMantissa (em : ExtendedMantissa) : em.mantissa ≤ em.roundedMantissa :=
  le_roundToNearestEven _ _

theorem roundedMantissa_le (em : ExtendedMantissa) : em.roundedMantissa ≤ em.mantissa + 1 := by
  obtain ⟨m, r, s⟩ := em
  cases r <;> cases s <;>
    simp [ExtendedMantissa.roundedMantissa, ExtendedMantissa.accuracy, Accuracy.roundToNearestEven]
  omega

theorem targetExponent_lower (M : Nat) {E : Int} (hT : -1020 ≤ totalExponent M E) :
    Format.binary64.targetExponent (totalExponent M (E - 1)) =
      Format.binary64.targetExponent (totalExponent M E) - 1 := by
  rw [targetExponent_binary64, targetExponent_binary64]
  simp only [totalExponent] at hT ⊢
  omega

/-- Away from the subnormal range, shifting to the target exponent does the same at one exponent
less. -/
theorem shiftToTargetExponent_lower (M : Nat) {E : Int} (hT : -1020 ≤ totalExponent M E) (acc : Accuracy) :
    shiftToTargetExponent .binary64 M (E - 1) acc =
      ((shiftToTargetExponent .binary64 M E acc).1, (shiftToTargetExponent .binary64 M E acc).2 - 1) := by
  have ht := targetExponent_lower M hT
  simp only [shiftToTargetExponent, shiftToExponent, ht]
  have hk : (Format.binary64.targetExponent (totalExponent M E) - 1 - (E - 1)).toNat =
      (Format.binary64.targetExponent (totalExponent M E) - E).toNat := by omega
  rw [hk]
  congr 1
  omega

/-- From a mantissa of at least 53 bits and away from the subnormal range, the first shift of a
rounding leaves exactly 53 bits at the target exponent. -/
theorem shiftToTargetExponent_normal {M : Nat} (hM : 0 < M) {E : Int} (hT : -1021 ≤ totalExponent M E)
    (hE : E ≤ Format.binary64.targetExponent (totalExponent M E)) (acc : Accuracy) :
    (shiftToTargetExponent .binary64 M E acc).2 = totalExponent M E - 53 ∧
      2 ^ 52 ≤ (shiftToTargetExponent .binary64 M E acc).1.mantissa ∧
      (shiftToTargetExponent .binary64 M E acc).1.mantissa < 2 ^ 53 := by
  rw [targetExponent_binary64] at hE
  simp only [shiftToTargetExponent, shiftToExponent, targetExponent_binary64, mantissa_shiftRight,
    mantissa_ofMantissaAndAccuracy]
  simp only [totalExponent] at hT hE ⊢
  obtain ⟨k, hk⟩ : ∃ k : Nat, M.log2 = 52 + k := ⟨M.log2 - 52, by omega⟩
  have hshift : (max ((M.log2 : Int) + 1 + E - 53) (-1074) - E).toNat = k := by omega
  have hlo := Nat.log2_self_le (Nat.ne_of_gt hM)
  have hhi := @Nat.lt_log2_self M
  rw [hshift, hk] at *
  refine ⟨by omega, ?_, ?_⟩
  · rw [Nat.le_div_iff_mul_le (Nat.two_pow_pos k), ← Nat.pow_add]
    exact hlo
  · rw [Nat.div_lt_iff_lt_mul (Nat.two_pow_pos k), ← Nat.pow_add]
    rwa [show 52 + k + 1 = 53 + k by omega] at hhi

theorem roundWithAccuracy_lower (s : Sign) {M : Nat} (hM : 0 < M) {E : Int}
    (hT : -1020 ≤ totalExponent M E) (hE : E ≤ Format.binary64.targetExponent (totalExponent M E))
    (acc : Accuracy) :
    roundWithAccuracy .binary64 s M (E - 1) acc = lower (roundWithAccuracy .binary64 s M E acc) := by
  obtain ⟨he1, hlo, -⟩ := shiftToTargetExponent_normal hM (by omega) hE acc
  unfold roundWithAccuracy
  rw [shiftToTargetExponent_lower M hT acc]
  generalize shiftToTargetExponent .binary64 M E acc = F at he1 hlo ⊢
  obtain ⟨em, e1⟩ := F
  dsimp only at he1 hlo ⊢
  have hR : 2 ^ 52 ≤ em.roundedMantissa := le_trans hlo (le_roundedMantissa em)
  have hlog : 52 ≤ em.roundedMantissa.log2 := (Nat.le_log2 (by positivity)).2 hR
  have hT2 : -1020 ≤ totalExponent em.roundedMantissa e1 := by
    rw [show totalExponent em.roundedMantissa e1 = (em.roundedMantissa.log2 : Int) + 1 + e1 from rfl]
    omega
  rw [shiftToTargetExponent_lower _ hT2 .exact]
  by_cases h0 : (shiftToTargetExponent .binary64 em.roundedMantissa e1 .exact).1.mantissa = 0 <;>
    simp [h0, lower]

/-- Away from the subnormal range, rounding one exponent lower gives the rounded value halved. -/
theorem round_lower (s : Sign) {M : Nat} (hM : 0 < M) {E : Int} (hT : -1020 ≤ totalExponent M E) :
    UnpackedFloat.round .binary64 s M (E - 1) = lower (UnpackedFloat.round .binary64 s M E) := by
  have ht := targetExponent_lower M hT
  simp only [UnpackedFloat.round, decreaseExponent, ht]
  generalize hj : (E - Format.binary64.targetExponent (totalExponent M E)).toNat = j
  have hj' : (E - 1 - (Format.binary64.targetExponent (totalExponent M E) - 1)).toNat = j := by omega
  rw [hj', show E - 1 - (j : Int) = (E - j) - 1 by omega, Nat.shiftLeft_eq]
  have htotal : totalExponent (M * 2 ^ j) (E - j) = totalExponent M E := by
    rw [← totalExponent_scaled hM j E]
  apply roundWithAccuracy_lower s (Nat.mul_pos hM (Nat.two_pow_pos j)) (by rw [htotal]; exact hT)
  rw [htotal]
  omega

/-- In the subnormal range, rounding a value whose exponent is at least the least one is exact. -/
theorem round_subnormal (s : Sign) {M : Nat} (hM : 0 < M) {E : Int} (hE : -1074 ≤ E)
    (hT : totalExponent M E ≤ -1021) :
    UnpackedFloat.round .binary64 s M E =
      .finite s (M * 2 ^ (E + 1074).toNat) (-1074) (Nat.mul_pos hM (Nat.two_pow_pos _)) := by
  have ht : Format.binary64.targetExponent (totalExponent M E) = -1074 := by
    rw [targetExponent_binary64]
    omega
  simp only [UnpackedFloat.round, decreaseExponent, ht, Nat.shiftLeft_eq]
  rw [show (E - -1074).toNat = (E + 1074).toNat by omega,
    show E - ((E + 1074).toNat : Int) = -1074 by omega]
  have htarget : Format.binary64.targetExponent (totalExponent (M * 2 ^ (E + 1074).toNat) (-1074)) =
      -1074 := by
    rw [show (-1074 : Int) = E - ((E + 1074).toNat : Nat) by omega, totalExponent_scaled hM, ht]
    omega
  simpa using roundWithAccuracy_scaled s (Nat.mul_pos hM (Nat.two_pow_pos (E + 1074).toNat)) htarget 0

theorem shiftToTargetExponent_of_lt {R : Nat} (hR : R < 2 ^ 53) {e : Int} (he : -1074 ≤ e) :
    shiftToTargetExponent .binary64 R e .exact = (ExtendedMantissa.ofMantissaAndAccuracy R .exact, e) := by
  have hlog : R.log2 ≤ 52 := by
    rcases Nat.eq_zero_or_pos R with rfl | hpos
    · simp
    · have := (Nat.log2_lt (Nat.ne_of_gt hpos)).2 hR
      omega
  have hk : (Format.binary64.targetExponent (totalExponent R e) - e).toNat = 0 := by
    rw [targetExponent_binary64, totalExponent]
    omega
  simp only [shiftToTargetExponent, shiftToExponent, hk, Nat.cast_zero, Int.add_zero]
  rfl

theorem shiftToTargetExponent_two_pow {e : Int} (he : -1074 ≤ e) :
    shiftToTargetExponent .binary64 (2 ^ 53) e .exact = (⟨2 ^ 52, false, false⟩, e + 1) := by
  have hk : (Format.binary64.targetExponent (totalExponent (2 ^ 53) e) - e).toNat = 1 := by
    rw [targetExponent_binary64, totalExponent, Nat.log2_two_pow]
    omega
  simp only [shiftToTargetExponent, shiftToExponent, hk]
  rfl

/-- Away from the subnormal range a rounded value is normal, at or above its target exponent. -/
theorem round_normal (s : Sign) {M : Nat} (hM : 0 < M) {E : Int} (hT : -1021 ≤ totalExponent M E) :
    ∃ F e h, UnpackedFloat.round .binary64 s M E = .finite s F e h ∧ 2 ^ 52 ≤ F ∧ F < 2 ^ 53 ∧
      totalExponent M E - 53 ≤ e := by
  simp only [UnpackedFloat.round, decreaseExponent, Nat.shiftLeft_eq]
  generalize hj : (E - Format.binary64.targetExponent (totalExponent M E)).toNat = j
  have htotal : totalExponent (M * 2 ^ j) (E - j) = totalExponent M E := by
    rw [← totalExponent_scaled hM j E]
  have hM' : 0 < M * 2 ^ j := Nat.mul_pos hM (Nat.two_pow_pos j)
  obtain ⟨he1, hlo, hhi⟩ := shiftToTargetExponent_normal hM' (by rw [htotal]; exact hT)
    (by rw [htotal]; omega) .exact
  rw [htotal] at he1
  unfold roundWithAccuracy
  generalize shiftToTargetExponent .binary64 (M * 2 ^ j) (E - j) .exact = F at he1 hlo hhi ⊢
  obtain ⟨em, e1⟩ := F
  dsimp only at he1 hlo hhi ⊢
  have hR := le_trans hlo (le_roundedMantissa em)
  have hR' : em.roundedMantissa ≤ 2 ^ 53 := le_trans (roundedMantissa_le em) hhi
  rcases Nat.lt_or_ge em.roundedMantissa (2 ^ 53) with hlt | hge
  · rw [shiftToTargetExponent_of_lt hlt (by omega)]
    simp only [mantissa_ofMantissaAndAccuracy]
    rw [dif_neg (by omega)]
    exact ⟨em.roundedMantissa, e1, by omega, rfl, hR, hlt, by omega⟩
  · rw [show em.roundedMantissa = 2 ^ 53 by omega, shiftToTargetExponent_two_pow (by omega)]
    rw [dif_neg (by norm_num)]
    exact ⟨2 ^ 52, e1 + 1, Nat.two_pow_pos 52, rfl, le_rfl, by norm_num, by omega⟩

theorem unpack_half : (0.5 : Float).toModel.unpack = .finite .positive (2 ^ 52) (-53) (Nat.two_pow_pos 52) :=
  rfl

/-- Halving a finite value above the least exponent lowers its exponent. -/
theorem mul_half_of_normal {s : Sign} {m : Nat} {e : Int} {h : 0 < m} (hc : Canonical (.finite s m e h))
    (he : -1073 ≤ e) :
    UnpackedFloat.mul .binary64 (.finite .positive (2 ^ 52) (-53) (Nat.two_pow_pos 52)) (.finite s m e h) =
      .finite s m (e - 1) h := by
  have hlog : m.log2 = 52 := by
    cases hc with
    | subnormal => omega
    | normal _ _ _ _ hlo hhi => exact log2_of_normal hlo hhi
  have ht : Format.binary64.targetExponent (totalExponent m (e - 1)) = e - 1 := by
    rw [targetExponent_binary64, totalExponent, hlog]
    omega
  show roundWithAccuracy .binary64 (Sign.positive * s) (2 ^ 52 * m) (-53 + e) .exact = _
  rw [positive_mul, Nat.mul_comm, show -53 + e = (e - 1) - ((52 : Nat) : Int) by omega,
    roundWithAccuracy_scaled s h ht 52]

/-- Halving a subnormal value with an even mantissa halves the mantissa. -/
theorem mul_half_of_even {s : Sign} {m m' : Nat} {h : 0 < m} (hm : m < 2 ^ 52) (hm' : m' = 2 * m)
    (h' : 0 < m') :
    UnpackedFloat.mul .binary64 (.finite .positive (2 ^ 52) (-53) (Nat.two_pow_pos 52))
      (.finite s m' (-1074) h') = .finite s m (-1074) h := by
  subst hm'
  have hlog : m.log2 < 52 := log2_lt_of_subnormal hm
  have ht : Format.binary64.targetExponent (totalExponent m (-1074)) = -1074 := by
    rw [targetExponent_binary64, totalExponent]
    omega
  show roundWithAccuracy .binary64 (Sign.positive * s) (2 ^ 52 * (2 * m)) (-53 + -1074) .exact = _
  rw [positive_mul, show 2 ^ 52 * (2 * m) = m * 2 ^ 53 by ring,
    show (-53 + -1074 : Int) = -1074 - ((53 : Nat) : Int) by norm_num, roundWithAccuracy_scaled s h ht 53]

theorem mul_two_pow_lt {N j k : Nat} (h : N.log2 + 1 + j ≤ k) : N * 2 ^ j < 2 ^ k :=
  calc N * 2 ^ j < 2 ^ (N.log2 + 1) * 2 ^ j := Nat.mul_lt_mul_of_pos_right Nat.lt_log2_self (Nat.two_pow_pos _)
    _ = 2 ^ (N.log2 + 1 + j) := (Nat.pow_add _ _ _).symm
    _ ≤ 2 ^ k := Nat.pow_le_pow_right (by decide) h

/-- Halving a rounded sum, at an exponent from one above the least up, rounds the sum one exponent
lower: away from the subnormal range both lower the exponent, and inside it both are exact. -/
theorem mul_half_round (s : Sign) {N : Nat} (hN : 0 < N) {E : Int} (hE : -1073 ≤ E)
    (hc : Canonical (UnpackedFloat.round .binary64 s N E)) :
    UnpackedFloat.mul .binary64 (.finite .positive (2 ^ 52) (-53) (Nat.two_pow_pos 52))
      (UnpackedFloat.round .binary64 s N E) = UnpackedFloat.round .binary64 s N (E - 1) := by
  by_cases hT : -1020 ≤ totalExponent N E
  · obtain ⟨F, e, hF, heq, -, -, he⟩ := round_normal s hN (show -1021 ≤ totalExponent N E by omega)
    rw [round_lower s hN hT, heq]
    rw [heq] at hc
    exact mul_half_of_normal hc (by omega)
  · have hT' : totalExponent N (E - 1) = totalExponent N E - 1 := by
      simp only [totalExponent]
      omega
    rw [round_subnormal s hN (show -1074 ≤ E by omega) (show totalExponent N E ≤ -1021 by omega),
      round_subnormal s hN (show -1074 ≤ E - 1 by omega) (show totalExponent N (E - 1) ≤ -1021 by omega)]
    have hlog : (N.log2 : Int) + 1 + E ≤ -1021 := by
      simp only [totalExponent] at hT
      omega
    apply mul_half_of_even (mul_two_pow_lt (by omega))
    rw [show (E + 1074).toNat = (E - 1 + 1074).toNat + 1 by omega, Nat.pow_succ]
    ring

/-- Halving a normalized sum rounds it one exponent lower. -/
theorem mul_half_normalize (M : Int) {E : Int} (hE : -1073 ≤ E)
    (hc : Canonical (UnpackedFloat.normalize .binary64 M E .positive)) :
    UnpackedFloat.mul .binary64 (.finite .positive (2 ^ 52) (-53) (Nat.two_pow_pos 52))
      (UnpackedFloat.normalize .binary64 M E .positive) =
      UnpackedFloat.normalize .binary64 M (E - 1) .positive := by
  unfold UnpackedFloat.normalize at hc ⊢
  split
  · rename_i hlt
    simp only [hlt] at hc
    exact mul_half_round .negative (by have := Int.compare_eq_lt.1 hlt; omega) hE hc
  · rfl
  · rename_i hgt
    simp only [hgt] at hc
    exact mul_half_round .positive (by have := Int.compare_eq_gt.1 hgt; omega) hE hc

/-- Two finite values, each halved, add to their sum rounded one exponent lower. -/
theorem add_lower (s₁ : Sign) (m₁ : Nat) (e₁ : Int) (h₁ : 0 < m₁) (s₂ : Sign) (m₂ : Nat) (e₂ : Int)
    (h₂ : 0 < m₂) :
    UnpackedFloat.add .binary64 (.finite s₁ m₁ e₁ h₁) (.finite s₂ m₂ e₂ h₂) =
        UnpackedFloat.normalize .binary64 (s₁.apply ↑(m₁ <<< (e₁ - min e₁ e₂).toNat) +
          s₂.apply ↑(m₂ <<< (e₂ - min e₁ e₂).toNat)) (min e₁ e₂) .positive ∧
      UnpackedFloat.add .binary64 (.finite s₁ m₁ (e₁ - 1) h₁) (.finite s₂ m₂ (e₂ - 1) h₂) =
        UnpackedFloat.normalize .binary64 (s₁.apply ↑(m₁ <<< (e₁ - min e₁ e₂).toNat) +
          s₂.apply ↑(m₂ <<< (e₂ - min e₁ e₂).toNat)) (min e₁ e₂ - 1) .positive := by
  refine ⟨rfl, ?_⟩
  simp only [UnpackedFloat.add, decreaseExponent, min_sub_sub_right, sub_sub_sub_cancel_right]

theorem isFinite_pack_of_large {s : Sign} {F : Nat} {e : Int} {h : 0 < F} (he : 972 ≤ e) :
    (Float.ofModel (Float.Model.pack (.finite s F e h))).isFinite = false := by
  have hpack : UnpackedFloat.pack .binary64 (.finite s F e h) = packedInfinity .binary64 s := by
    unfold UnpackedFloat.pack
    rw [if_pos]
    change 2048 ≤ (e + 1023 + 52).toNat + 1
    omega
  show (UnpackedFloat.unpack .binary64 (UnpackedFloat.pack .binary64 (.finite s F e h))).isFinite = false
  rw [hpack]
  cases s <;> rfl

/-- A normalized sum that packs to a finite float is canonical. -/
theorem canonical_normalize (M : Int) {E : Int} (hE : -1074 ≤ E)
    (hfin : (Float.ofModel (Float.Model.pack (UnpackedFloat.normalize .binary64 M E .positive))).isFinite =
      true) :
    Canonical (UnpackedFloat.normalize .binary64 M E .positive) := by
  have hround : ∀ (s : Sign) {N : Nat}, 0 < N →
      (Float.ofModel (Float.Model.pack (UnpackedFloat.round .binary64 s N E))).isFinite = true →
      Canonical (UnpackedFloat.round .binary64 s N E) := by
    intro s N hN hfin
    by_cases hT : -1021 ≤ totalExponent N E
    · obtain ⟨F, e, hF, heq, hlo, hhi, he⟩ := round_normal s hN hT
      rw [heq] at hfin ⊢
      refine .normal s F e hF hlo hhi (by omega) ?_
      by_contra hlarge
      rw [isFinite_pack_of_large (by omega)] at hfin
      exact Bool.false_ne_true hfin
    · rw [round_subnormal s hN hE (by omega)]
      refine .subnormal s _ _ (mul_two_pow_lt ?_)
      simp only [totalExponent] at hT
      omega
  unfold UnpackedFloat.normalize at hfin ⊢
  split
  · rename_i hlt
    simp only [hlt] at hfin
    exact hround .negative (by have := Int.compare_eq_lt.1 hlt; omega) hfin
  · exact .zero .positive
  · rename_i hgt
    simp only [hgt] at hfin
    exact hround .positive (by have := Int.compare_eq_gt.1 hgt; omega) hfin

theorem Canonical.lower {u : UnpackedFloat} (hu : Canonical u) (hh : halvesExactly u = true) :
    Canonical (lower u) := by
  cases hu with
  | subnormal s m h hm => simp [halvesExactly] at hh
  | normal s m e h hlo hhi helo hehi =>
    simp only [halvesExactly, decide_eq_true_eq] at hh
    exact .normal s m (e - 1) h hlo hhi (by omega) (by omega)
  | notANumber => exact .notANumber
  | infinity s => exact .infinity s
  | zero s => exact .zero s

/-- Halving a value that halves exactly lowers its exponent and keeps every other value. -/
theorem mul_half {u : UnpackedFloat} (hu : Canonical u) (hh : halvesExactly u = true) :
    UnpackedFloat.mul .binary64 (.finite .positive (2 ^ 52) (-53) (Nat.two_pow_pos 52)) u = lower u := by
  cases hu with
  | subnormal s m h hm => simp [halvesExactly] at hh
  | normal s m e h hlo hhi helo hehi =>
    simp only [halvesExactly, decide_eq_true_eq] at hh
    exact mul_half_of_normal (.normal s m e h hlo hhi helo hehi) hh
  | notANumber => rfl
  | infinity s => cases s <;> rfl
  | zero s => cases s <;> rfl

/-- A sum of canonical values that does not overflow is canonical. -/
theorem canonical_add {u v : UnpackedFloat} (hu : Canonical u) (hv : Canonical v)
    (hfin : u.isFinite = true → v.isFinite = true →
      (Float.ofModel (Float.Model.pack (UnpackedFloat.add .binary64 u v))).isFinite = true) :
    Canonical (UnpackedFloat.add .binary64 u v) := by
  cases u with
  | notANumber => exact .notANumber
  | infinity s =>
    cases v with
    | infinity t =>
      simp only [UnpackedFloat.add]
      split
      · exact .infinity s
      · exact .notANumber
    | notANumber => exact .notANumber
    | _ => exact .infinity s
  | zero s =>
    cases v with
    | zero t =>
      simp only [UnpackedFloat.add]
      split
      · exact .zero s
      · exact .zero .positive
    | _ => exact hv
  | finite s m e h =>
    cases v with
    | finite t n f hn =>
      have he := (finite_bounds hu).2
      have hf := (finite_bounds hv).2
      exact canonical_normalize _ (le_min he hf) (hfin rfl rfl)
    | zero t => exact hu
    | infinity t => exact .infinity t
    | notANumber => exact .notANumber

/-- Halving a sum that does not overflow gives the sum of the halves. -/
theorem mul_half_add {u v : UnpackedFloat} (hu : Canonical u) (hv : Canonical v)
    (hu' : halvesExactly u = true) (hv' : halvesExactly v = true)
    (hfin : u.isFinite = true → v.isFinite = true →
      (Float.ofModel (Float.Model.pack (UnpackedFloat.add .binary64 u v))).isFinite = true) :
    UnpackedFloat.mul .binary64 (.finite .positive (2 ^ 52) (-53) (Nat.two_pow_pos 52))
        (Float.ofModel (Float.Model.pack (UnpackedFloat.add .binary64 u v))).toModel.unpack =
      UnpackedFloat.add .binary64 (lower u) (lower v) := by
  rw [Float.unpack_ofModel_pack (canonical_add hu hv hfin)]
  cases hu with
  | subnormal s m h hm => simp [halvesExactly] at hu'
  | notANumber => rfl
  | infinity s =>
    cases hv with
    | subnormal t n hn _ => simp [halvesExactly] at hv'
    | notANumber => rfl
    | infinity t => cases s <;> cases t <;> rfl
    | zero t => cases s <;> rfl
    | normal t n f hn _ _ _ _ => cases s <;> rfl
  | zero s =>
    cases hv with
    | subnormal t n hn _ => simp [halvesExactly] at hv'
    | notANumber => rfl
    | infinity t => cases t <;> rfl
    | zero t => cases s <;> cases t <;> rfl
    | normal t n f hn hlo hhi helo hehi => exact mul_half (.normal t n f hn hlo hhi helo hehi) hv'
  | normal s m e h hlo hhi helo hehi =>
    cases hv with
    | subnormal t n hn _ => simp [halvesExactly] at hv'
    | notANumber => rfl
    | infinity t => cases t <;> rfl
    | zero t => exact mul_half (.normal s m e h hlo hhi helo hehi) hu'
    | normal t n f hn _ _ _ _ =>
      simp only [halvesExactly, decide_eq_true_eq] at hu' hv'
      obtain ⟨hadd, hlow⟩ := add_lower s m e h t n f hn
      have hsum := hfin rfl rfl
      rw [hadd] at hsum ⊢
      rw [lower, lower, hlow]
      exact mul_half_normalize _ (by omega) (canonical_normalize _ (by omega) hsum)

/-- A value that halves exactly is the sum of its two halves. -/
theorem add_lower_self {u : UnpackedFloat} (hu : Canonical u) (hh : halvesExactly u = true) :
    UnpackedFloat.add .binary64 (lower u) (lower u) = u := by
  cases hu with
  | subnormal s m h hm => simp [halvesExactly] at hh
  | notANumber => rfl
  | infinity s => cases s <;> rfl
  | zero s => cases s <;> rfl
  | normal s m e h hlo hhi helo hehi =>
    have ht : Format.binary64.targetExponent (totalExponent m e) = e :=
      targetExponent_of_canonical (.normal s m e h hlo hhi helo hehi)
    have hdouble : UnpackedFloat.round .binary64 s (m * 2 ^ 1) (e - ((1 : Nat) : Int)) = .finite s m e h := by
      have ht' : Format.binary64.targetExponent (totalExponent (m * 2 ^ 1) (e - ((1 : Nat) : Int))) = e := by
        rw [totalExponent_scaled h, ht]
      simp only [UnpackedFloat.round, decreaseExponent, ht', Nat.shiftLeft_eq]
      rw [show (e - ((1 : Nat) : Int) - e).toNat = 0 by omega, Nat.pow_zero, Nat.mul_one, Nat.cast_zero,
        Int.sub_zero]
      exact roundWithAccuracy_scaled s h ht 1
    obtain ⟨-, hlow⟩ := add_lower s m e h s m e h
    rw [lower, hlow]
    simp only [min_self, Int.sub_self, Int.toNat_zero, Nat.shiftLeft_zero]
    cases s with
    | positive =>
      simp only [Sign.apply, UnpackedFloat.normalize]
      rw [show compare ((m : Int) + m) 0 = .gt from Int.compare_eq_gt.2 (by omega)]
      dsimp only
      rw [show ((m : Int) + m).toNat = m * 2 ^ 1 by omega, show e - 1 = e - ((1 : Nat) : Int) by omega]
      exact hdouble
    | negative =>
      simp only [Sign.apply, UnpackedFloat.normalize]
      rw [show compare (-(m : Int) + -m) 0 = .lt from Int.compare_eq_lt.2 (by omega)]
      dsimp only
      rw [show (-(-(m : Int) + -m)).toNat = m * 2 ^ 1 by omega, show e - 1 = e - ((1 : Nat) : Int) by omega]
      exact hdouble

theorem lower_eq_zero_iff {u : UnpackedFloat} {s : Sign} : lower u = .zero s ↔ u = .zero s := by
  cases u <;> simp [lower]

end Unpacked

namespace Float

open Float.Model Float.Model.UnpackedFloat

/-- A sufficient condition for `0.5 * x` to be exact: `x` is not a finite float below `2^-1021` in
magnitude. -/
def halvesExactly (x : Float) : Bool := Unpacked.halvesExactly x.toModel.unpack

theorem unpack_half_mul {x : Float} (hx : halvesExactly x = true) :
    (0.5 * x).toModel.unpack = Unpacked.lower x.toModel.unpack := by
  have hc := canonical_unpack x
  rw [mul_eq_ofModel, Unpacked.unpack_half, Unpacked.mul_half hc hx, unpack_ofModel_pack (hc.lower hx)]

theorem isZero_half_mul_iff {x : Float} (hx : halvesExactly x = true) : IsZero (0.5 * x) ↔ IsZero x := by
  simp only [isZero_iff, unpack_half_mul hx, Unpacked.lower_eq_zero_iff]

/-- Halving distributes over a sum of floats that halve exactly, unless the sum overflows. -/
theorem half_mul_add {x y : Float} (hx : halvesExactly x = true) (hy : halvesExactly y = true)
    (hsum : x.isFinite = true → y.isFinite = true → (x + y).isFinite = true) :
    0.5 * (x + y) = 0.5 * x + 0.5 * y := by
  rw [mul_eq_ofModel, add_eq_ofModel x y, Unpacked.unpack_half,
    Unpacked.mul_half_add (canonical_unpack x) (canonical_unpack y) hx hy hsum, add_eq_ofModel,
    unpack_half_mul hx, unpack_half_mul hy]

theorem half_mul_add_self {x : Float} (hx : halvesExactly x = true) : 0.5 * x + 0.5 * x = x := by
  rw [add_eq_ofModel, unpack_half_mul hx, Unpacked.add_lower_self (canonical_unpack x) hx,
    ofModel_pack_unpack]

theorem negZero_add (y : Float) : -0.0 + y = y := by
  have hadd : UnpackedFloat.add .binary64 (.zero .negative) y.toModel.unpack = y.toModel.unpack := by
    cases y.toModel.unpack with
    | zero t => cases t <;> rfl
    | _ => rfl
  rw [add_eq_ofModel, show (-0.0 : Float).toModel.unpack = .zero .negative from rfl, hadd,
    ofModel_pack_unpack]

theorem ne_negZero_of_not_isZero {x : Float} (hx : ¬IsZero x) : x ≠ -0.0 := fun h => hx (.inr h)

theorem posZero_add_ne_negZero (x : Float) : 0.0 + x ≠ -0.0 :=
  add_ne_negZero (by decide) x

theorem add_of_isZero {z y : Float} (hz : IsZero z) (hy : ¬IsZero y) : z + y = y := by
  rcases hz with rfl | rfl
  · exact posZero_add (ne_negZero_of_not_isZero hy)
  · exact negZero_add y

/-! Adding into `0.0` turns `-0.0` into `0.0`; it commutes with sums and with exact halving. -/

theorem posZero_add_posZero_add (x : Float) : 0.0 + (0.0 + x) = 0.0 + x :=
  posZero_add (posZero_add_ne_negZero x)

theorem posZero_add_add (x y : Float) : 0.0 + (x + y) = (0.0 + x) + (0.0 + y) := by
  by_cases hx : IsZero x
  · by_cases hy : IsZero y
    · rcases hx with rfl | rfl <;> rcases hy with rfl | rfl <;> decide
    · rw [add_of_isZero hx hy, posZero_add_isZero hx, posZero_add_posZero_add]
  · have hx' := ne_negZero_of_not_isZero hx
    by_cases hy : IsZero y
    · rw [add_zero_of_ne_negZero hx' hy, posZero_add_isZero hy,
        add_zero_of_ne_negZero (posZero_add_ne_negZero x) (.inl rfl)]
    · rw [posZero_add (add_ne_negZero hx' y), posZero_add hx', posZero_add (ne_negZero_of_not_isZero hy)]

/-- A zero added to a float, on either side, changes nothing once the sum is added into `0.0`. -/
theorem posZero_add_add_zero {z : Float} (hz : IsZero z) (x : Float) : 0.0 + (x + z) = 0.0 + x := by
  rw [posZero_add_add, posZero_add_isZero hz]
  exact add_zero_of_ne_negZero (posZero_add_ne_negZero x) (.inl rfl)

theorem posZero_add_zero_add {z : Float} (hz : IsZero z) (x : Float) : 0.0 + (z + x) = 0.0 + x := by
  rw [posZero_add_add, posZero_add_isZero hz, posZero_add_posZero_add]

theorem posZero_add_half_mul {x : Float} (hx : halvesExactly x = true) :
    0.0 + 0.5 * x = 0.5 * (0.0 + x) := by
  rw [posZero_add_eq_ite, posZero_add_eq_ite x]
  by_cases hzero : IsZero x
  · rw [if_pos (beq_zero_iff.2 ((isZero_half_mul_iff hx).2 hzero)), if_pos (beq_zero_iff.2 hzero)]
    decide
  · rw [if_neg (mt beq_zero_iff.1 (mt (isZero_half_mul_iff hx).1 hzero)), if_neg (mt beq_zero_iff.1 hzero)]

theorem halvesExactly_zero : halvesExactly 0.0 = true := rfl

theorem halvesExactly_posZero_add {x : Float} (hx : halvesExactly x = true) :
    halvesExactly (0.0 + x) = true := by
  rw [posZero_add_eq_ite]
  split
  · exact halvesExactly_zero
  · exact hx

theorem isFinite_posZero_add (x : Float) : (0.0 + x).isFinite = x.isFinite := by
  rw [posZero_add_eq_ite]
  split
  · rename_i hzero
    obtain ⟨s, hs⟩ := isZero_iff.1 (beq_zero_iff.1 hzero)
    rw [isFinite_eq x, hs]
    rfl
  · rfl

/-- The two halves of a pair summed and added into `0.0` give half the sum of the pair added into
`0.0` term by term, when each halves exactly and the sum does not overflow. -/
theorem posZero_add_half_add {x y : Float} (hx : halvesExactly x = true) (hy : halvesExactly y = true)
    (hsum : x.isFinite = true → y.isFinite = true → (x + y).isFinite = true) :
    0.0 + (0.5 * x + 0.5 * y) = 0.5 * ((0.0 + x) + (0.0 + y)) := by
  have hsum' : (0.0 + x).isFinite = true → (0.0 + y).isFinite = true →
      ((0.0 + x) + (0.0 + y)).isFinite = true := by
    rw [isFinite_posZero_add, isFinite_posZero_add, ← posZero_add_add, isFinite_posZero_add]
    exact hsum
  rw [posZero_add_add, posZero_add_half_mul hx, posZero_add_half_mul hy,
    half_mul_add (halvesExactly_posZero_add hx) (halvesExactly_posZero_add hy) hsum']

end Float

end ConvexQp
