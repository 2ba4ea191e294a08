import Mathlib
import ConvexQp.Binary64.Basic
/-! Binary64 addition and multiplication at zeros, ones, infinities and NaN, proved from Lean's
model of floats, which unpacks, computes exactly, rounds to nearest even and packs. -/

namespace ConvexQp

namespace Unpacked

open Float.Model Float.Model.UnpackedFloat

/-! ### Canonical values and the two round trips -/

/-- The unpacked floats that reading a bit pattern gives: NaN, an infinity, a zero, or a finite
value with the mantissa and exponent of a subnormal or a normal binary64 number. -/
inductive Canonical : UnpackedFloat → Prop
  | notANumber : Canonical .notANumber
  | infinity (s : Sign) : Canonical (.infinity s)
  | zero (s : Sign) : Canonical (.zero s)
  | subnormal (s : Sign) (m : Nat) (h : 0 < m) (hm : m < 2 ^ 52) :
      Canonical (.finite s m (-1074) h)
  | normal (s : Sign) (m : Nat) (e : Int) (h : 0 < m) (hlo : 2 ^ 52 ≤ m) (hhi : m < 2 ^ 53)
      (helo : -1074 ≤ e) (hehi : e ≤ 971) : Canonical (.finite s m e h)

theorem bias_binary64 : ((Format.binary64.exponentBias : Nat) : Int) = 1023 := rfl

theorem mantissaBits_binary64 : Format.binary64.mantissaBits = 53 := rfl

theorem targetExponent_binary64 (t : Int) : Format.binary64.targetExponent t = max (t - 53) (-1074) :=
  rfl

theorem toNat_one_append {w : Nat} (v : BitVec w) : (1#1 ++ v).toNat = 2 ^ w + v.toNat := by
  rw [BitVec.toNat_append, ← Nat.shiftLeft_add_eq_or_of_lt v.isLt]
  simp [Nat.shiftLeft_eq]

theorem canonical_unpack (b : BitVec Format.binary64.numBits) :
    Canonical (unpack .binary64 b) := by
  have hmb : ((Format.binary64.mantissaBitsWithoutImplicit : Nat) : Int) = 52 := rfl
  rw [UnpackedFloat.unpack]
  split
  · split
    · exact .infinity _
    · exact .notANumber
  · rename_i hnotinf
    split
    · rename_i hzero
      split
      · exact .zero _
      · have hexp : (unpackExponent b).toNat = 0 := by simp [hzero]
        have he : ((unpackExponent b).toNat : Int) - ((Format.binary64.exponentBias : Nat) +
            (Format.binary64.mantissaBitsWithoutImplicit : Nat)) + 1 = -1074 := by
          rw [hexp, bias_binary64, hmb]; omega
        rw [he]
        exact .subnormal _ _ _ (unpackMantissa b).isLt
    · rename_i hnonzero
      have hm : (unpackMantissa b).toNat < 2 ^ 52 := (unpackMantissa b).isLt
      have happ : (1#1 ++ unpackMantissa b).toNat = 2 ^ 52 + (unpackMantissa b).toNat :=
        toNat_one_append _
      have hlt : (unpackExponent b).toNat < 2048 := (unpackExponent b).isLt
      simp [BitVec.toNat_eq] at hnotinf hnonzero
      refine .normal _ _ _ _ (by omega) (by omega) ?_ ?_ <;> rw [bias_binary64, hmb] <;> omega

theorem unpackSign_packComponents (s : Sign) (e : BitVec 11) (m : BitVec 52) :
    Sign.ofBitVec (unpackSign (packComponents .binary64 s e m)) = s := by
  simp only [unpackSign, packComponents, BitVec.extractLsb]
  rw [BitVec.extractLsb'_append_eq_of_le (by omega), BitVec.extractLsb'_append_eq_of_le (by omega)]
  cases s <;> rfl

theorem log2_of_normal {m : Nat} (hlo : 2 ^ 52 ≤ m) (hhi : m < 2 ^ 53) : m.log2 = 52 :=
  (Nat.log2_eq_iff (by omega)).2 ⟨hlo, hhi⟩

theorem log2_lt_of_subnormal {m : Nat} (hm : m < 2 ^ 52) : m.log2 < 52 := by
  rcases Nat.eq_zero_or_pos m with rfl | hpos
  · simp
  · exact (Nat.log2_lt (by omega)).2 hm

/-- Packing a canonical value and reading the bits back gives the value again. -/
theorem unpack_pack_of_canonical {u : UnpackedFloat} (h : Canonical u) :
    unpack .binary64 (UnpackedFloat.pack .binary64 u) = u := by
  cases h with
  | notANumber => rfl
  | infinity s => cases s <;> rfl
  | zero s => cases s <;> rfl
  | subnormal s m hpos hm =>
    have hlog := log2_lt_of_subnormal hm
    have hm52 : (BitVec.ofNat 52 m).toNat = m := by simp [BitVec.toNat_ofNat]; omega
    have hne : BitVec.ofNat 52 m ≠ 0#52 := by
      intro h0
      have := congrArg BitVec.toNat h0
      rw [hm52] at this
      simp at this
      omega
    rw [UnpackedFloat.pack, if_neg (by decide), if_neg (by rw [mantissaBits_binary64]; omega), UnpackedFloat.unpack]
    simp only [unpackMantissa_packComponents, unpackExponent_packComponents,
      unpackSign_packComponents]
    rw [if_neg (by decide), if_pos trivial, dif_neg hne]
    simp [hm52, bias_binary64]
  | normal s m e hpos hlo hhi helo hehi =>
    have hlog := log2_of_normal hlo hhi
    have hbiased : (e + (Format.binary64.exponentBias : Nat) +
        (Format.binary64.mantissaBitsWithoutImplicit : Nat)).toNat = (e + 1075).toNat := by
      have hmb : ((Format.binary64.mantissaBitsWithoutImplicit : Nat) : Int) = 52 := rfl
      rw [bias_binary64, hmb]
      omega
    have hfield : (BitVec.ofNat 11 (e + 1075).toNat).toNat = (e + 1075).toNat := by
      simp [BitVec.toNat_ofNat]; omega
    have hne1 : BitVec.ofNat 11 (e + 1075).toNat ≠ -1#11 := by
      intro h1
      have := congrArg BitVec.toNat h1
      rw [hfield] at this
      simp at this
      omega
    have hne0 : BitVec.ofNat 11 (e + 1075).toNat ≠ 0#11 := by
      intro h0
      have := congrArg BitVec.toNat h0
      rw [hfield] at this
      simp at this
      omega
    have hmant : (1#1 ++ BitVec.ofNat 52 m).toNat = m := by
      rw [toNat_one_append, BitVec.toNat_ofNat]
      omega
    have hroom : ¬ 2 ^ Format.binary64.exponentBits ≤ (e + (Format.binary64.exponentBias : Nat) +
        (Format.binary64.mantissaBitsWithoutImplicit : Nat)).toNat + 1 := by
      rw [hbiased]
      change ¬ 2048 ≤ _
      omega
    simp only [UnpackedFloat.pack, if_neg hroom, hlog]
    rw [if_pos (by rw [mantissaBits_binary64]), UnpackedFloat.unpack]
    simp only [unpackMantissa_packComponents, unpackExponent_packComponents,
      unpackSign_packComponents]
    have hE : e + ((Format.binary64.exponentBias : Nat) : Int) + ((52 : Nat) : Int) = e + 1075 := by
      rw [bias_binary64]
      omega
    rw [hE, if_neg hne1, if_neg hne0]
    congr 1
    rw [hfield, bias_binary64]
    omega

theorem toBitVec_ofBitVec (v : BitVec 1) : (Sign.ofBitVec v).toBitVec = v := by
  revert v
  decide

/-- The sign bit, the exponent field and the mantissa field of a word put back together. -/
theorem packComponents_fields (b : BitVec Format.binary64.numBits) :
    packComponents .binary64 (Sign.ofBitVec (unpackSign b)) (unpackExponent b) (unpackMantissa b) = b := by
  simp only [packComponents, toBitVec_ofBitVec, unpackSign, unpackExponent, unpackMantissa,
    BitVec.extractLsb]
  ext i hi
  grind

theorem packComponents_eq_of_fields {b : BitVec Format.binary64.numBits} {e : BitVec 11} {m : BitVec 52}
    (he : unpackExponent b = e) (hm : unpackMantissa b = m) :
    packComponents .binary64 (Sign.ofBitVec (unpackSign b)) e m = b := by
  subst he hm
  exact packComponents_fields b

/-- Reading a valid word and packing the value again gives the word back; validity rules out a NaN
with a payload other than the one NaN the model keeps. -/
theorem pack_unpack_of_valid {b : BitVec Format.binary64.numBits} (hv : Format.binary64.Valid b) :
    UnpackedFloat.pack .binary64 (unpack .binary64 b) = b := by
  have hmb : ((Format.binary64.mantissaBitsWithoutImplicit : Nat) : Int) = 52 := rfl
  have hm : (unpackMantissa b).toNat < 2 ^ 52 := (unpackMantissa b).isLt
  have hlt : (unpackExponent b).toNat < 2048 := (unpackExponent b).isLt
  rw [UnpackedFloat.unpack]
  split
  · rename_i hinf
    split
    · rename_i hzero
      exact packComponents_eq_of_fields hinf hzero
    · rename_i hnan
      exact (hv.eq_packedNaN hinf hnan).symm
  · rename_i hnotinf
    split
    · rename_i hexp0
      split
      · rename_i hzero
        exact packComponents_eq_of_fields hexp0 hzero
      · rename_i hnonzero
        have hexp : (unpackExponent b).toNat = 0 := by simp [hexp0]
        have hbiased : (((unpackExponent b).toNat : Int) - ((Format.binary64.exponentBias : Nat) +
            (Format.binary64.mantissaBitsWithoutImplicit : Nat)) + 1 +
            (Format.binary64.exponentBias : Nat) +
            (Format.binary64.mantissaBitsWithoutImplicit : Nat)).toNat = 1 := by
          rw [hexp, bias_binary64, hmb]
          omega
        have hlog : ¬(unpackMantissa b).toNat.log2 + 1 = Format.binary64.mantissaBits := by
          have := log2_lt_of_subnormal hm
          rw [mantissaBits_binary64]
          omega
        rw [UnpackedFloat.pack]
        simp only [hbiased]
        rw [if_neg (by decide), if_neg hlog]
        refine packComponents_eq_of_fields hexp0 ?_
        rw [BitVec.ofNat_toNat, BitVec.setWidth_eq]
    · rename_i hnonzero
      have hne : (unpackExponent b).toNat ≠ 2047 := fun h => hnotinf (BitVec.toNat_inj.1 (by simpa using h))
      have hnz : (unpackExponent b).toNat ≠ 0 := fun h => hnonzero (BitVec.toNat_inj.1 (by simpa using h))
      have happ : (1#1 ++ unpackMantissa b).toNat = 2 ^ 52 + (unpackMantissa b).toNat :=
        toNat_one_append _
      have hbiased : (((unpackExponent b).toNat : Int) - ((Format.binary64.exponentBias : Nat) +
          (Format.binary64.mantissaBitsWithoutImplicit : Nat)) + (Format.binary64.exponentBias : Nat) +
          (Format.binary64.mantissaBitsWithoutImplicit : Nat)).toNat = (unpackExponent b).toNat := by
        rw [bias_binary64, hmb]
        omega
      have hlog : (1#1 ++ unpackMantissa b).toNat.log2 + 1 = Format.binary64.mantissaBits := by
        rw [log2_of_normal (by omega) (by omega)]
        rfl
      rw [UnpackedFloat.pack]
      simp only [hbiased]
      rw [if_neg (by change ¬ 2048 ≤ _; omega), if_pos hlog]
      refine packComponents_eq_of_fields ?_ ?_
      · rw [BitVec.ofNat_toNat, BitVec.setWidth_eq]
      · apply BitVec.eq_of_toNat_eq
        rw [BitVec.toNat_ofNat, happ]
        change _ = (2 ^ 52 + (unpackMantissa b).toNat) % 2 ^ 52
        omega

/-! ### Rounding -/

theorem mantissa_shiftRight (k : Nat) (em : ExtendedMantissa) :
    (em >>> k).mantissa = em.mantissa / 2 ^ k := by
  induction k generalizing em with
  | zero => simp [HShiftRight.hShiftRight, Nat.repeat]
  | succ k ih =>
    show (ExtendedMantissa.shiftRightOne (em >>> k)).mantissa = _
    rw [ExtendedMantissa.shiftRightOne, ih, Nat.div_div_eq_div_mul, Nat.pow_succ]

theorem mantissa_ofMantissaAndAccuracy (m : Nat) (a : Accuracy) :
    (ExtendedMantissa.ofMantissaAndAccuracy m a).mantissa = m := by
  cases a with
  | exact => rfl
  | inexact o => cases o <;> rfl

theorem le_roundToNearestEven (m : Nat) (a : Accuracy) : m ≤ a.roundToNearestEven m := by
  cases a with
  | exact => exact Nat.le_refl m
  | inexact o => cases o <;> simp [Accuracy.roundToNearestEven]

/-- Shifting a positive mantissa, at an exponent from the least one up, to its target exponent
leaves a positive mantissa below `2^53`. -/
theorem shift_bounds {M : Nat} (hM : 0 < M) {E : Int} (hE : -1074 ≤ E) :
    0 < M / 2 ^ (Format.binary64.targetExponent (totalExponent M E) - E).toNat ∧
      M / 2 ^ (Format.binary64.targetExponent (totalExponent M E) - E).toNat < 2 ^ 53 := by
  rw [targetExponent_binary64, totalExponent]
  have hlo := Nat.log2_self_le (Nat.ne_of_gt hM)
  have hhi := @Nat.lt_log2_self M
  generalize M.log2 = L at *
  by_cases hL : 52 ≤ L
  · have hk : (max ((L : Int) + 1 + E - 53) (-1074) - E).toNat = L - 52 := by omega
    have hsplit : 2 ^ L = 2 ^ 52 * 2 ^ (L - 52) := by
      rw [← Nat.pow_add]
      congr 1
      omega
    have hsplit' : 2 ^ (L + 1) = 2 ^ 53 * 2 ^ (L - 52) := by
      rw [← Nat.pow_add]
      congr 1
      omega
    rw [hk]
    constructor
    · apply Nat.div_pos _ (Nat.two_pow_pos _)
      calc 2 ^ (L - 52) ≤ 2 ^ 52 * 2 ^ (L - 52) := Nat.le_mul_of_pos_left _ (Nat.two_pow_pos _)
        _ = 2 ^ L := hsplit.symm
        _ ≤ M := hlo
    · rw [Nat.div_lt_iff_lt_mul (Nat.two_pow_pos _), ← hsplit']
      exact hhi
  · have hk : (max ((L : Int) + 1 + E - 53) (-1074) - E).toNat = 0 := by omega
    rw [hk, Nat.pow_zero, Nat.div_one]
    exact ⟨hM, Nat.lt_of_lt_of_le hhi (Nat.pow_le_pow_right (by decide) (by omega))⟩

/-- Rounding a positive mantissa gives a finite value, never a zero, with a mantissa below `2^53`
and an exponent from the least one up. -/
theorem roundWithAccuracy_finite (s : Sign) {M : Nat} (hM : 0 < M) {E : Int} (hE : -1074 ≤ E)
    (a : Accuracy) :
    ∃ F E' h, roundWithAccuracy .binary64 s M E a = .finite s F E' h ∧ F < 2 ^ 53 ∧ -1074 ≤ E' := by
  obtain ⟨hpos, -⟩ := shift_bounds hM hE
  unfold roundWithAccuracy shiftToTargetExponent shiftToExponent
  simp only [mantissa_shiftRight, mantissa_ofMantissaAndAccuracy]
  generalize hk : (Format.binary64.targetExponent (totalExponent M E) - E).toNat = k at *
  generalize hR : ExtendedMantissa.roundedMantissa _ = R
  have hRpos : 0 < R := by
    rw [← hR, ExtendedMantissa.roundedMantissa, mantissa_shiftRight, mantissa_ofMantissaAndAccuracy]
    exact Nat.lt_of_lt_of_le hpos (le_roundToNearestEven _ _)
  obtain ⟨hFpos, hF⟩ := shift_bounds hRpos (E := E + k) (by omega)
  split
  · omega
  · exact ⟨_, _, hFpos, rfl, hF, by omega⟩

theorem round_finite (s : Sign) {M : Nat} (hM : 0 < M) {E : Int} (hE : -1074 ≤ E) :
    ∃ F E' h, UnpackedFloat.round .binary64 s M E = .finite s F E' h ∧ F < 2 ^ 53 ∧ -1074 ≤ E' := by
  unfold UnpackedFloat.round decreaseExponent
  apply roundWithAccuracy_finite
  · rw [Nat.shiftLeft_eq]
    exact Nat.mul_pos hM (Nat.two_pow_pos _)
  · rw [targetExponent_binary64]
    omega

/-- A finite value with a mantissa below `2^53` and an exponent from the least one up is not packed
into the bits of a zero. -/
theorem pack_finite_ne_packedZero (s s' : Sign) {F : Nat} {E : Int} (h : 0 < F) (hF : F < 2 ^ 53)
    (hE : -1074 ≤ E) :
    UnpackedFloat.pack .binary64 (.finite s F E h) ≠ packedZero .binary64 s' := by
  intro heq
  unfold UnpackedFloat.pack at heq
  simp only at heq
  split at heq
  · have := congrArg unpackExponent heq
    simp only [packedInfinity, packedZero, unpackExponent_packComponents] at this
    exact absurd this (by decide)
  · split at heq
    · rename_i hroom hnormal
      have hfield := congrArg (fun w => (unpackExponent w).toNat) heq
      simp only [packedZero, unpackExponent_packComponents, BitVec.toNat_ofNat] at hfield
      rw [mantissaBits_binary64] at hnormal
      change _ % 2048 = 0 at hfield
      simp only [Format.binary64] at hroom hfield
      rw [bias_binary64] at hroom hfield
      omega
    · rename_i hsub
      have hfield := congrArg (fun w => (unpackMantissa w).toNat) heq
      simp only [packedZero, unpackMantissa_packComponents, BitVec.toNat_ofNat] at hfield
      rw [mantissaBits_binary64] at hsub
      have hlog : F.log2 < 53 := (Nat.log2_lt (by omega)).2 hF
      have hsmall : F < 2 ^ 52 := (Nat.log2_lt (by omega)).1 (by omega)
      change F % 2 ^ 52 = 0 at hfield
      rw [Nat.mod_eq_of_lt hsmall] at hfield
      omega

/-- The target exponent of a canonical finite value is its own exponent. -/
theorem targetExponent_of_canonical {s : Sign} {m : Nat} {e : Int} {h : 0 < m}
    (hc : Canonical (.finite s m e h)) : Format.binary64.targetExponent (totalExponent m e) = e := by
  rw [targetExponent_binary64, totalExponent]
  cases hc with
  | subnormal _ _ _ hm =>
    have := log2_lt_of_subnormal hm
    omega
  | normal _ _ _ _ hlo hhi helo =>
    rw [log2_of_normal hlo hhi]
    omega

/-- Shifting out `k` zero bits is exact. -/
theorem shiftRight_scaled (m k : Nat) :
    ExtendedMantissa.ofMantissaAndAccuracy (m * 2 ^ k) .exact >>> k =
      ExtendedMantissa.ofMantissaAndAccuracy m .exact := by
  induction k generalizing m with
  | zero => simp [ExtendedMantissa.ofMantissaAndAccuracy]; rfl
  | succ k ih =>
    show ExtendedMantissa.shiftRightOne (ExtendedMantissa.ofMantissaAndAccuracy (m * 2 ^ (k + 1)) .exact >>> k) = _
    rw [show m * 2 ^ (k + 1) = (m * 2) * 2 ^ k by rw [Nat.pow_succ]; ring, ih]
    simp [ExtendedMantissa.shiftRightOne, ExtendedMantissa.ofMantissaAndAccuracy]

theorem log2_mul_two_pow {m : Nat} (hm : 0 < m) (k : Nat) : (m * 2 ^ k).log2 = m.log2 + k := by
  have hlo := Nat.log2_self_le hm.ne'
  have hhi := @Nat.lt_log2_self m
  refine (Nat.log2_eq_iff (Nat.mul_ne_zero hm.ne' (Nat.two_pow_pos k).ne')).2 ⟨?_, ?_⟩
  · rw [Nat.pow_add]
    exact Nat.mul_le_mul_right _ hlo
  · rw [show m.log2 + k + 1 = (m.log2 + 1) + k by omega, Nat.pow_add]
    exact Nat.mul_lt_mul_of_pos_right hhi (Nat.two_pow_pos k)

theorem totalExponent_scaled {m : Nat} (hm : 0 < m) (k : Nat) (e : Int) :
    totalExponent (m * 2 ^ k) (e - k) = totalExponent m e := by
  rw [totalExponent, totalExponent, log2_mul_two_pow hm]
  push_cast
  ring

/-- A value that is already rounded, written with `k` more zero bits, rounds to itself. -/
theorem roundWithAccuracy_scaled (s : Sign) {m : Nat} (hm : 0 < m) {e : Int}
    (ht : Format.binary64.targetExponent (totalExponent m e) = e) (k : Nat) :
    roundWithAccuracy .binary64 s (m * 2 ^ k) (e - k) .exact = .finite s m e hm := by
  have hfirst : shiftToTargetExponent .binary64 (m * 2 ^ k) (e - k) .exact =
      (ExtendedMantissa.ofMantissaAndAccuracy m .exact, e) := by
    rw [shiftToTargetExponent, totalExponent_scaled hm, ht, shiftToExponent]
    rw [show (e - (e - k)).toNat = k by omega, shiftRight_scaled]
    congr 1
    omega
  have hsecond : shiftToTargetExponent .binary64 m e .exact =
      (ExtendedMantissa.ofMantissaAndAccuracy m .exact, e) := by
    rw [shiftToTargetExponent, ht, shiftToExponent, show (e - e).toNat = 0 by omega]
    simp only [Nat.cast_zero, Int.add_zero]
    rfl
  have hround : (ExtendedMantissa.ofMantissaAndAccuracy m .exact).roundedMantissa = m := rfl
  rw [roundWithAccuracy, hfirst]
  simp only [hround, hsecond, mantissa_ofMantissaAndAccuracy, hm.ne', dite_false]

/-! ### Sums -/

theorem finite_bounds {s : Sign} {m : Nat} {e : Int} {h : 0 < m} (hc : Canonical (.finite s m e h)) :
    m < 2 ^ 53 ∧ -1074 ≤ e := by
  cases hc with
  | subnormal _ _ _ hm => omega
  | normal _ _ _ _ _ hhi helo => exact ⟨hhi, helo⟩

theorem pack_nan_ne_negZero : UnpackedFloat.pack .binary64 .notANumber ≠ packedZero .binary64 .negative := by
  decide

theorem pack_infinity_ne_negZero (s : Sign) :
    UnpackedFloat.pack .binary64 (.infinity s) ≠ packedZero .binary64 .negative := by
  cases s <;> decide

theorem pack_posZero_ne_negZero :
    UnpackedFloat.pack .binary64 (.zero .positive) ≠ packedZero .binary64 .negative := by
  decide

/-- What a sum can be when its first term is not `-0.0`: NaN, an infinity, `+0.0`, or a finite value
with a mantissa below `2^53` and an exponent from the least one up. -/
def SumShape (w : UnpackedFloat) : Prop :=
  w = .notANumber ∨ (∃ s, w = .infinity s) ∨ w = .zero .positive ∨
    ∃ s m e h, w = .finite s m e h ∧ m < 2 ^ 53 ∧ -1074 ≤ e

theorem sumShape_normalize (M : Int) {E : Int} (hE : -1074 ≤ E) :
    SumShape (UnpackedFloat.normalize .binary64 M E .positive) := by
  unfold UnpackedFloat.normalize
  split
  · rename_i hlt
    obtain ⟨F, E', h, heq, hF, hE'⟩ := round_finite .negative (M := (-M).toNat)
      (by have := Int.compare_eq_lt.1 hlt; omega) hE
    exact .inr (.inr (.inr ⟨_, F, E', h, heq, hF, hE'⟩))
  · exact .inr (.inr (.inl rfl))
  · rename_i hgt
    obtain ⟨F, E', h, heq, hF, hE'⟩ := round_finite .positive (M := M.toNat)
      (by have := Int.compare_eq_gt.1 hgt; omega) hE
    exact .inr (.inr (.inr ⟨_, F, E', h, heq, hF, hE'⟩))

theorem sumShape_add {u v : UnpackedFloat} (hu : Canonical u) (hv : Canonical v)
    (hne : u ≠ .zero .negative) : SumShape (UnpackedFloat.add .binary64 u v) := by
  cases hu with
  | notANumber => exact .inl rfl
  | infinity s =>
    cases hv with
    | notANumber => exact .inl rfl
    | infinity t =>
      simp only [UnpackedFloat.add]
      split
      · exact .inr (.inl ⟨s, rfl⟩)
      · exact .inl rfl
    | _ => exact .inr (.inl ⟨s, rfl⟩)
  | zero s =>
    cases s with
    | negative => exact absurd rfl hne
    | positive =>
      cases hv with
      | notANumber => exact .inl rfl
      | infinity t => exact .inr (.inl ⟨t, rfl⟩)
      | zero t => cases t <;> exact .inr (.inr (.inl rfl))
      | subnormal t m h hm => exact .inr (.inr (.inr ⟨t, m, _, h, rfl, by omega, by omega⟩))
      | normal t m e h hlo hhi helo => exact .inr (.inr (.inr ⟨t, m, e, h, rfl, hhi, helo⟩))
  | subnormal s m h hm =>
    cases hv with
    | notANumber => exact .inl rfl
    | infinity t => exact .inr (.inl ⟨t, rfl⟩)
    | zero t => exact .inr (.inr (.inr ⟨s, m, _, h, rfl, by omega, by omega⟩))
    | subnormal t n hn _ => exact sumShape_normalize _ (by omega)
    | normal t n f hn _ _ hf => exact sumShape_normalize _ (by omega)
  | normal s m e h hlo hhi helo =>
    cases hv with
    | notANumber => exact .inl rfl
    | infinity t => exact .inr (.inl ⟨t, rfl⟩)
    | zero t => exact .inr (.inr (.inr ⟨s, m, e, h, rfl, hhi, helo⟩))
    | subnormal t n hn _ => exact sumShape_normalize _ (by omega)
    | normal t n f hn _ _ hf => exact sumShape_normalize _ (by omega)

theorem pack_ne_negZero_of_sumShape {w : UnpackedFloat} (hw : SumShape w) :
    UnpackedFloat.pack .binary64 w ≠ packedZero .binary64 .negative := by
  rcases hw with rfl | ⟨s, rfl⟩ | rfl | ⟨s, m, e, h, rfl, hm, he⟩
  · exact pack_nan_ne_negZero
  · exact pack_infinity_ne_negZero s
  · exact pack_posZero_ne_negZero
  · exact pack_finite_ne_packedZero s .negative h hm he

/-- Adding a zero to a value other than `-0.0` gives the value. -/
theorem add_zero_of_ne {u : UnpackedFloat} (hu : u ≠ .zero .negative) (s : Sign) :
    UnpackedFloat.add .binary64 u (.zero s) = u := by
  cases u with
  | zero t =>
    cases t with
    | negative => exact absurd rfl hu
    | positive => cases s <;> rfl
  | _ => rfl

/-! ### Products -/

theorem sign_mul_comm (s t : Sign) : s * t = t * s := by
  cases s <;> cases t <;> rfl

theorem positive_mul (s : Sign) : Sign.positive * s = s := by
  cases s <;> rfl

theorem mul_comm (u v : UnpackedFloat) : UnpackedFloat.mul .binary64 u v = UnpackedFloat.mul .binary64 v u := by
  cases u <;> cases v <;> simp only [UnpackedFloat.mul, sign_mul_comm]
  case finite.finite s m e hm t n f hn =>
    rw [Nat.mul_comm m n, Int.add_comm e f]

/-- `1` times a canonical value is the value: its product with `2^52` at an exponent `52` lower rounds
back to it. -/
theorem one_mul {u : UnpackedFloat} (hu : Canonical u) :
    UnpackedFloat.mul .binary64 (.finite .positive (2 ^ 52) (-52) (Nat.two_pow_pos 52)) u = u := by
  cases u with
  | finite s m e h =>
    show roundWithAccuracy .binary64 (Sign.positive * s) (2 ^ 52 * m) (-52 + e) .exact = _
    rw [positive_mul, Nat.mul_comm, show (-52 : Int) + e = e - ((52 : Nat) : Int) by omega,
      roundWithAccuracy_scaled s h (targetExponent_of_canonical hu) 52]
  | zero s => cases s <;> rfl
  | infinity s => cases s <;> rfl
  | notANumber => rfl

end Unpacked

namespace Float

open Float.Model Float.Model.UnpackedFloat

theorem add_eq_ofModel (x y : Float) :
    x + y = Float.ofModel (Float.Model.pack (UnpackedFloat.add .binary64 x.toModel.unpack y.toModel.unpack)) :=
  rfl

theorem mul_eq_ofModel (x y : Float) :
    x * y = Float.ofModel (Float.Model.pack (UnpackedFloat.mul .binary64 x.toModel.unpack y.toModel.unpack)) :=
  rfl

theorem neg_eq_ofModel (x : Float) : -x = Float.ofModel (Float.Model.pack x.toModel.unpack.neg) := rfl

theorem canonical_unpack (x : Float) : Unpacked.Canonical x.toModel.unpack :=
  Unpacked.canonical_unpack _

theorem ofModel_pack_unpack (x : Float) : Float.ofModel (Float.Model.pack x.toModel.unpack) = x := by
  obtain ⟨⟨bits, hv⟩⟩ := x
  have h := Unpacked.pack_unpack_of_valid hv
  simp only [Float.Model.pack, Float.Model.unpack, h]

/-- A float is determined by its unpacked value. -/
theorem eq_of_unpack_eq {x y : Float} (h : x.toModel.unpack = y.toModel.unpack) : x = y := by
  rw [← ofModel_pack_unpack x, h, ofModel_pack_unpack]

theorem unpack_ofModel_pack {u : UnpackedFloat} (h : Unpacked.Canonical u) :
    (Float.ofModel (Float.Model.pack u)).toModel.unpack = u :=
  Unpacked.unpack_pack_of_canonical h

/-- A zero of either sign. -/
def IsZero (x : Float) : Prop := x = 0.0 ∨ x = -0.0

theorem eq_negZero_iff {x : Float} : x = -0.0 ↔ x.toModel.unpack = .zero .negative := by
  constructor
  · rintro rfl
    rfl
  · intro h
    exact eq_of_unpack_eq (h.trans rfl)

theorem isZero_iff {x : Float} : IsZero x ↔ ∃ s, x.toModel.unpack = .zero s := by
  constructor
  · rintro (rfl | rfl)
    · exact ⟨.positive, rfl⟩
    · exact ⟨.negative, rfl⟩
  · rintro ⟨s, h⟩
    cases s with
    | negative => exact .inr (eq_of_unpack_eq (h.trans rfl))
    | positive => exact .inl (eq_of_unpack_eq (h.trans rfl))

theorem isZero_ofModel_pack (s : Sign) : IsZero (Float.ofModel (Float.Model.pack (.zero s))) :=
  isZero_iff.2 ⟨s, unpack_ofModel_pack (.zero s)⟩

/-- IEEE equality with `0.0` holds exactly of the two zeros. -/
theorem beq_zero_iff {x : Float} : (x == 0.0) = true ↔ IsZero x := by
  rw [isZero_iff]
  show UnpackedFloat.beq x.toModel.unpack (.zero .positive) = true ↔ _
  cases x.toModel.unpack with
  | zero s => simp [UnpackedFloat.beq, UnpackedFloat.compare]
  | infinity s => cases s <;> simp [UnpackedFloat.beq, UnpackedFloat.compare]
  | finite s m e h => cases s <;> simp [UnpackedFloat.beq, UnpackedFloat.compare]
  | notANumber => simp [UnpackedFloat.beq, UnpackedFloat.compare]

theorem isFinite_eq (x : Float) : x.isFinite = x.toModel.unpack.isFinite := rfl

/-! ### Addition -/

/-- `+0.0` added to a float other than `-0.0` gives the float. -/
theorem posZero_add {v : Float} (hv : v ≠ -0.0) : 0.0 + v = v := by
  have hu : v.toModel.unpack ≠ .zero .negative := fun h => hv (eq_negZero_iff.2 h)
  have hadd : UnpackedFloat.add .binary64 (.zero .positive) v.toModel.unpack = v.toModel.unpack := by
    cases h : v.toModel.unpack with
    | zero s =>
      cases s with
      | negative => exact absurd h hu
      | positive => rfl
    | _ => rfl
  rw [add_eq_ofModel, show (0.0 : Float).toModel.unpack = .zero .positive from rfl, hadd,
    ofModel_pack_unpack]

/-- Adding a zero of either sign to a float other than `-0.0` gives the float. -/
theorem add_zero_of_ne_negZero {a z : Float} (ha : a ≠ -0.0) (hz : IsZero z) : a + z = a := by
  obtain ⟨s, hs⟩ := isZero_iff.1 hz
  have hu : a.toModel.unpack ≠ .zero .negative := fun h => ha (eq_negZero_iff.2 h)
  rw [add_eq_ofModel, hs, Unpacked.add_zero_of_ne hu, ofModel_pack_unpack]

/-- A sum is `-0.0` only if its first term is: rounding to nearest gives `+0.0` to an exact
cancellation and never rounds a sum other than zero to zero. -/
theorem add_ne_negZero {a : Float} (ha : a ≠ -0.0) (b : Float) : a + b ≠ -0.0 := by
  intro h
  have hbits := congrArg (fun x : Float => x.toModel.toBits.toBitVec) h
  have hne : a.toModel.unpack ≠ .zero .negative := fun hz => ha (eq_negZero_iff.2 hz)
  exact Unpacked.pack_ne_negZero_of_sumShape
    (Unpacked.sumShape_add (canonical_unpack a) (canonical_unpack b) hne) hbits

/-! ### Multiplication -/

theorem mul_comm (a b : Float) : a * b = b * a := by
  rw [mul_eq_ofModel, mul_eq_ofModel, Unpacked.mul_comm]

theorem one_mul (x : Float) : 1.0 * x = x := by
  have hone : (1.0 : Float).toModel.unpack = .finite .positive (2 ^ 52) (-52) (Nat.two_pow_pos 52) := rfl
  rw [mul_eq_ofModel, hone, Unpacked.one_mul (canonical_unpack x), ofModel_pack_unpack]

theorem mul_one (x : Float) : x * 1.0 = x := by
  rw [mul_comm, one_mul]

/-- A zero times a finite float is a zero. -/
theorem zero_mul_isZero {z x : Float} (hz : IsZero z) (hx : x.isFinite = true) : IsZero (z * x) := by
  obtain ⟨s, hs⟩ := isZero_iff.1 hz
  rw [isFinite_eq] at hx
  rw [mul_eq_ofModel, hs]
  cases h : x.toModel.unpack with
  | zero t => exact isZero_ofModel_pack _
  | finite t m e hm => exact isZero_ofModel_pack _
  | infinity t =>
    rw [h] at hx
    cases hx
  | notANumber =>
    rw [h] at hx
    cases hx

/-- A zero times an infinity or a NaN is NaN. -/
theorem zero_mul_of_not_finite {z x : Float} (hz : IsZero z) (hx : x.isFinite = false) :
    z * x = Binary64.quietNan := by
  obtain ⟨s, hs⟩ := isZero_iff.1 hz
  rw [isFinite_eq] at hx
  apply eq_of_unpack_eq
  rw [mul_eq_ofModel, hs, show Binary64.quietNan.toModel.unpack = .notANumber from rfl]
  cases h : x.toModel.unpack with
  | infinity t => exact unpack_ofModel_pack .notANumber
  | notANumber => exact unpack_ofModel_pack .notANumber
  | zero t =>
    rw [h] at hx
    cases hx
  | finite t m e hm =>
    rw [h] at hx
    cases hx

end Float

end ConvexQp
