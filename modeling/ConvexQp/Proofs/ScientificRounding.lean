import Mathlib
import ConvexQp.Proofs.DecimalExponent
/-! Scientific notation rounded to nearest: `scientificDigits places m e` is the decimal of
`places + 1` significant digits nearest to `m · 2^e`, a tie going to the even significand. -/

namespace ConvexQp

section RoundHalfEven

variable {a b : ℕ}

theorem roundHalfEven_cases (a b : ℕ) :
    roundHalfEven a b = a / b ∨ roundHalfEven a b = a / b + 1 := by
  unfold roundHalfEven
  dsimp only
  split
  · exact .inr rfl
  · exact .inl rfl

/-- How far the multiple `n · b` is from `a = q · b + r`: `r` for `q`, `b - r` for `q + 1`, and a
whole `b` more for every other. -/
theorem abs_mul_sub_of_quotient {q r : ℕ} (ha : a = q * b + r) (hr : r < b) (n : ℕ) :
    (n = q → |(n * b : ℤ) - a| = r) ∧
    (n = q + 1 → |(n * b : ℤ) - a| = b - r) ∧
    (n < q → (b + r : ℤ) ≤ |(n * b : ℤ) - a|) ∧
    (q + 2 ≤ n → (2 * b - r : ℤ) ≤ |(n * b : ℤ) - a|) := by
  subst ha
  have hrb : (r : ℤ) < b := by exact_mod_cast hr
  refine ⟨fun h => ?_, fun h => ?_, fun h => ?_, fun h => ?_⟩
  · subst h
    push_cast
    rw [abs_of_nonpos (by linarith)]
    ring
  · subst h
    push_cast
    rw [abs_of_nonneg (by linarith)]
    ring
  · have hle : ((n * b : ℕ) : ℤ) + b ≤ ((q * b : ℕ) : ℤ) := by
      have := Nat.mul_le_mul_right b h
      rw [Nat.succ_mul] at this
      exact_mod_cast this
    push_cast at hle ⊢
    rw [abs_of_nonpos (by linarith)]
    linarith
  · have hle : ((q * b : ℕ) : ℤ) + 2 * b ≤ ((n * b : ℕ) : ℤ) := by
      have := Nat.mul_le_mul_right b h
      rw [Nat.add_mul] at this
      exact_mod_cast this
    push_cast at hle ⊢
    rw [abs_of_nonneg (by linarith)]
    linarith

theorem abs_roundHalfEven_mul_sub_le_min (hb : 0 < b) :
    |(roundHalfEven a b * b : ℤ) - a| ≤ (a % b : ℕ) ∧
      |(roundHalfEven a b * b : ℤ) - a| ≤ b - (a % b : ℕ) := by
  have hd := abs_mul_sub_of_quotient (Nat.div_add_mod' a b).symm (Nat.mod_lt a hb)
  unfold roundHalfEven
  dsimp only
  split
  · rw [(hd _).2.1 rfl]
    omega
  · rw [(hd _).1 rfl]
    omega

/-- `roundHalfEven a b` is an integer nearest to `a / b`: no multiple of `b` is nearer to `a`. -/
theorem abs_roundHalfEven_mul_sub_le (hb : 0 < b) (n : ℕ) :
    |(roundHalfEven a b * b : ℤ) - a| ≤ |(n * b : ℤ) - a| := by
  obtain ⟨hq, hq1, hlow, hhigh⟩ := abs_mul_sub_of_quotient (Nat.div_add_mod' a b).symm (Nat.mod_lt a hb) n
  obtain ⟨hr, hbr⟩ := abs_roundHalfEven_mul_sub_le_min (a := a) hb
  rcases Nat.lt_or_ge n (a / b) with hn | hn
  · linarith [hlow hn]
  rcases Nat.lt_or_ge n (a / b + 2) with hn' | hn'
  · rcases (show n = a / b ∨ n = a / b + 1 by omega) with h | h
    · rw [hq h]
      exact hr
    · rw [hq1 h]
      exact hbr
  · have : (0 : ℤ) ≤ b := by positivity
    linarith [hhigh hn']

/-- Equally near to `a` as the rounded quotient, another multiple of `b` is a tie: the rounded
quotient is even, and the other odd. -/
theorem roundHalfEven_even_of_tie (hb : 0 < b) {n : ℕ} (hn : n ≠ roundHalfEven a b)
    (htie : |(n * b : ℤ) - a| = |(roundHalfEven a b * b : ℤ) - a|) :
    roundHalfEven a b % 2 = 0 ∧ n % 2 = 1 := by
  obtain ⟨hq, hq1, hlow, hhigh⟩ := abs_mul_sub_of_quotient (Nat.div_add_mod' a b).symm (Nat.mod_lt a hb) n
  obtain ⟨hr, hbr⟩ := abs_roundHalfEven_mul_sub_le_min (a := a) hb
  have hrb := Nat.mod_lt a hb
  have hnear : n = a / b ∨ n = a / b + 1 := by
    rcases Nat.lt_or_ge n (a / b) with h | h
    · have := hlow h
      omega
    rcases Nat.lt_or_ge n (a / b + 2) with h' | h'
    · omega
    · have := hhigh h'
      omega
  unfold roundHalfEven at hn htie ⊢
  dsimp only at hn htie ⊢
  by_cases hup : b < 2 * (a % b) ∨ 2 * (a % b) = b ∧ a / b % 2 = 1
  · simp only [if_pos hup] at hn htie ⊢
    rcases hnear with h | h
    · rw [hq h, (abs_mul_sub_of_quotient (Nat.div_add_mod' a b).symm hrb _).2.1 rfl] at htie
      omega
    · omega
  · simp only [if_neg hup] at hn htie ⊢
    rcases hnear with h | h
    · omega
    · rw [hq1 h, (abs_mul_sub_of_quotient (Nat.div_add_mod' a b).symm hrb _).1 rfl] at htie
      omega

end RoundHalfEven

namespace Decimal

/-- The value `d · 10^(k - places)` of a decimal in scientific notation with `places` places. -/
noncomputable def sciValue (places d : ℕ) (k : ℤ) : ℝ := d * 10 ^ (k - places)

/-- A significand of exactly `places + 1` digits. -/
def IsSignificand (places d : ℕ) : Prop := 10 ^ places ≤ d ∧ d < 10 ^ (places + 1)

/-- `d · 10^(k - places)` is a decimal of `places + 1` significant digits nearest to `v`, and on a
tie the one whose significand is even. -/
structure IsNearestScientific (places : ℕ) (v : ℝ) (d : ℕ) (k : ℤ) : Prop where
  significand : IsSignificand places d
  nearest : ∀ d' k', IsSignificand places d' → |sciValue places d k - v| ≤ |sciValue places d' k' - v|
  even_of_tie : ∀ d' k', IsSignificand places d' → sciValue places d' k' ≠ sciValue places d k →
    |sciValue places d' k' - v| = |sciValue places d k - v| → d % 2 = 0

variable {places d : ℕ}

theorem sciValue_eq_mul_of_le {K k : ℤ} (h : K ≤ k) (d : ℕ) :
    sciValue places d k = ((d * 10 ^ (k - K).toNat : ℕ) : ℝ) * 10 ^ (K - places) := by
  rw [sciValue, Nat.cast_mul, Nat.cast_pow, Nat.cast_ofNat, mul_assoc, ← zpow_natCast,
    ← zpow_add₀ (by norm_num)]
  congr 2
  omega

theorem sciValue_lt_of_lt (hd : IsSignificand places d) {K k : ℤ} (h : k < K) :
    sciValue places d k < 10 ^ K := by
  have hd' : (d : ℝ) < 10 ^ ((places : ℤ) + 1) := by
    rw [zpow_add_one₀ (by norm_num), zpow_natCast, ← pow_succ]
    exact_mod_cast hd.2
  calc sciValue places d k = d * 10 ^ (k - places) := rfl
    _ < 10 ^ ((places : ℤ) + 1) * 10 ^ (k - places) := by gcongr
    _ = 10 ^ (k + 1) := by rw [← zpow_add₀ (by norm_num)]; congr 1; ring
    _ ≤ 10 ^ K := zpow_le_zpow_right₀ (by norm_num) (by omega)

/-- Of two decimals of `places + 1` digits and one value, neither has the larger exponent: the
significand at the larger one would be ten times too large. -/
theorem le_of_sciValue_eq {d' : ℕ} {k k' : ℤ} (hd : IsSignificand places d)
    (hd' : IsSignificand places d') (h : sciValue places d k = sciValue places d' k') : k ≤ k' := by
  by_contra hlt
  rw [sciValue_eq_mul_of_le (le_of_lt (not_le.1 hlt)) d, sciValue] at h
  have h' : d * 10 ^ (k - k').toNat = d' := by
    have := mul_right_cancel₀ (zpow_ne_zero _ (by norm_num)) h
    exact_mod_cast this
  have hstep : 10 ≤ 10 ^ (k - k').toNat := Nat.le_self_pow (by omega) 10
  have := Nat.mul_le_mul hd.1 hstep
  rw [← pow_succ, h'] at this
  exact absurd hd'.2 (not_lt.2 this)

/-- Two decimals of `places + 1` digits of one value are one decimal. -/
theorem eq_of_sciValue_eq {d' : ℕ} {k k' : ℤ} (hd : IsSignificand places d)
    (hd' : IsSignificand places d') (h : sciValue places d k = sciValue places d' k') :
    d = d' ∧ k = k' := by
  have hk := le_antisymm (le_of_sciValue_eq hd hd' h) (le_of_sciValue_eq hd' hd h.symm)
  subst hk
  refine ⟨?_, rfl⟩
  have := mul_right_cancel₀ (zpow_ne_zero _ (by norm_num)) h
  exact_mod_cast this

section Unit

variable {A B : ℕ} {u v : ℝ}

/-- Against `v = (A / B) · u`, the distance of `x · u` is that of `x · B` from `A`, scaled by
`u / B`. -/
theorem abs_mul_unit_sub (hB : 0 < B) (hu : 0 < u) (hv : (A : ℝ) / B * u = v) (x : ℝ) :
    |x * u - v| = u / B * |x * B - A| := by
  have hB' : (0 : ℝ) < B := Nat.cast_pos.2 hB
  rw [← abs_of_pos (div_pos hu hB'), ← abs_mul, ← hv]
  congr 1
  field_simp

theorem abs_roundHalfEven_unit_sub_le (hB : 0 < B) (hu : 0 < u) (hv : (A : ℝ) / B * u = v)
    (n : ℕ) : |(roundHalfEven A B : ℝ) * u - v| ≤ |(n : ℝ) * u - v| := by
  rw [abs_mul_unit_sub hB hu hv, abs_mul_unit_sub hB hu hv]
  have h : |(roundHalfEven A B : ℝ) * B - A| ≤ |(n : ℝ) * B - A| := by
    exact_mod_cast abs_roundHalfEven_mul_sub_le hB n
  exact mul_le_mul_of_nonneg_left h (div_pos hu (Nat.cast_pos.2 hB)).le

/-- Another multiple of the unit as near to `v` is a tie: the rounded ratio is even, the other odd. -/
theorem roundHalfEven_unit_tie (hB : 0 < B) (hu : 0 < u) (hv : (A : ℝ) / B * u = v) {n : ℕ}
    (hn : n ≠ roundHalfEven A B) (htie : |(n : ℝ) * u - v| = |(roundHalfEven A B : ℝ) * u - v|) :
    roundHalfEven A B % 2 = 0 ∧ n % 2 = 1 := by
  rw [abs_mul_unit_sub hB hu hv, abs_mul_unit_sub hB hu hv] at htie
  have h := mul_left_cancel₀ (div_pos hu (Nat.cast_pos.2 hB)).ne' htie
  exact roundHalfEven_even_of_tie hB hn (by exact_mod_cast h)

/-- Every decimal of `places + 1` digits is as far from `v` as the rounded ratio at the unit
`10^(K - places)`, for `10^K ≤ v`, or farther; one as near and of another value is a tie, at the
exponent `K` with an odd significand, the rounded ratio being even. -/
theorem roundHalfEven_nearest_decimal (hB : 0 < B) {K : ℤ} (hK : (10 : ℝ) ^ K ≤ v)
    (hv : (A : ℝ) / B * 10 ^ (K - places) = v) {d' : ℕ} (hd' : IsSignificand places d') (k' : ℤ) :
    |(roundHalfEven A B : ℝ) * 10 ^ (K - places) - v| ≤ |sciValue places d' k' - v| ∧
      (sciValue places d' k' ≠ roundHalfEven A B * 10 ^ (K - places) →
        |sciValue places d' k' - v| = |(roundHalfEven A B : ℝ) * 10 ^ (K - places) - v| →
        k' = K ∧ roundHalfEven A B % 2 = 0 ∧ d' % 2 = 1) := by
  have hu : (0 : ℝ) < 10 ^ (K - places) := by positivity
  rcases lt_or_ge k' K with hlt | hle
  · have hbelow := sciValue_lt_of_lt hd' hlt
    have hfloor : |((10 ^ places : ℕ) : ℝ) * 10 ^ (K - places) - v| = v - 10 ^ K := by
      rw [Nat.cast_pow, Nat.cast_ofNat, ← zpow_natCast, ← zpow_add₀ (by norm_num),
        add_sub_cancel, abs_of_nonpos (by linarith), neg_sub]
    have hnear := abs_roundHalfEven_unit_sub_le hB hu hv (10 ^ places)
    have hfar : v - 10 ^ K < |sciValue places d' k' - v| := by
      rw [abs_of_neg (by linarith)]
      linarith
    exact ⟨by linarith, fun _ htie => absurd htie (by linarith)⟩
  · rw [sciValue_eq_mul_of_le hle]
    refine ⟨abs_roundHalfEven_unit_sub_le hB hu hv _, fun hne htie => ?_⟩
    have hn : d' * 10 ^ (k' - K).toNat ≠ roundHalfEven A B := fun h => hne (by rw [h])
    obtain ⟨heven, hodd⟩ := roundHalfEven_unit_tie hB hu hv hn htie
    have hk : (k' - K).toNat = 0 := by
      by_contra h0
      obtain ⟨j, hj⟩ := Nat.exists_eq_succ_of_ne_zero h0
      rw [hj, pow_succ, ← mul_assoc] at hodd
      omega
    rw [hk, pow_zero, mul_one] at hodd
    exact ⟨by omega, heven, hodd⟩

/-- The written decimal of a rounded significand `n` with `10^places ≤ n ≤ 10^(places + 1)`:
`n` at the exponent `K`, or on a carry `10^places` at the next one. It has `places + 1` digits and
the value `n · 10^(K - places)`, and for a positive number of places it is even with `n`. -/
theorem carry_written {K : ℤ} {n : ℕ} (hlo : 10 ^ places ≤ n) (hhi : n ≤ 10 ^ (places + 1)) :
    let out := if n = Nat.pow 10 (places + 1) then (Nat.pow 10 places, K + 1) else (n, K)
    IsSignificand places out.1 ∧ sciValue places out.1 out.2 = n * 10 ^ (K - places) ∧
      (0 < places → n % 2 = 0 → out.1 % 2 = 0) := by
  intro out
  by_cases hc : n = Nat.pow 10 (places + 1)
  · simp only [out, if_pos hc, Nat.pow_eq] at hc ⊢
    refine ⟨⟨le_refl _, Nat.pow_lt_pow_right (by norm_num) (by omega)⟩, ?_, fun hp _ => ?_⟩
    · rw [sciValue, hc, Nat.cast_pow, Nat.cast_pow, Nat.cast_ofNat, ← zpow_natCast, ← zpow_natCast,
        ← zpow_add₀ (by norm_num), ← zpow_add₀ (by norm_num)]
      congr 1
      push_cast
      ring
    · obtain ⟨j, rfl⟩ := Nat.exists_eq_succ_of_ne_zero hp.ne'
      rw [pow_succ]
      omega
  · simp only [out, if_neg hc]
    exact ⟨⟨hlo, lt_of_le_of_ne hhi (by simpa using hc)⟩, rfl, fun _ h => h⟩

/-- Rounded at the unit `10^(K - places)`, for `10^K ≤ v`, the written decimal is the decimal of
`places + 1` digits nearest to `v`, a tie going to the even one, and no other decimal is. -/
theorem isNearestScientific_of_rounded (hp : 0 < places) (hB : 0 < B) {K : ℤ}
    (hK : (10 : ℝ) ^ K ≤ v) (hv : (A : ℝ) / B * 10 ^ (K - places) = v)
    (hlo : 10 ^ places ≤ roundHalfEven A B) (hhi : roundHalfEven A B ≤ 10 ^ (places + 1)) :
    let out := if roundHalfEven A B = Nat.pow 10 (places + 1) then (Nat.pow 10 places, K + 1)
      else (roundHalfEven A B, K)
    IsNearestScientific places v out.1 out.2 ∧
      ∀ d k, IsNearestScientific places v d k → d = out.1 ∧ k = out.2 := by
  intro out
  obtain ⟨hsig, hval, heven⟩ := carry_written (K := K) hlo hhi
  have hnear := fun d' (hd' : IsSignificand places d') k' =>
    roundHalfEven_nearest_decimal hB hK hv hd' k'
  have hspec : IsNearestScientific places v out.1 out.2 := by
    refine ⟨hsig, fun d' k' hd' => ?_, fun d' k' hd' hne htie => ?_⟩
    · rw [hval]
      exact (hnear d' hd' k').1
    · rw [hval] at hne htie
      exact heven hp ((hnear d' hd' k').2 hne htie).2.1
  refine ⟨hspec, fun d k hdk => ?_⟩
  have heq : |sciValue places d k - v| = |sciValue places out.1 out.2 - v| :=
    le_antisymm (hdk.nearest _ _ hsig) (hspec.nearest _ _ hdk.significand)
  by_cases hsame : sciValue places d k = sciValue places out.1 out.2
  · exact eq_of_sciValue_eq hdk.significand hsig hsame
  · have hodd := ((hnear d hdk.significand k).2 (by rwa [← hval]) (by rwa [← hval])).2.2
    have hev := hdk.even_of_tie _ _ hsig (Ne.symm hsame) heq.symm
    omega

/-- For `10^K ≤ v < 10^(K + 1)`, the ratio `A / B` lies in `[10^places, 10^(places + 1))`, so its
rounding has `places + 1` digits, or is the carry `10^(places + 1)`. -/
theorem roundHalfEven_bounds (hB : 0 < B) {K : ℤ} (hv : (A : ℝ) / B * 10 ^ (K - places) = v)
    (hK : (10 : ℝ) ^ K ≤ v) (hK' : v < 10 ^ (K + 1)) :
    10 ^ places ≤ roundHalfEven A B ∧ roundHalfEven A B ≤ 10 ^ (places + 1) := by
  have hB' : (0 : ℝ) < B := Nat.cast_pos.2 hB
  have hu : (0 : ℝ) < 10 ^ (K - places) := by positivity
  have hlow : (10 : ℝ) ^ K = 10 ^ places * 10 ^ (K - places) := by
    rw [← zpow_natCast, ← zpow_add₀ (by norm_num)]
    congr 1
    ring
  have hhigh : (10 : ℝ) ^ (K + 1) = 10 ^ (places + 1) * 10 ^ (K - places) := by
    rw [← zpow_natCast, ← zpow_add₀ (by norm_num)]
    congr 1
    push_cast
    ring
  have hreal : (10 : ℝ) ^ places * B ≤ A ∧ (A : ℝ) < 10 ^ (places + 1) * B := by
    rw [← hv, hlow] at hK
    rw [← hv, hhigh] at hK'
    have h1 := le_of_mul_le_mul_right hK hu
    have h2 := lt_of_mul_lt_mul_right hK' hu.le
    rw [le_div_iff₀ hB'] at h1
    rw [div_lt_iff₀ hB'] at h2
    exact ⟨h1, h2⟩
  have hq1 : 10 ^ places ≤ A / B := (Nat.le_div_iff_mul_le hB).2 (by exact_mod_cast hreal.1)
  have hq2 : A / B < 10 ^ (places + 1) := (Nat.div_lt_iff_lt_mul hB).2 (by exact_mod_cast hreal.2)
  rcases roundHalfEven_cases A B with h | h <;> omega

end Unit

section Ratio

variable {m : ℕ} {e : ℤ}

theorem div_binaryRatio (m : ℕ) (e : ℤ) :
    ((binaryRatio m e).1 : ℝ) / (binaryRatio m e).2 = m * 2 ^ e := by
  unfold binaryRatio
  split
  · rename_i he
    obtain ⟨n, rfl⟩ := Int.eq_ofNat_of_zero_le he
    simp [Nat.pow_eq]
  · rename_i he
    obtain ⟨n, rfl⟩ := Int.exists_eq_neg_ofNat (Int.le_of_lt (Int.not_le.1 he))
    simp [Nat.pow_eq, zpow_neg, div_eq_mul_inv]

/-- For `0 < m < 2^53` and `|e| ≤ 1074`, the two parts of `binaryRatio m e` are positive and have
fewer than `2^18 - 1` binary digits. -/
theorem binaryRatio_fits (hm : 0 < m) (hm' : m < 2 ^ 53) (he : e.natAbs ≤ 1074) :
    0 < (binaryRatio m e).1 ∧ 0 < (binaryRatio m e).2 ∧
      Nat.log2 (binaryRatio m e).1 < 262143 ∧ Nat.log2 (binaryRatio m e).2 < 262143 := by
  have htwo : ∀ n, 0 < Nat.pow 2 n := fun n => Nat.two_pow_pos n
  unfold binaryRatio
  split
  · rename_i h0
    dsimp only
    have hpos : 0 < m * Nat.pow 2 e.toNat := Nat.mul_pos hm (htwo _)
    have hlog : Nat.log2 (m * Nat.pow 2 e.toNat) < 53 + e.toNat := by
      rw [Nat.log2_lt hpos.ne', Nat.pow_eq, pow_add]
      exact Nat.mul_lt_mul_of_pos_right hm' (by positivity)
    exact ⟨hpos, Nat.one_pos, by omega, by have := Nat.log2_le_self 1; omega⟩
  · rename_i h0
    dsimp only
    have hlog : Nat.log2 m < 53 := (Nat.log2_lt hm.ne').2 hm'
    refine ⟨hm, htwo _, by omega, ?_⟩
    rw [Nat.pow_eq, Nat.log2_two_pow]
    omega

/-- Scaled by `10^(places - K)`, the ratio `a / b` is `A / B`, with `A = a · 10^(places - K)` when
that exponent is positive and `B = b · 10^(K - places)` when it is negative. -/
theorem scaled_ratio (a : ℕ) {b : ℕ} (hb : 0 < b) (K : ℤ) (places : ℕ) :
    ((a * Nat.pow 10 ((places : ℤ) - K).toNat : ℕ) : ℝ) /
        (b * Nat.pow 10 (-((places : ℤ) - K)).toNat : ℕ) * 10 ^ (K - places) = a / b := by
  have hb' : (b : ℝ) ≠ 0 := Nat.cast_ne_zero.2 hb.ne'
  have hpow : ((10 : ℝ) ^ ((places : ℤ) - K).toNat / 10 ^ (-((places : ℤ) - K)).toNat) *
      10 ^ (K - places) = 1 := by
    rw [← zpow_natCast, ← zpow_natCast, ← zpow_sub₀ (by norm_num), Int.toNat_sub_toNat_neg,
      ← zpow_add₀ (by norm_num)]
    simp
  simp only [Nat.pow_eq, Nat.cast_mul, Nat.cast_pow, Nat.cast_ofNat]
  calc (a : ℝ) * 10 ^ ((places : ℤ) - K).toNat / (b * 10 ^ (-((places : ℤ) - K)).toNat) *
        10 ^ (K - places)
      = a / b * ((10 ^ ((places : ℤ) - K).toNat / 10 ^ (-((places : ℤ) - K)).toNat) *
          10 ^ (K - places)) := by field_simp
    _ = a / b := by rw [hpow, mul_one]

end Ratio

/-- `scientificDigits places m e` is the decimal of `places + 1` significant digits nearest to
`m · 2^e`, a tie going to the even significand, and no other decimal is; for every positive number
of places and every significand and exponent of a finite float. -/
theorem scientificDigits_nearest (hp : 0 < places) {m : ℕ} {e : ℤ} (hm : 0 < m) (hm' : m < 2 ^ 53)
    (he : e.natAbs ≤ 1074) :
    IsNearestScientific places (m * 2 ^ e) (scientificDigits places m e).1
        (scientificDigits places m e).2 ∧
      ∀ d k, IsNearestScientific places (m * 2 ^ e) d k →
        d = (scientificDigits places m e).1 ∧ k = (scientificDigits places m e).2 := by
  obtain ⟨ha, hb, hla, hlb⟩ := binaryRatio_fits hm hm' he
  rw [← div_binaryRatio m e]
  unfold scientificDigits
  generalize binaryRatio m e = ab at ha hb hla hlb ⊢
  obtain ⟨a, b⟩ := ab
  dsimp only at ha hb hla hlb ⊢
  rw [log10Floor_eq_log ha hb hla hlb]
  set K := Int.log 10 ((a : ℝ) / b)
  have hv := scaled_ratio a hb K places
  have hpos : (0 : ℝ) < a / b := div_pos (Nat.cast_pos.2 ha) (Nat.cast_pos.2 hb)
  have hK : ((10 : ℕ) : ℝ) ^ K ≤ a / b := Int.zpow_log_le_self (by norm_num) hpos
  have hK' : (a : ℝ) / b < ((10 : ℕ) : ℝ) ^ (K + 1) := Int.lt_zpow_succ_log_self (by norm_num) _
  rw [Nat.cast_ofNat] at hK hK'
  have hB : 0 < b * Nat.pow 10 (-((places : ℤ) - K)).toNat :=
    Nat.mul_pos hb (Nat.pos_of_ne_zero (by simp [Nat.pow_eq]))
  obtain ⟨hlo, hhi⟩ := roundHalfEven_bounds hB hv hK hK'
  exact isNearestScientific_of_rounded hp hB hK hv hlo hhi

end Decimal

end ConvexQp
