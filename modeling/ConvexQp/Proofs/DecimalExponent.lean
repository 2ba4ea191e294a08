import Mathlib
import ConvexQp.Decimal.Scientific
/-! The decimal exponent of a positive ratio: `log10Floor a b` is `Int.log 10 (a / b)` for parts of
fewer than `2^18 - 1` binary digits, as those of a float are. -/

namespace ConvexQp

namespace Decimal

/-- `10^78913 ≤ 2^(2^18)`: `78913 / 2^18` is below `log₁₀ 2`. -/
theorem ten_pow_le_two_pow : (10 : ℕ) ^ 78913 ≤ 2 ^ 262144 := by decide +kernel

/-- `2^(2^18) < 10^78914`: `78913 / 2^18` is within `2^-18` of `log₁₀ 2`. -/
theorem two_pow_lt_ten_pow : (2 : ℕ) ^ 262144 < 10 ^ 78914 := by decide +kernel

theorem log_two_bounds :
    78913 * Real.log 10 ≤ 262144 * Real.log 2 ∧ 262144 * Real.log 2 < 78914 * Real.log 10 := by
  have hlo : ((10 ^ 78913 : ℕ) : ℝ) ≤ ((2 ^ 262144 : ℕ) : ℝ) := Nat.cast_le.2 ten_pow_le_two_pow
  have hhi : ((2 ^ 262144 : ℕ) : ℝ) < ((10 ^ 78914 : ℕ) : ℝ) := Nat.cast_lt.2 two_pow_lt_ten_pow
  rw [Nat.cast_pow, Nat.cast_pow, Nat.cast_ofNat, Nat.cast_ofNat] at hlo hhi
  constructor
  · simpa only [Real.log_pow, Nat.cast_ofNat] using Real.log_le_log (by positivity) hlo
  · simpa only [Real.log_pow, Nat.cast_ofNat] using Real.log_lt_log (by positivity) hhi

variable {a b : ℕ}

theorem atLeastPow10_iff (hb : 0 < b) (k : ℤ) :
    atLeastPow10 a b k = true ↔ (10 : ℝ) ^ k ≤ a / b := by
  have hb' : (0 : ℝ) < b := Nat.cast_pos.2 hb
  unfold atLeastPow10
  split
  · rename_i hk
    obtain ⟨n, rfl⟩ := Int.eq_ofNat_of_zero_le hk
    rw [decide_eq_true_iff, le_div_iff₀ hb', zpow_natCast, Int.toNat_natCast, Nat.pow_eq,
      mul_comm, ← Nat.cast_le (α := ℝ)]
    push_cast
    rfl
  · rename_i hk
    obtain ⟨n, rfl⟩ := Int.exists_eq_neg_ofNat (Int.le_of_lt (Int.not_le.1 hk))
    rw [decide_eq_true_iff, le_div_iff₀ hb', zpow_neg, zpow_natCast, neg_neg, Int.toNat_natCast,
      Nat.pow_eq, ← Nat.cast_le (α := ℝ), inv_mul_le_iff₀ (by positivity)]
    push_cast
    rw [mul_comm]

/-- Read against the exponent `K = ⌊log₁₀ (a / b)⌋`, the comparison with `10^k` is `k ≤ K`. -/
theorem atLeastPow10_eq_decide (ha : 0 < a) (hb : 0 < b) (k : ℤ) :
    atLeastPow10 a b k = decide (k ≤ Int.log 10 ((a : ℝ) / b)) := by
  have hv : (0 : ℝ) < a / b := div_pos (Nat.cast_pos.2 ha) (Nat.cast_pos.2 hb)
  have h : ((10 : ℕ) : ℝ) ^ k ≤ a / b ↔ k ≤ Int.log 10 ((a : ℝ) / b) :=
    Int.zpow_le_iff_le_log (by norm_num) hv
  rw [Bool.eq_iff_iff, atLeastPow10_iff hb, decide_eq_true_iff, ← h, Nat.cast_ofNat]

/-- Stepping down from `k` while it is above `K`: `n` steps reach `K`, or end `n` below `k`. -/
theorem foldl_stepDown (K : ℤ) (n : ℕ) (k : ℤ) :
    (List.range n).foldl (fun k _ => if k ≤ K then k else k - 1) k =
      if k ≤ K then k else max K (k - n) := by
  induction n with
  | zero =>
    simp only [List.range_zero, List.foldl_nil, Nat.cast_zero, sub_zero]
    split_ifs <;> omega
  | succ n ih =>
    rw [List.range_succ, List.foldl_append, ih]
    simp only [List.foldl_cons, List.foldl_nil]
    split_ifs <;> omega

/-- Stepping up from `k ≤ K` while the next exponent is not above `K`: `n` steps reach `K`, or end
`n` above `k`. -/
theorem foldl_stepUp (K : ℤ) (n : ℕ) {k : ℤ} (hk : k ≤ K) :
    (List.range n).foldl (fun k _ => if k + 1 ≤ K then k + 1 else k) k = min K (k + n) := by
  induction n with
  | zero => simp; omega
  | succ n ih =>
    rw [List.range_succ, List.foldl_append, ih]
    simp only [List.foldl_cons, List.foldl_nil]
    split_ifs <;> omega

/-- From a guess within `steps` of the exponent, the two walks end at the exponent. -/
theorem settlePow10_eq_log (ha : 0 < a) (hb : 0 < b) {steps : ℕ} {k : ℤ}
    (hlo : Int.log 10 ((a : ℝ) / b) ≤ k + steps) (hhi : k ≤ Int.log 10 ((a : ℝ) / b) + steps) :
    settlePow10 a b steps k = Int.log 10 ((a : ℝ) / b) := by
  simp only [settlePow10, atLeastPow10_eq_decide ha hb, decide_eq_true_eq, foldl_stepDown]
  rw [foldl_stepUp _ _ (by split_ifs <;> omega)]
  split_ifs <;> omega

/-- A positive ratio lies strictly between the powers of two next to the difference of the binary
lengths of its parts. -/
theorem two_zpow_lt_div (ha : 0 < a) (hb : 0 < b) :
    (2 : ℝ) ^ ((Nat.log2 a : ℤ) - Nat.log2 b - 1) < a / b ∧
      (a : ℝ) / b < 2 ^ ((Nat.log2 a : ℤ) - Nat.log2 b + 1) := by
  have ha1 : ((2 ^ Nat.log2 a : ℕ) : ℝ) ≤ a := Nat.cast_le.2 (Nat.log2_self_le ha.ne')
  have ha2 : (a : ℝ) < ((2 ^ (Nat.log2 a + 1) : ℕ) : ℝ) := Nat.cast_lt.2 Nat.lt_log2_self
  have hb1 : ((2 ^ Nat.log2 b : ℕ) : ℝ) ≤ b := Nat.cast_le.2 (Nat.log2_self_le hb.ne')
  have hb2 : (b : ℝ) < ((2 ^ (Nat.log2 b + 1) : ℕ) : ℝ) := Nat.cast_lt.2 Nat.lt_log2_self
  push_cast at ha1 ha2 hb1 hb2
  have hb0 : (0 : ℝ) < b := Nat.cast_pos.2 hb
  constructor
  · rw [lt_div_iff₀ hb0]
    calc (2 : ℝ) ^ ((Nat.log2 a : ℤ) - Nat.log2 b - 1) * b
        < 2 ^ ((Nat.log2 a : ℤ) - Nat.log2 b - 1) * 2 ^ (Nat.log2 b + 1) := by gcongr
      _ = 2 ^ Nat.log2 a := by
        rw [← zpow_natCast, ← zpow_add₀ two_ne_zero, ← zpow_natCast]
        congr 1
        push_cast
        ring
      _ ≤ a := ha1
  · rw [div_lt_iff₀ hb0]
    calc (a : ℝ) < 2 ^ (Nat.log2 a + 1) := ha2
      _ = 2 ^ ((Nat.log2 a : ℤ) - Nat.log2 b + 1) * 2 ^ Nat.log2 b := by
        rw [← zpow_natCast, ← zpow_natCast, ← zpow_add₀ two_ne_zero]
        congr 1
        push_cast
        ring
      _ ≤ 2 ^ ((Nat.log2 a : ℤ) - Nat.log2 b + 1) * b := by gcongr

/-- `j log 2 ≤ q log 10` once both `78913 j` and `78914 j` are at most `2^18 q`: the lower bound
on `log₁₀ 2` serves a negative `j`, the upper one a nonnegative `j`. -/
theorem mul_log_two_le {j q : ℤ} (h13 : 78913 * j ≤ 262144 * q) (h14 : 78914 * j ≤ 262144 * q) :
    (j : ℝ) * Real.log 2 ≤ q * Real.log 10 := by
  obtain ⟨h10, h2⟩ := log_two_bounds
  have hL : 0 < Real.log 10 := Real.log_pos (by norm_num)
  rcases le_or_gt 0 j with hj | hj
  · have hprod := mul_le_mul_of_nonneg_left h2.le (show (0 : ℝ) ≤ j by exact_mod_cast hj)
    have hint := mul_le_mul_of_nonneg_right
      (show ((78914 * j : ℤ) : ℝ) ≤ ((262144 * q : ℤ) : ℝ) by exact_mod_cast h14) hL.le
    push_cast at hint
    linarith
  · have hprod := mul_le_mul_of_nonpos_left h10 (show (j : ℝ) ≤ 0 by exact_mod_cast hj.le)
    have hint := mul_le_mul_of_nonneg_right
      (show ((78913 * j : ℤ) : ℝ) ≤ ((262144 * q : ℤ) : ℝ) by exact_mod_cast h13) hL.le
    push_cast at hint
    linarith

/-- The guess `⌊l · 78913 / 2^18⌋` from the difference `l` of the binary lengths is within two of
the decimal exponent, for parts of fewer than `2^18 - 1` binary digits. -/
theorem guess_near_log (ha : 0 < a) (hb : 0 < b) (hla : Nat.log2 a < 262143)
    (hlb : Nat.log2 b < 262143) :
    Int.log 10 ((a : ℝ) / b) ≤ Int.fdiv (((Nat.log2 a : ℤ) - Nat.log2 b) * 78913) 262144 + 2 ∧
      Int.fdiv (((Nat.log2 a : ℤ) - Nat.log2 b) * 78913) 262144 ≤ Int.log 10 ((a : ℝ) / b) + 2 := by
  set l : ℤ := (Nat.log2 a : ℤ) - Nat.log2 b with hl
  set g := Int.fdiv (l * 78913) 262144 with hgdef
  have hg : 262144 * g ≤ l * 78913 ∧ l * 78913 < 262144 * g + 262144 := by
    rw [hgdef, Int.fdiv_eq_ediv_of_nonneg _ (by norm_num)]
    omega
  have hv : (0 : ℝ) < a / b := div_pos (Nat.cast_pos.2 ha) (Nat.cast_pos.2 hb)
  obtain ⟨hvlo, hvhi⟩ := two_zpow_lt_div ha hb
  rw [← hl] at hvlo hvhi
  have hloglo := Real.log_lt_log (by positivity) hvlo
  have hloghi := Real.log_lt_log hv hvhi
  rw [Real.log_zpow] at hloglo hloghi
  constructor
  · have hlt : Int.log 10 ((a : ℝ) / b) < g + 3 := by
      rw [← Int.lt_zpow_iff_log_lt (by norm_num) hv, Nat.cast_ofNat,
        ← Real.log_lt_log_iff hv (by positivity), Real.log_zpow]
      exact lt_of_lt_of_le hloghi (mul_log_two_le (by omega) (by omega))
    omega
  · have hle : g - 2 ≤ Int.log 10 ((a : ℝ) / b) := by
      rw [← Int.zpow_le_iff_le_log (by norm_num) hv, Nat.cast_ofNat,
        ← Real.log_le_log_iff (by positivity) hv, Real.log_zpow]
      have h := mul_log_two_le (j := -(l - 1)) (q := -(g - 2)) (by omega) (by omega)
      push_cast at h hloglo ⊢
      linarith
    omega

/-- `log10Floor a b` is the decimal exponent `⌊log₁₀ (a / b)⌋` of every ratio whose parts have
fewer than `2^18 - 1` binary digits. -/
theorem log10Floor_eq_log (ha : 0 < a) (hb : 0 < b) (hla : Nat.log2 a < 262143)
    (hlb : Nat.log2 b < 262143) :
    log10Floor a b = Int.log 10 ((a : ℝ) / b) := by
  obtain ⟨hlo, hhi⟩ := guess_near_log ha hb hla hlb
  exact settlePow10_eq_log ha hb (by omega) (by omega)

end Decimal

end ConvexQp
