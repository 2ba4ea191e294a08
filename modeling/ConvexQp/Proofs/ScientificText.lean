import Mathlib
import ConvexQp.Dense.Display
import ConvexQp.Proofs.FloatArithmetic
import ConvexQp.Proofs.ScientificRounding
/-! The text of a float in scientific notation, and the one-glance text of a matrix: the text
exists, is unique, and `scientific` writes it. -/

namespace ConvexQp

open Float.Model Float.Model.UnpackedFloat

namespace Binary64

/-- Whether a sign is `-`. -/
def isNegative : Sign → Bool
  | .negative => true
  | .positive => false

/-- The parts of an unpacked float; a zero is the significand `0` at the least exponent. -/
def ofUnpacked : UnpackedFloat → Binary64
  | .notANumber => .nan
  | .infinity s => .infinite (isNegative s)
  | .zero s => .finite (isNegative s) 0 leastExponent
  | .finite s m e _ => .finite (isNegative s) m e

section Fields

variable (b : BitVec 64)

theorem toNat_unpackExponent :
    (@unpackExponent .binary64 b).toNat = b.toNat / 2 ^ 52 % 2 ^ 11 := by
  simp [unpackExponent, BitVec.extractLsb_toNat, Nat.shiftRight_eq_div_pow]

theorem toNat_unpackMantissa : (@unpackMantissa .binary64 b).toNat = b.toNat % 2 ^ 52 := by
  simp [unpackMantissa, BitVec.extractLsb_toNat]

theorem isNegative_unpackSign :
    isNegative (Sign.ofBitVec (@unpackSign .binary64 b)) = decide (b.toNat / 2 ^ 63 = 1) := by
  have hlt : b.toNat < 2 ^ 64 := b.isLt
  have hsign : (@unpackSign .binary64 b).toNat = b.toNat / 2 ^ 63 := by
    simp [unpackSign, BitVec.extractLsb_toNat, Nat.shiftRight_eq_div_pow]
    omega
  unfold Sign.ofBitVec
  by_cases h : @unpackSign .binary64 b = 0#1
  · rw [if_pos h]
    rw [h] at hsign
    simp at hsign
    simp [isNegative]
    omega
  · rw [if_neg h]
    have : (@unpackSign .binary64 b).toNat ≠ 0 := fun h0 => h (BitVec.eq_of_toNat_eq h0)
    simp [isNegative]
    omega

end Fields

/-- Reading the fields of the bits of a float gives its unpacked value. -/
theorem ofFloat_eq_ofUnpacked (x : Float) : ofFloat x = ofUnpacked x.toModel.unpack := by
  have hbits : x.toBits.toNat = x.toModel.toBits.toBitVec.toNat := rfl
  generalize hb : x.toModel.toBits.toBitVec = b at hbits
  have hexp := toNat_unpackExponent b
  have hman := toNat_unpackMantissa b
  have hsign := isNegative_unpackSign b
  have hinf : @unpackExponent .binary64 b = -1#11 ↔ b.toNat / 2 ^ 52 % 2 ^ 11 = 2047 := by
    rw [BitVec.toNat_eq, hexp]
    rfl
  have hsub : @unpackExponent .binary64 b = 0#11 ↔ b.toNat / 2 ^ 52 % 2 ^ 11 = 0 := by
    rw [BitVec.toNat_eq, hexp]
    rfl
  have hzero : @unpackMantissa .binary64 b = 0#52 ↔ b.toNat % 2 ^ 52 = 0 := by
    rw [BitVec.toNat_eq, hman]
    rfl
  simp only [ofFloat, hbits, Float.Model.unpack, hb, UnpackedFloat.unpack, Nat.pow_eq]
  by_cases h1 : b.toNat / 2 ^ 52 % 2 ^ 11 = 2047
  · rw [if_pos h1, if_pos (hinf.2 h1)]
    by_cases h2 : b.toNat % 2 ^ 52 = 0
    · rw [if_pos h2, if_pos (hzero.2 h2), ofUnpacked, hsign]
    · rw [if_neg h2, if_neg (mt hzero.1 h2), ofUnpacked]
  · rw [if_neg h1, if_neg (mt hinf.1 h1)]
    by_cases h3 : b.toNat / 2 ^ 52 % 2 ^ 11 = 0
    · rw [if_pos h3, if_pos (hsub.2 h3)]
      by_cases h2 : b.toNat % 2 ^ 52 = 0
      · rw [dif_pos (hzero.2 h2), ofUnpacked, hsign, h2]
      · rw [dif_neg (mt hzero.1 h2), ofUnpacked, hsign, hman, hexp, h3]
        rfl
    · rw [if_neg h3, if_neg (mt hsub.1 h3), ofUnpacked, hsign, Unpacked.toNat_one_append, hman, hexp]
      simp only [Nat.add_comm]
      rfl

end Binary64

namespace Decimal

theorem ofNat_digit {n : ℕ} (h : n < 10) : Char.ofNat (48 + n) = Nat.digitChar n := by
  interval_cases n <;> rfl

/-- `numeral n` is the decimal digits of `n`, as `toString n` writes them. -/
theorem numeral_eq_toDigits (n : ℕ) : numeral n = Nat.toDigits 10 n := by
  induction n using Nat.strong_induction_on with
  | _ n ih =>
    rw [numeral, Nat.toDigits_eq_if (by norm_num)]
    split
    · rename_i h
      rw [ofNat_digit h]
    · rename_i h
      rw [ih (n / 10) (by omega), ofNat_digit (Nat.mod_lt n (by norm_num))]

/-- `intNumeral k` is `toString k`: a minus sign only when negative, and no leading zero. -/
theorem intNumeral_eq_toString (k : ℤ) : intNumeral k = (toString k).toList := by
  rw [Int.toString_eq_repr, Int.repr_eq_if, intNumeral]
  by_cases hk : k < 0
  · rw [if_pos hk, if_neg (by omega), String.toList_append, Nat.toList_repr, numeral_eq_toDigits,
      show (-k).toNat = k.natAbs by omega]
    rfl
  · rw [if_neg hk, if_pos (by omega), Nat.toList_repr, numeral_eq_toDigits]

/-- The text of a decimal in scientific notation: a minus sign when `negative`, the first decimal
digit of `d`, a point and its other digits, `e` and the exponent `k`. -/
def sciText (negative : Bool) (d : ℕ) (k : ℤ) : String :=
  String.ofList ((if negative then ['-'] else []) ++ (Nat.toDigits 10 d).take 1 ++
    '.' :: (Nat.toDigits 10 d).drop 1) ++ "e" ++ toString k

/-- The text of a zero with `places` places: a minus sign when `negative`, `0.`, `places` zeros and
`e0`. -/
def zeroText (places : ℕ) (negative : Bool) : String :=
  String.ofList ((if negative then ['-'] else []) ++ '0' :: '.' :: List.replicate places '0') ++ "e0"

end Decimal

namespace Float

/-- Whether the sign bit of a float is set. -/
def signBit (x : Float) : Bool := decide (2 ^ 63 ≤ x.toBits.toNat)

end Float

namespace Decimal

/-- `t` is the text of `x` with `places` places: `NaN`, `inf` or `-inf` when not finite; otherwise
the sign bit, then the decimal of `places + 1` digits nearest to the value, ties to even. -/
inductive ScientificText (places : ℕ) (x : Float) : String → Prop
  | nan : x.toModel.unpack = .notANumber → ScientificText places x "NaN"
  | infinity {s : Sign} : x.toModel.unpack = .infinity s →
      ScientificText places x (if Float.signBit x then "-inf" else "inf")
  | zero {s : Sign} : x.toModel.unpack = .zero s →
      ScientificText places x (zeroText places (Float.signBit x))
  | finite {s : Sign} {m : ℕ} {e : ℤ} {hm : 0 < m} {d : ℕ} {k : ℤ} :
      x.toModel.unpack = .finite s m e hm → IsNearestScientific places (m * 2 ^ e) d k →
      ScientificText places x (sciText (Float.signBit x) d k)

/-- Outside NaN, the sign that the bits of a float are read with is its sign bit. -/
theorem negative_ofFloat (x : Float) :
    (∀ n, Binary64.ofFloat x = .infinite n → n = Float.signBit x) ∧
      (∀ n m e, Binary64.ofFloat x = .finite n m e → n = Float.signBit x) := by
  have hlt : x.toBits.toNat < 2 ^ 64 := x.toBits.toBitVec.isLt
  have hbit : decide (x.toBits.toNat / Nat.pow 2 63 = 1) = Float.signBit x := by
    rw [Float.signBit, Nat.pow_eq, decide_eq_decide]
    omega
  rw [← hbit]
  unfold Binary64.ofFloat
  dsimp only
  constructor
  · intro n h
    split_ifs at h
    · cases h
      rfl
  · intro n m e h
    split_ifs at h
    · cases h
      rfl
    · cases h
      rfl

theorem ofList_eq_sciText (negative : Bool) (d : ℕ) (k : ℤ) :
    String.ofList ((if negative then ['-'] else []) ++
        ((numeral d).take 1 ++ '.' :: (numeral d).drop 1) ++ 'e' :: intNumeral k) =
      sciText negative d k := by
  rw [sciText, ← String.toList_inj]
  simp [String.toList_append, numeral_eq_toDigits, intNumeral_eq_toString]

theorem ofList_eq_zeroText (places : ℕ) (negative : Bool) :
    String.ofList ((if negative then ['-'] else []) ++
        ((numeral 0 ++ zeros places).take 1 ++ '.' :: (numeral 0 ++ zeros places).drop 1) ++
        'e' :: intNumeral 0) =
      zeroText places negative := by
  rw [zeroText, ← String.toList_inj]
  simp [String.toList_append, numeral_eq_toDigits, intNumeral, zeros]

section Cases

variable {places : ℕ} {x : Float}

theorem scientific_of_nan (hu : x.toModel.unpack = .notANumber) : scientific places x = "NaN" := by
  rw [scientific, Binary64.ofFloat_eq_ofUnpacked, hu]
  rfl

theorem scientific_of_infinity {s : Sign} (hu : x.toModel.unpack = .infinity s) :
    scientific places x = if Float.signBit x then "-inf" else "inf" := by
  have hsign := (negative_ofFloat x).1 (Binary64.isNegative s)
  rw [Binary64.ofFloat_eq_ofUnpacked, hu] at hsign
  rw [scientific, Binary64.ofFloat_eq_ofUnpacked, hu, ← hsign rfl]
  rfl

theorem scientific_of_zero (hp : 0 < places) {s : Sign} (hu : x.toModel.unpack = .zero s) :
    scientific places x = zeroText places (Float.signBit x) := by
  have hsign := (negative_ofFloat x).2 (Binary64.isNegative s) 0 Binary64.leastExponent
  rw [Binary64.ofFloat_eq_ofUnpacked, hu] at hsign
  rw [scientific, Binary64.ofFloat_eq_ofUnpacked, hu, ← hsign rfl, ← ofList_eq_zeroText]
  simp only [Binary64.ofUnpacked, if_true, if_neg hp.ne']

theorem scientific_of_finite (hp : 0 < places) {s : Sign} {m : ℕ} {e : ℤ} {hm : 0 < m}
    (hu : x.toModel.unpack = .finite s m e hm) :
    scientific places x =
      sciText (Float.signBit x) (scientificDigits places m e).1 (scientificDigits places m e).2 := by
  have hsign := (negative_ofFloat x).2 (Binary64.isNegative s) m e
  rw [Binary64.ofFloat_eq_ofUnpacked, hu] at hsign
  rw [scientific, Binary64.ofFloat_eq_ofUnpacked, hu, ← hsign rfl, ← ofList_eq_sciText]
  simp only [Binary64.ofUnpacked, if_neg hm.ne', if_neg hp.ne']

/-- A canonical finite value has a significand below `2^53` and an exponent of at most `1074` in
size. -/
theorem fits_of_unpack {s : Sign} {m : ℕ} {e : ℤ} {hm : 0 < m}
    (hu : x.toModel.unpack = .finite s m e hm) : m < 2 ^ 53 ∧ e.natAbs ≤ 1074 := by
  have hcanon := Float.canonical_unpack x
  rw [hu] at hcanon
  cases hcanon with
  | subnormal _ _ _ hm' => exact ⟨by omega, by decide⟩
  | normal _ _ _ _ _ hhi helo hehi => exact ⟨hhi, by omega⟩

end Cases

/-- `scientific places x` is the text of `x` in scientific notation, for a positive number of
places. -/
theorem scientificText_scientific {places : ℕ} (hp : 0 < places) (x : Float) :
    ScientificText places x (scientific places x) := by
  cases hu : x.toModel.unpack with
  | notANumber =>
    rw [scientific_of_nan hu]
    exact .nan hu
  | infinity s =>
    rw [scientific_of_infinity hu]
    exact .infinity hu
  | zero s =>
    rw [scientific_of_zero hp hu]
    exact .zero hu
  | finite s m e hm =>
    obtain ⟨hm', he⟩ := fits_of_unpack hu
    rw [scientific_of_finite hp hu]
    exact .finite hu (scientificDigits_nearest hp hm hm' he).1

example : scientific 3 1.0625 = "1.062e0" := by decide +kernel

example : scientific 3 9.9996 = "1.000e1" := by decide +kernel

/-- The text of a float in scientific notation is unique: it is the one `scientific` writes. -/
theorem eq_scientific_of_scientificText {places : ℕ} (hp : 0 < places) {x : Float} {t : String}
    (h : ScientificText places x t) : t = scientific places x := by
  cases h with
  | nan hu => rw [scientific_of_nan hu]
  | infinity hu => rw [scientific_of_infinity hu]
  | zero hu => rw [scientific_of_zero hp hu]
  | @finite s m e hm d k hu hnear =>
    obtain ⟨hm', he⟩ := fits_of_unpack hu
    obtain ⟨hd, hk⟩ := (scientificDigits_nearest hp hm hm' he).2 d k hnear
    rw [scientific_of_finite hp hu, hd, hk]

theorem ofList_numeral (n : ℕ) : String.ofList (numeral n) = toString n := by
  rw [numeral_eq_toDigits]
  rfl

end Decimal

/-- The one-glance text of a matrix: its corners, `...` between them where rows or columns are left
out, and its size, each entry in scientific notation with three places, the one text that rounds the
value to nearest with ties to even. -/
theorem display_shows_corners_in_scientific (a : Dense) :
    a.display =
        (if a.rows = 0 ∨ a.cols = 0 then "[ ]"
        else
          "[ " ++ Dense.cornerText (a.entry 0 0) ++ (if 2 < a.cols then " ..." else "") ++
            (if 1 < a.cols then " " ++ Dense.cornerText (a.entry 0 (a.cols - 1)) else "") ++
            (if 2 < a.rows then "\n  ..." else "") ++
            (if 1 < a.rows then
              "\n  " ++ Dense.cornerText (a.entry (a.rows - 1) 0) ++
                (if 2 < a.cols then " ..." else "") ++
                (if 1 < a.cols then " " ++ Dense.cornerText (a.entry (a.rows - 1) (a.cols - 1))
                else "")
            else "") ++ " ]") ++
          " (" ++ toString a.rows ++ " x " ++ toString a.cols ++ ")" ∧
      ∀ (x : Float) (t : String), Decimal.ScientificText 3 x t ↔ t = Dense.cornerText x := by
  refine ⟨?_, fun x t => ⟨Decimal.eq_scientific_of_scientificText (by norm_num),
    fun h => h ▸ Decimal.scientificText_scientific (by norm_num) x⟩⟩
  simp only [Dense.display, Dense.cornerRow, Decimal.ofList_numeral, String.append_assoc]

end ConvexQp
