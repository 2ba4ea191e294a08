import ConvexQp.Decimal.Basic
/-! Scientific notation with a fixed number of places: one digit, a point, `places` digits, `e` and
the decimal exponent, as in `-9.877e4`. The digits are those of the exact binary value rounded
once, a tie going to the even last digit; a carry into a new digit moves the exponent up. -/

namespace ConvexQp

namespace Decimal

/-- The significand `d` with `places + 1` digits and the exponent `k` with `d * 10^(k - places)`
nearest to `m * 2^e`, for positive `m`. -/
def scientificDigits (places m : Nat) (e : Int) : Nat × Int :=
  let (a, b) := binaryRatio m e
  let k := log10Floor a b
  let shift : Int := places - k
  let d := roundHalfEven (a * Nat.pow 10 shift.toNat) (b * Nat.pow 10 (-shift).toNat)
  if d = Nat.pow 10 (places + 1) then (Nat.pow 10 places, k + 1) else (d, k)

/-- A float in scientific notation with `places` digits after the point: `NaN`, `inf` and `-inf`
for the values that are not finite, and zero written with the exponent `0` and its sign kept. -/
def scientific (places : Nat) (x : Float) : String :=
  match Binary64.ofFloat x with
  | .nan => "NaN"
  | .infinite negative => if negative then "-inf" else "inf"
  | .finite negative m e =>
    let (d, k) := if m = 0 then (0, 0) else scientificDigits places m e
    let s := numeral d
    -- zero has a single digit; the places are zeros then
    let s := if m = 0 then s ++ zeros places else s
    let mantissa := if places = 0 then s else s.take 1 ++ '.' :: s.drop 1
    String.ofList ((if negative then ['-'] else []) ++ mantissa ++ 'e' :: intNumeral k)

end Decimal

end ConvexQp
