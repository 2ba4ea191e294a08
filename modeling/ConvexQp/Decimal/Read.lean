import ConvexQp.Decimal.Basic
/-! Reading numbers from text: a float is `inf`, `infinity` or `nan` in any case, or a decimal read
as the nearest float, ties to even; a natural number is an optional plus sign and ASCII digits. -/

namespace ConvexQp

namespace Decimal

/-- The value of a list of ASCII digits. -/
def digitsValue (ds : List Char) : Nat :=
  ds.foldl (fun n c => 10 * n + (c.toNat - 48)) 0

/-- The sign that may open a number, and the characters after it. -/
def splitSign : List Char → Bool × List Char
  | '-' :: rest => (true, rest)
  | '+' :: rest => (false, rest)
  | rest => (false, rest)

/-- An optional exponent part `e` or `E`, a sign and one or more digits, read to the end. -/
def readExponent? : List Char → Option Int
  | [] => some 0
  | c :: rest =>
    if c = 'e' ∨ c = 'E' then
      let (negative, ds) := splitSign rest
      if ds ≠ [] ∧ ds.all Char.isDigit then
        let v : Int := digitsValue ds
        some (if negative then -v else v)
      else none
    else none

/-- The finite decimal that text spells, if it is one: digits, an optional point with digits, and
an optional exponent, at least one digit in all. -/
def readDecimal? (negative : Bool) (cs : List Char) : Option Decimal :=
  let whole := cs.takeWhile Char.isDigit
  let rest := cs.dropWhile Char.isDigit
  let (fraction, rest) := match rest with
    | '.' :: more => (more.takeWhile Char.isDigit, more.dropWhile Char.isDigit)
    | _ => ([], rest)
  if whole.isEmpty ∧ fraction.isEmpty then none
  else
    (readExponent? rest).map fun k =>
      ⟨negative, digitsValue (whole ++ fraction), k - fraction.length⟩

/-- The float nearest to a decimal, ties to even. Decimals far beyond the range of floats are
settled by their digit count alone, so no huge power of ten is formed. -/
def toFloat (x : Decimal) : Float :=
  if x.digits = 0 then Binary64.nearest x.negative 0 1
  else
    -- `10^(top - 1) ≤ |x| < 10^top`
    let top := x.exponent + digitCount x.digits
    if 310 < top then Binary64.infinity x.negative
    else if top < -324 then Binary64.nearest x.negative 0 1
    else if 0 ≤ x.exponent then Binary64.nearest x.negative (x.digits * Nat.pow 10 x.exponent.toNat) 1
    else Binary64.nearest x.negative x.digits (Nat.pow 10 (-x.exponent).toNat)

/-- Lower-case ASCII letters, other characters unchanged. -/
def lowerAscii (cs : List Char) : List Char := cs.map Char.toLower

/-- Reads a float: `inf`, `infinity` or `nan` in any case after an optional sign, or a decimal. -/
def readFloat? (s : String) : Option Float :=
  let (negative, rest) := splitSign s.toList
  let word := lowerAscii rest
  if word = "inf".toList ∨ word = "infinity".toList then
    some (Binary64.infinity negative)
  else if word = "nan".toList then some Binary64.quietNan
  else (readDecimal? negative rest).map Decimal.toFloat

/-- Reads a natural number: an optional plus sign and one or more ASCII digits. -/
def readNat? (s : String) : Option Nat :=
  let ds := match s.toList with
    | '+' :: rest => rest
    | cs => cs
  if ds ≠ [] ∧ ds.all Char.isDigit then some (digitsValue ds) else none

end Decimal

end ConvexQp
