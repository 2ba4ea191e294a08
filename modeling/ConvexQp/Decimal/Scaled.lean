import ConvexQp.Decimal.Read
/-! Reading a number of the request format in two roundings: its leading digits as a word below
`2^64`, rounded to a float, then scaled by the float nearest to the power of ten, so that
`1.9999999999999998` reads as `2`. -/

namespace ConvexQp

namespace Decimal

/-- The largest value of a 64-bit word. -/
def wordMax : Nat := 18446744073709551615

/-- Gathers digits into the word `acc` while it stays within `wordMax`: the word, and the digits
from the first one that would not fit. -/
def gatherWord (acc : Nat) : List Char → Nat × List Char
  | [] => (acc, [])
  | c :: cs =>
    let next := acc * 10 + (c.toNat - 48)
    if next ≤ wordMax then gatherWord next cs else (acc, c :: cs)

/-- The float nearest to `10^k`. -/
def powerOfTen (k : Nat) : Float := Binary64.nearest false (Nat.pow 10 k) 1

/-- `f` scaled by `10^e`, by one multiplication or division by the float nearest to the power, after
dividing by `10^308` while the power is beyond it; `none` when the value overflows. `steps` bounds
the divisions. -/
def scaleByPower (f : Float) (e : Int) : (steps : Nat) → Option Float
  | 0 => some f
  | steps + 1 =>
    if e.natAbs ≤ 308 then
      if 0 ≤ e then
        let g := f * powerOfTen e.toNat
        if g.isInf then none else some g
      else some (f / powerOfTen e.natAbs)
    else if f == 0.0 then some f
    else if 0 ≤ e then none
    else scaleByPower (f / powerOfTen 308) (e + 308) steps

/-- Reads a number of the request format: an optional minus sign, digits, an optional point with
digits, and an optional exponent; `none` for any other text or a number too large for a float. -/
def readScaled? (s : String) : Option Float := do
  let (negative, rest) := match s.toList with
    | '-' :: more => (true, more)
    | more => (false, more)
  let whole := rest.takeWhile Char.isDigit
  let afterWhole := rest.dropWhile Char.isDigit
  if whole.isEmpty then none
  let (fraction, afterFraction) ← match afterWhole with
    | '.' :: more =>
      let ds := more.takeWhile Char.isDigit
      if ds.isEmpty then none else some (some ds, more.dropWhile Char.isDigit)
    | more => some (none, more)
  let power ← readExponent? afterFraction
  let (word, extra) := gatherWord 0 whole
  let (word, fractionTaken) := match fraction with
    | some ds =>
      let (w, left) := gatherWord word ds
      (w, ds.length - left.length)
    | none => (word, 0)
  let plain := fraction.isNone && afterFraction.isEmpty && extra.isEmpty
  let magnitude := Binary64.nearest false word 1
  if plain then
    pure (if negative && word != 0 then -magnitude else magnitude)
  else
    let e : Int := extra.length - fractionTaken + power
    let f ← scaleByPower magnitude e (e.natAbs / 308 + 1)
    pure (if negative then -f else f)

end Decimal

end ConvexQp
