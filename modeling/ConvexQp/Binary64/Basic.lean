/-! Binary64 values by their parts. A finite value is a sign, an integer significand and a power of
two, so its exact value is a rational; `Binary64.nearest` goes back from a positive rational to the
closest binary64 value, a tie going to the even significand, as IEEE 754 rounds by default. -/

namespace ConvexQp

/-- A binary64 value read from its bits: not a number, an infinity, or a finite value
`(-1)^negative * significand * 2^exponent`. -/
inductive Binary64 where
  | nan
  | infinite (negative : Bool)
  | finite (negative : Bool) (significand : Nat) (exponent : Int)
  deriving DecidableEq, Repr

/-- The quotient `a / b` rounded to the nearest integer, a tie going to the even one. -/
def roundHalfEven (a b : Nat) : Nat :=
  let q := a / b
  let r := a % b
  if b < 2 * r ∨ (2 * r = b ∧ q % 2 = 1) then q + 1 else q

namespace Binary64

/-- The exponent of the least subnormal value, `2^-1074`. -/
def leastExponent : Int := -1074

/-- The parts of a float, read off its bits. Subnormal values and zeros have exponent `-1074`. -/
def ofFloat (x : Float) : Binary64 :=
  let bits := x.toBits.toNat
  let negative := decide (bits / Nat.pow 2 63 = 1)
  let biased : Nat := bits / Nat.pow 2 52 % Nat.pow 2 11
  let fraction : Nat := bits % Nat.pow 2 52
  if biased = 2047 then
    if fraction = 0 then .infinite negative else .nan
  else if biased = 0 then .finite negative fraction leastExponent
  else .finite negative (fraction + Nat.pow 2 52) ((biased : Int) - 1075)

/-- The exact value of a finite float; `none` for infinities and NaN. -/
def toRat? : Binary64 → Option Rat
  | .finite negative m e =>
    let magnitude : Rat := if 0 ≤ e then (m * Nat.pow 2 e.toNat : Nat) else Rat.divInt m (Nat.pow 2 (-e).toNat)
    some (if negative then -magnitude else magnitude)
  | _ => none

/-- `a * 2^k ≤ b * 2^j` style comparison of `a / b` against `2^k`, with `k` of either sign. -/
def atLeastPow2 (a b : Nat) (k : Int) : Bool :=
  if 0 ≤ k then decide (b * Nat.pow 2 k.toNat ≤ a) else decide (b ≤ a * Nat.pow 2 (-k).toNat)

/-- The integer `k` with `2^k ≤ a / b < 2^(k+1)`, for `a` and `b` positive. The bit lengths of `a`
and `b` give it up to one, and one comparison settles it. -/
def log2Floor (a b : Nat) : Int :=
  let k : Int := (a.log2 : Int) - b.log2
  if atLeastPow2 a b k then k else k - 1

/-- The bits of the float nearest to `(-1)^negative * a / b`, for `b` positive. Values beyond the
largest finite float round to an infinity, and values below half the least subnormal to a zero of
the same sign. -/
def nearestBits (negative : Bool) (a b : Nat) : Nat :=
  let sign := if negative then Nat.pow 2 63 else 0
  if a = 0 ∨ b = 0 then sign
  else
    let q := max (log2Floor a b - 52) leastExponent
    let s := if 0 ≤ q then roundHalfEven a (b * Nat.pow 2 q.toNat) else roundHalfEven (a * Nat.pow 2 (-q).toNat) b
    -- a carry out of the top bit moves to the next binade
    let (s, q) := if s = Nat.pow 2 53 then (Nat.pow 2 52, q + 1) else (s, q)
    let biased : Int := if Nat.pow 2 52 ≤ s then q + 1075 else 0
    if 2047 ≤ biased then sign + 2047 * Nat.pow 2 52
    else sign + biased.toNat * Nat.pow 2 52 + s % Nat.pow 2 52

/-- The float nearest to `(-1)^negative * a / b`, ties to even. -/
def nearest (negative : Bool) (a b : Nat) : Float :=
  Float.ofBits (UInt64.ofNat (nearestBits negative a b))

/-- An infinity of either sign. -/
def infinity (negative : Bool) : Float :=
  Float.ofBits (if negative then 0xFFF0000000000000 else 0x7FF0000000000000)

/-- The quiet NaN with no payload. -/
def quietNan : Float := Float.ofBits 0x7FF8000000000000

/-- The float nearest to a rational, ties to even; zero is `+0.0`. -/
def ofRat (x : Rat) : Float :=
  nearest (decide (x < 0)) x.num.natAbs x.den

end Binary64

end ConvexQp
