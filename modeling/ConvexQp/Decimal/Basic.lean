import ConvexQp.Binary64.Basic
/-! Finite decimals `(-1)^negative * digits * 10^exponent`, the exact scale of a positive rational
in powers of ten, and the decimal numeral of a natural number. -/

namespace ConvexQp

/-- A finite decimal `(-1)^negative * digits * 10^exponent`. -/
structure Decimal where
  negative : Bool
  digits : Nat
  exponent : Int
  deriving DecidableEq, Repr

namespace Decimal

/-- Whether `a / b ≥ 10^k`, for `k` of either sign. -/
def atLeastPow10 (a b : Nat) (k : Int) : Bool :=
  if 0 ≤ k then decide (b * Nat.pow 10 k.toNat ≤ a) else decide (b ≤ a * Nat.pow 10 (-k).toNat)

/-- The number of decimal digits of `n`; zero has one. -/
def digitCount (n : Nat) : Nat :=
  if n < 10 then 1 else digitCount (n / 10) + 1
termination_by n
decreasing_by omega

/-- From a guess `k`, the largest power of ten not above `a / b`, found by stepping down while
`10^k` is above it and then up while `10^(k+1)` is not; each walk takes at most `steps` steps. -/
def settlePow10 (a b : Nat) (steps : Nat) (k : Int) : Int :=
  let down := (List.range steps).foldl (fun k _ => if atLeastPow10 a b k then k else k - 1) k
  (List.range steps).foldl (fun k _ => if atLeastPow10 a b (k + 1) then k + 1 else k) down

/-- The integer `k` with `10^k ≤ a / b < 10^(k+1)`, for positive `a` and `b`. The binary lengths of
`a` and `b` give `log₂ (a / b)` within one, `⌊l · 78913 / 2^18⌋` turns a binary exponent `l` into a
decimal one, and comparisons with powers of ten settle the last step. -/
def log10Floor (a b : Nat) : Int :=
  let l : Int := (Nat.log2 a : Int) - Nat.log2 b
  settlePow10 a b 4 (Int.fdiv (l * 78913) 262144)

/-- The numerator and denominator of `m * 2^e`. -/
def binaryRatio (m : Nat) (e : Int) : Nat × Nat :=
  if 0 ≤ e then (m * Nat.pow 2 e.toNat, 1) else (m, Nat.pow 2 (-e).toNat)

/-- The decimal numeral of `n`, most significant digit first. -/
def numeral (n : Nat) : List Char :=
  if n < 10 then [Char.ofNat (48 + n)] else numeral (n / 10) ++ [Char.ofNat (48 + n % 10)]
termination_by n
decreasing_by omega

/-- The numeral of an integer, with a minus sign when negative. -/
def intNumeral (k : Int) : List Char :=
  if k < 0 then '-' :: numeral k.natAbs else numeral k.toNat

/-- `n` zeros. -/
def zeros (n : Nat) : List Char := List.replicate n '0'

end Decimal

end ConvexQp
