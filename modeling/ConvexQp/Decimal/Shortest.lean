import ConvexQp.Decimal.Basic
/-! The shortest decimal that reads back as a given float, tried grid by grid from one digit to
seventeen among the two neighbours of the value, and its text in the layout of answers. -/

namespace ConvexQp

namespace Decimal

/-- A nonnegative rational `num / den` together with its floor and remainder; `den` is positive. -/
structure Fraction where
  /-- The numerator. -/
  num : Nat
  /-- The denominator. -/
  den : Nat
  /-- `num / den`, rounded down. -/
  whole : Nat
  /-- `num % den`. -/
  rem : Nat

namespace Fraction

/-- The rational `num / den`. -/
def ofRatio (num den : Nat) : Fraction := ⟨num, den, num / den, num % den⟩

/-- Whether the fraction is at most the integer `c` (`closed`), or below it: `x ≤ c` when the
floor is below `c` or equals it with nothing left over, and `x < c` when the floor is below `c`. -/
def atMost (x : Fraction) (closed : Bool) (c : Nat) : Bool :=
  x.whole < c || (closed && x.whole == c && x.rem == 0)

/-- Whether the fraction is at least the integer `c` (`closed`), or above it: `c ≤ x` when `c` is
at most the floor, and `c < x` when `c` is below the floor or equals it with something left over. -/
def atLeast (x : Fraction) (closed : Bool) (c : Nat) : Bool :=
  c < x.whole || (c == x.whole && (closed || x.rem != 0))

end Fraction

/-- The rounding interval of `m * 2^e`, in units of `2^(e-2)`: its two ends, and whether they belong
to it. The gap below the least significand of a binade is half the gap above. -/
def roundingInterval (m : Nat) (e : Int) : Nat × Nat × Bool :=
  let low := if m = Nat.pow 2 52 ∧ Binary64.leastExponent < e then 4 * m - 1 else 4 * m - 2
  (low, 4 * m + 2, decide (m % 2 = 0))

/-- A float `m * 2^e` measured on the grid `10^q` of its seventeen significant digits: the low end
of its rounding interval, the value and the high end, each in units of `10^q`; whether the ends
belong to the interval; and `q`. -/
structure Measured where
  /-- The low end of the rounding interval. -/
  low : Fraction
  /-- The value. -/
  value : Fraction
  /-- The high end of the rounding interval. -/
  high : Fraction
  /-- Whether the ends belong to the interval. -/
  closed : Bool
  /-- The exponent of the grid. -/
  unit : Int

/-- `m * 2^e`, for `m` positive, measured in units of `10^q` with `q` sixteen below its first digit:
a count `x` of units of `2^(e-2)` is `x * 2^(e-2-q) * 5^(-q)` units of `10^q`. -/
def measure (m : Nat) (e : Int) : Measured :=
  let (a, b) := binaryRatio m e
  let q := log10Floor a b - 16
  let t := e - 2 - q
  let up := Nat.pow 2 t.toNat * Nat.pow 5 (-q).toNat
  let den := Nat.pow 2 (-t).toNat * Nat.pow 5 q.toNat
  let (low, high, closed) := roundingInterval m e
  ⟨.ofRatio (low * up) den, .ofRatio (4 * m * up) den, .ofRatio (high * up) den, closed, q⟩

/-- Whether `c` units of `10^q` lie in the rounding interval. -/
def Measured.contains (x : Measured) (c : Nat) : Bool :=
  x.low.atMost x.closed c && x.high.atLeast x.closed c

/-- The decimal with `k` significant digits nearest to the measured float that reads back as it,
if the grid of `k` digits has one. -/
def Measured.onGrid (x : Measured) (k : Nat) : Option (Nat × Int) :=
  let g := Nat.pow 10 (17 - k)
  let p := x.unit + (17 - k : Nat)
  -- `d * g ≤ value < (d + 1) * g`, as the floor of a floor
  let d := x.value.whole / g
  let lowIn := x.contains (d * g)
  let highIn := x.contains ((d + 1) * g)
  if lowIn && highIn then
    -- the nearer of the two; `2 * value` against the midpoint `(2d + 1) * g`
    let twice := 2 * x.value.num
    let mid := (2 * d + 1) * g * x.value.den
    if twice < mid then some (d, p)
    else if mid < twice then some (d + 1, p)
    else if d % 2 = 0 then some (d, p) else some (d + 1, p)
  else if lowIn then some (d, p)
  else if highIn then some (d + 1, p)
  else none

/-- Removes the trailing zeros of the digits, raising the exponent to match. -/
def trimZeros (d : Nat) (p : Int) : Nat × Int :=
  if d ≠ 0 ∧ d % 10 = 0 then trimZeros (d / 10) (p + 1) else (d, p)
termination_by d
decreasing_by omega

/-- The shortest decimal that rounds to `m * 2^e`, for `m` positive, without trailing zeros. -/
def shortestDigits (m : Nat) (e : Int) : Nat × Int :=
  let x := measure m e
  match (List.range 17).findSome? (fun i => x.onGrid (i + 1)) with
  | some (d, p) => trimZeros d p
  | none => trimZeros (roundHalfEven x.value.num x.value.den) x.unit

/-- The shortest decimal that reads back as a finite float; `none` for infinities and NaN. -/
def ofFloat? (x : Float) : Option Decimal :=
  match Binary64.ofFloat x with
  | .finite negative m e =>
    if m = 0 then some ⟨negative, 0, 0⟩
    else
      let (d, p) := shortestDigits m e
      some ⟨negative, d, p⟩
  | _ => none

/-- The text of a decimal in answers: positional when the point falls within sixteen digits of the
first digit, else a mantissa and an exponent `e` with a minus sign only; an integral value keeps
`.0`. -/
def render (x : Decimal) : String :=
  let sign : List Char := if x.negative then ['-'] else []
  let s := numeral x.digits
  let k : Int := s.length
  let point := k + x.exponent
  let body : List Char :=
    if x.digits = 0 then ['0', '.', '0']
    else if 0 ≤ x.exponent ∧ point ≤ 16 then s ++ zeros x.exponent.toNat ++ ['.', '0']
    else if 0 < point ∧ point ≤ 16 then s.take point.toNat ++ '.' :: s.drop point.toNat
    else if -5 < point ∧ point ≤ 0 then '0' :: '.' :: zeros (-point).toNat ++ s
    else
      let mantissa := if s.length = 1 then s else s.take 1 ++ '.' :: s.drop 1
      mantissa ++ 'e' :: intNumeral (point - 1)
  String.ofList (sign ++ body)

end Decimal

end ConvexQp
