/-! Vectors of floats for the numerical methods, as arrays. Sums run from the left and start at
`0.0`, in the order of the entries, so that every method rounds the same way on every run. The
maximum and minimum of two floats pass over a NaN: of a NaN and a number they give the number. -/

namespace ConvexQp

namespace Float

/-- The machine epsilon: the gap between `1` and the next float, `2⁻⁵²`. -/
def epsilon : Float := 2.220446049250313e-16

/-- The greater of two floats, passing over a NaN. -/
def maxNum (a b : Float) : Float :=
  if a.isNaN then b else if b.isNaN then a else if a ≥ b then a else b

/-- The lesser of two floats, passing over a NaN. -/
def minNum (a b : Float) : Float :=
  if a.isNaN then b else if b.isNaN then a else if a ≤ b then a else b

/-- `x` with the sign bit of `s`: `|x|` when `s` has no sign, `-|x|` when it has, `-0.0` included. -/
def copySign (x s : Float) : Float :=
  Float.ofBits ((x.toBits &&& 0x7FFFFFFFFFFFFFFF) ||| (s.toBits &&& 0x8000000000000000))

end Float

namespace Vector

/-- The vector of `n` zeros. -/
def zeros (n : Nat) : Array Float := Array.replicate n 0.0

/-- The sum of the entries, from the left. -/
def sum (x : Array Float) : Float := x.foldl (· + ·) 0.0

/-- `Σ xᵢ yᵢ` from the left, as far as the shorter vector reaches. -/
def dot (x y : Array Float) : Float :=
  (List.zipWith (· * ·) x.toList y.toList).foldl (· + ·) 0.0

/-- The greatest magnitude of an entry; NaN as soon as an entry is NaN. -/
def normInf (x : Array Float) : Float :=
  x.foldl (fun m v => if m.isNaN then m else if v.abs.isNaN then v.abs else
    if v.abs > m then v.abs else m) 0.0

/-- The greatest magnitude of `xᵢ sᵢ`; NaN as soon as one is NaN. -/
def normInfScaled (x s : Array Float) : Float :=
  normInf (Array.zipWith (· * ·) x s)

/-- The Euclidean norm, the root of the sum of squares. -/
def norm2 (x : Array Float) : Float := (dot x x).sqrt

/-- `a x + b y`, entry by entry. -/
def axpby (a : Float) (x : Array Float) (b : Float) (y : Array Float) : Array Float :=
  Array.zipWith (fun u v => a * u + b * v) x y

/-- The products `xᵢ yᵢ`. -/
def hadamard (x y : Array Float) : Array Float := Array.zipWith (· * ·) x y

/-- Every entry times `a`. -/
def scale (a : Float) (x : Array Float) : Array Float := x.map (a * ·)

/-- The entries negated. -/
def neg (x : Array Float) : Array Float := x.map (- ·)

@[simp] theorem size_zeros (n : Nat) : (zeros n).size = n := by simp [zeros]

@[simp] theorem size_scale (a : Float) (x : Array Float) : (scale a x).size = x.size := by
  simp [scale]

@[simp] theorem size_neg (x : Array Float) : (neg x).size = x.size := by simp [neg]

@[simp] theorem size_hadamard (x y : Array Float) :
    (hadamard x y).size = min x.size y.size := by simp [hadamard]

end Vector

end ConvexQp
