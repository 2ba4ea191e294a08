import ConvexQp.Linear.Vector
/-! Vectors of unboxed floats for the inner loops of the iterative methods, with the conventions of
`Vector`: `0.0` outside, sums from the left starting at `0.0`. -/

namespace ConvexQp

namespace Flat

/-- Entry `i`; `0.0` outside the vector. -/
@[inline] def get (a : FloatArray) (i : Nat) : Float := if h : i < a.size then a[i] else 0.0

/-- The vector `f 0, …, f (n - 1)`. -/
@[inline] def ofFn (n : Nat) (f : Nat → Float) : FloatArray :=
  Nat.fold n (fun i _ a => a.push (f i)) (FloatArray.emptyWithCapacity n)

/-- `f 0 + ⋯ + f (n - 1)`, from the left, starting at `0.0`. -/
@[inline] def sum (n : Nat) (f : Nat → Float) : Float :=
  Nat.fold n (fun i _ s => s + f i) 0.0

/-- The vector of `n` zeros. -/
def zeros (n : Nat) : FloatArray := ofFn n fun _ => 0.0

/-- `f` applied to every entry. -/
@[inline] def map (f : Float → Float) (x : FloatArray) : FloatArray :=
  ofFn x.size fun i => f (get x i)

/-- `Σ xᵢ yᵢ` from the left, as far as the shorter vector reaches. -/
def dot (x y : FloatArray) : Float := sum (min x.size y.size) fun i => get x i * get y i

/-- The Euclidean norm, the root of the sum of squares. -/
def norm2 (x : FloatArray) : Float := (dot x x).sqrt

/-- The sum of magnitudes of the entries. -/
def magnitude (x : FloatArray) : Float := sum x.size fun i => (get x i).abs

theorem size_fold_push (n : Nat) (f : Nat → Float) (a : FloatArray) :
    (Nat.fold n (fun i _ b => b.push (f i)) a).size = a.size + n := by
  induction n with
  | zero => rfl
  | succ k ih =>
    rw [Nat.fold_succ]
    simp only [FloatArray.size, FloatArray.push, Array.size_push] at ih ⊢
    omega

@[simp] theorem size_ofFn (n : Nat) (f : Nat → Float) : (ofFn n f).size = n := by
  rw [ofFn, size_fold_push]
  exact Nat.zero_add n

@[simp] theorem size_zeros (n : Nat) : (zeros n).size = n := size_ofFn n _

@[simp] theorem size_map (f : Float → Float) (x : FloatArray) : (map f x).size = x.size :=
  size_ofFn _ _

end Flat

end ConvexQp
