import ConvexQp.Mat.Lhs
/-! A convex quadratic program, minimize `½ xᵀ P x + qᵀ x` under `G x ≤ h`, `A x = b` and
`lb ≤ x ≤ ub`, as handed in: every part but `P` and `q` may be absent. -/

namespace ConvexQp

/-- A quadratic program as given, with optional constraints and an optional starting point. -/
structure Problem where
  /-- `P`, the matrix of the quadratic term. -/
  quad : Mat
  /-- `q`, the linear term; its length is the number of variables. -/
  lin : Array Float
  /-- `G` of `G x ≤ h`. -/
  ineqLhs : Option Lhs := none
  /-- `h` of `G x ≤ h`. -/
  ineqRhs : Option (Array Float) := none
  /-- `A` of `A x = b`. -/
  eqLhs : Option Lhs := none
  /-- `b` of `A x = b`. -/
  eqRhs : Option (Array Float) := none
  /-- `lb` of `lb ≤ x`. -/
  lower : Option (Array Float) := none
  /-- `ub` of `x ≤ ub`. -/
  upper : Option (Array Float) := none
  /-- A starting point for the solver. -/
  start : Option (Array Float) := none

/-- The sum of floats from the left, starting at `-0.0`, so that an empty sum is `-0.0` and a sum of
zeros keeps the sign they share. -/
def floatSum (xs : List Float) : Float :=
  xs.foldl (· + ·) (-0.0)

/-- The products of two vectors entry by entry, as far as the shorter reaches. -/
def pairProducts (x y : Array Float) : List Float :=
  List.zipWith (· * ·) x.toList y.toList

namespace Problem

/-- The number of variables, the length of `q`. -/
def dim (p : Problem) : Nat := p.lin.size

/-- The objective `½ xᵀ (P x) + qᵀ x` at `x`, each sum from the left; `none` unless `x` has one
value per column of `P`. The second sum runs as far as the shorter of `x` and `q`. -/
def objective? (p : Problem) (x : Array Float) : Option Float :=
  (p.quad.mulVec? x).map fun px =>
    0.5 * floatSum (pairProducts x px) + floatSum (pairProducts x p.lin)

end Problem

end ConvexQp
