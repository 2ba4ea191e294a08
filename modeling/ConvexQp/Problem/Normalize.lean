import ConvexQp.Problem.Check
/-! The normal form that solvers take: `P`, `q`, and `G x ≤ h` and `A x = b` as matrices, the bounds
folded below `G` as `-I x ≤ -lb` then `I x ≤ ub`; `none` where an append stops the program. -/

namespace ConvexQp

/-- A problem in normal form: minimize `½ xᵀ P x + qᵀ x` subject to `G x ≤ h` and `A x = b`. -/
structure Normalized where
  /-- `P`. -/
  quad : Mat
  /-- `q`. -/
  lin : Array Float
  /-- `G` and `h`, if there are inequalities. -/
  ineq : Option (Mat × Array Float)
  /-- `A` and `b`, if there are equalities. -/
  eq : Option (Mat × Array Float)

namespace Normalized

/-- The number of variables `n`. -/
def dim (d : Normalized) : Nat := d.lin.size

/-- The number of inequality rows `m`. -/
def ineqRows (d : Normalized) : Nat := (d.ineq.map (·.2.size)).getD 0

/-- The number of equality rows `p`. -/
def eqRows (d : Normalized) : Nat := (d.eq.map (·.2.size)).getD 0

/-- The constraints stacked as one block `[A; G]` in the storage of `P`, with its right-hand side
`b ++ h` and the numbers `p` of equality rows, which come first, and `m` of inequality rows. Each
block is appended below the stack, which asserts that it is as wide; `none` where it is not. -/
def stackConstraints (d : Normalized) : Option (Mat × Array Float × Nat × Nat) := do
  let start := Mat.zeros 0 d.dim d.quad.storage
  let withEq ← match d.eq with
    | some (a, _) => start.vcat? a
    | none => pure start
  let stacked ← match d.ineq with
    | some (g, _) => withEq.vcat? g
    | none => pure withEq
  let rhs := (d.eq.map (·.2)).getD #[] ++ (d.ineq.map (·.2)).getD #[]
  pure (stacked, rhs, d.eqRows, d.ineqRows)

end Normalized

/-- Appends the rows `sign * I x ≤ sign * bound` to the inequalities, which are then present. The
identity takes the storage of `G`, or the given one when there is no `G`. `none` where the program
stops: `G` is not as wide as the bound is long. -/
def foldBound (ineq : Option (Mat × Array Float)) (storage : Storage) (sign : Float)
    (bound : Array Float) : Option (Mat × Array Float) :=
  let rhs := bound.map (sign * ·)
  match ineq with
  | none => some ((Mat.identity bound.size storage).scale sign, rhs)
  | some (g, h) => (g.vcat? ((Mat.identity bound.size g.storage).scale sign)).map (·, h ++ rhs)

/-- A block of constraints when its matrix and right-hand side are both given, the matrix as a matrix
in the storage `storage`. -/
def constraintBlock (l : Option Lhs) (rhs : Option (Array Float)) (storage : Storage) :
    Option (Mat × Array Float) :=
  match l, rhs with
  | some g, some h => some (g.toMat storage, h)
  | _, _ => none

/-- Folds a bound, if one is given, into the inequalities; `none` where the program stops. -/
def foldBound? (ineq : Option (Mat × Array Float)) (storage : Storage) (sign : Float) :
    Option (Array Float) → Option (Option (Mat × Array Float))
  | some bound => (foldBound ineq storage sign bound).map some
  | none => some ineq

namespace Problem

/-- `P`, replaced by its symmetric part when `symmetrize` is set and `P` is square. -/
def quadFor (p : Problem) (symmetrize : Bool) : Mat :=
  if symmetrize then (p.quad.symmetrize?).getD p.quad else p.quad

/-- The normal form of a problem, after its pairs and then its sizes pass the checks. A row given for
`G` or `A` becomes a one-row matrix in the storage of `P`. `none` where the program stops while the
bounds are folded in. -/
def normalize (p : Problem) (symmetrize : Bool) : Option (Except QpError Normalized) :=
  let quad := p.quadFor symmetrize
  let storage := quad.storage
  match p.validate with
  | .error e => some (.error e)
  | .ok () =>
    (foldBound? (constraintBlock p.ineqLhs p.ineqRhs storage) storage (-1.0) p.lower).bind
      fun ineq => (foldBound? ineq storage 1.0 p.upper).map
        fun ineq => .ok ⟨quad, p.lin, ineq, constraintBlock p.eqLhs p.eqRhs storage⟩

end Problem

end ConvexQp
