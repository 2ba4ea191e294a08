import ConvexQp.Problem.Basic
import ConvexQp.Problem.Error
/-! The two checks a problem passes before it is normalized, each reporting its first failure: the
pairs `G`, `h` then `A`, `b`, and the sizes against `n`, the length of `q`. -/

namespace ConvexQp

namespace Problem

/-- A pair of a matrix and its right-hand side: both present or both absent; otherwise the error
names the one missing. -/
def checkPair {α β : Type} (kind : ConstraintKind) (mat : Option α) (matPart : Part) (rhs : Option β)
    (rhsPart : Part) : Except QpError Unit :=
  match mat, rhs with
  | some _, none => .error (.incompleteConstraint kind rhsPart)
  | none, some _ => .error (.incompleteConstraint kind matPart)
  | _, _ => .ok ()

/-- The pairs are complete: first `G` with `h`, then `A` with `b`. -/
def checkPairs (p : Problem) : Except QpError Unit := do
  checkPair .inequality p.ineqLhs .ineqLhs p.ineqRhs .ineqRhs
  checkPair .equality p.eqLhs .eqLhs p.eqRhs .eqRhs

/-- A size demanded of a part: the part, the size it should have, and the size it has. -/
structure SizeDemand where
  what : Part
  expected : Nat × Nat
  found : Nat × Nat

/-- The demand on a vector, of length `n`, if it is present. -/
def vectorDemand (what : Part) (n : Nat) : Option (Array Float) → List SizeDemand
  | some v => [⟨what, (n, 1), (v.size, 1)⟩]
  | none => []

/-- The demand on a constraint matrix, of `len rhs` rows and `n` columns, if it comes with its
right-hand side. -/
def matrixDemand (what : Part) (n : Nat) : Option Lhs → Option (Array Float) → List SizeDemand
  | some l, some rhs => [⟨what, (rhs.size, n), (l.rows, l.cols)⟩]
  | _, _ => []

/-- Every size demand of a problem, in the order they are checked. -/
def sizeDemands (p : Problem) : List SizeDemand :=
  let n := p.dim
  ⟨.quad, (n, n), (p.quad.rows, p.quad.cols)⟩ ::
    (matrixDemand .ineqLhs n p.ineqLhs p.ineqRhs ++ matrixDemand .eqLhs n p.eqLhs p.eqRhs ++
      vectorDemand .lower n p.lower ++ vectorDemand .upper n p.upper ++
      vectorDemand .start n p.start)

/-- The first size demand that is not met is the error. -/
def checkSizes (p : Problem) : Except QpError Unit :=
  match p.sizeDemands.find? (fun d => d.expected != d.found) with
  | some d => .error (.dimensionMismatch d.what d.expected d.found)
  | none => .ok ()

/-- Both checks: the pairs first, then the sizes. -/
def validate (p : Problem) : Except QpError Unit := do
  p.checkPairs
  p.checkSizes

end Problem

end ConvexQp
