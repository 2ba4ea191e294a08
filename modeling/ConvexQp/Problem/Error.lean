import ConvexQp.Decimal.Basic
/-! What can go wrong before a problem reaches a solver, or after: a constraint given without its
partner, a part of the wrong size, a solver name that is unknown or not built in, and a relaxed
problem without solution. Each has one message. -/

namespace ConvexQp

/-- The parts of a problem, by the letters that messages use. -/
inductive Part where
  /-- The matrix `P` of the quadratic term. -/
  | quad
  /-- The vector `q` of the linear term. -/
  | lin
  /-- The matrix `G` of the inequalities `G x ≤ h`. -/
  | ineqLhs
  /-- The right-hand side `h` of the inequalities. -/
  | ineqRhs
  /-- The matrix `A` of the equalities `A x = b`. -/
  | eqLhs
  /-- The right-hand side `b` of the equalities. -/
  | eqRhs
  /-- The lower bounds `lb`. -/
  | lower
  /-- The upper bounds `ub`. -/
  | upper
  /-- The starting point `initvals`. -/
  | start
  deriving DecidableEq, Repr

/-- The name of a part in messages. -/
def Part.name : Part → String
  | .quad => "P"
  | .lin => "q"
  | .ineqLhs => "G"
  | .ineqRhs => "h"
  | .eqLhs => "A"
  | .eqRhs => "b"
  | .lower => "lb"
  | .upper => "ub"
  | .start => "initvals"

/-- The two kinds of paired constraints. -/
inductive ConstraintKind where
  | inequality
  | equality
  deriving DecidableEq, Repr

/-- The word for a kind of constraint in messages. -/
def ConstraintKind.name : ConstraintKind → String
  | .inequality => "inequality"
  | .equality => "equality"

/-- The errors of checking, normalizing and solving a problem. -/
inductive QpError where
  /-- A constraint matrix without its right-hand side, or the other way round. -/
  | incompleteConstraint (kind : ConstraintKind) (missing : Part)
  /-- A part whose size `(rows, cols)` is not the one the problem asks for. -/
  | dimensionMismatch (what : Part) (expected found : Nat × Nat)
  /-- A solver name that is not in the table of solvers. -/
  | unknownSolver (name : String)
  /-- A solver in the table that this build does not hold. -/
  | solverUnavailable (name : String)
  /-- The relaxed problem was not solved. -/
  | infeasible
  deriving DecidableEq, Repr

namespace QpError

/-- A size as it stands in messages: `(rows, cols)`. -/
def sizeText (s : Nat × Nat) : String :=
  "(" ++ String.ofList (Decimal.numeral s.1) ++ ", " ++ String.ofList (Decimal.numeral s.2) ++ ")"

/-- The message of an error. -/
def message : QpError → String
  | .incompleteConstraint kind missing =>
    "incomplete " ++ kind.name ++ " constraint (missing " ++ missing.name ++ ")"
  | .dimensionMismatch what expected found =>
    "dimension mismatch of " ++ what.name ++ ": expected " ++ sizeText expected ++ ", found " ++
      sizeText found
  | .unknownSolver name => "solver \x27" ++ name ++ "\x27 not recognized"
  | .solverUnavailable name => "solver \x27" ++ name ++ "\x27 not available (enable its cargo feature)"
  | .infeasible => "no solution found for the relaxed problem"

end QpError

end ConvexQp
