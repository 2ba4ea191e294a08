import ConvexQp.Problem.Error
/-! The table of solvers: four names, each with the storage it takes natively, in a fixed order.
Three are built in; `osqp` is known but not built, so asking for it is an error of its own. Names are
matched exactly, case and blanks included. -/

namespace ConvexQp

/-- The storage a solver takes natively; any storage is accepted all the same. -/
inductive Capability where
  | dense
  | sparse
  deriving DecidableEq, Repr

/-- The solvers in the table. -/
inductive Solver where
  /-- An interior-point solver for conic programs, on sparse data. -/
  | clarabel
  /-- An operator-splitting solver on sparse data; not built in. -/
  | osqp
  /-- A dual active-set solver on dense data, for positive definite `P`. -/
  | quadprog
  /-- A first-order primal-dual solver on dense data. -/
  | totsu
  deriving DecidableEq, Repr

namespace Solver

/-- The table, in its order. -/
def all : List Solver := [.clarabel, .osqp, .quadprog, .totsu]

/-- The name of a solver in the table. -/
def name : Solver → String
  | .clarabel => "clarabel"
  | .osqp => "osqp"
  | .quadprog => "quadprog"
  | .totsu => "totsu"

/-- The storage a solver takes natively. -/
def capability : Solver → Capability
  | .clarabel => .sparse
  | .osqp => .sparse
  | .quadprog => .dense
  | .totsu => .dense

/-- Whether this build holds the solver. -/
def isBuilt : Solver → Bool
  | .osqp => false
  | _ => true

/-- The solver of a name, matched exactly; an unknown name is an error. -/
def lookup (name : String) : Except QpError Solver :=
  match all.find? (·.name == name) with
  | some s => .ok s
  | none => .error (.unknownSolver name)

/-- Whether the name is that of a solver this build holds. -/
def isAvailable (name : String) : Bool :=
  match lookup name with
  | .ok s => s.isBuilt
  | .error _ => false

/-- The capability of a named solver; an unknown name is an error. -/
def capabilityOf (name : String) : Except QpError Capability :=
  (lookup name).map capability

/-- Turning a solver's progress output on or off succeeds for every name in the table, built or
not. -/
def setVerbosity (name : String) (_verbose : Bool) : Except QpError Unit :=
  (lookup name).map fun _ => ()

/-- The solvers this build holds, in table order. -/
def available : List Solver := all.filter isBuilt

/-- The built solvers that take dense data. -/
def denseSolvers : List Solver := available.filter (·.capability == .dense)

/-- The built solvers that take sparse data. -/
def sparseSolvers : List Solver := available.filter (·.capability == .sparse)

/-- The solver used when none is named. -/
def defaultSolver : Solver := .clarabel

/-- The solver used for relaxed problems when none is named. -/
def defaultDenseSolver : Solver := .totsu

/-- Each solver is found by its own name. -/
theorem lookup_of_name (s : Solver) : lookup s.name = .ok s := by
  cases s <;> rfl

/-- A name that no solver has is unknown. -/
theorem lookup_of_unknown {name : String} (h : ∀ s : Solver, s.name ≠ name) :
    lookup name = .error (.unknownSolver name) := by
  have e1 : ("clarabel" == name) = false := beq_eq_false_iff_ne.2 (h .clarabel)
  have e2 : ("osqp" == name) = false := beq_eq_false_iff_ne.2 (h .osqp)
  have e3 : ("quadprog" == name) = false := beq_eq_false_iff_ne.2 (h .quadprog)
  have e4 : ("totsu" == name) = false := beq_eq_false_iff_ne.2 (h .totsu)
  simp [lookup, all, List.find?, Solver.name, e1, e2, e3, e4]

theorem isAvailable_of_name (s : Solver) : isAvailable s.name = s.isBuilt := by
  simp only [isAvailable, lookup_of_name]

theorem isAvailable_of_unknown {name : String} (h : ∀ s : Solver, s.name ≠ name) :
    isAvailable name = false := by
  simp only [isAvailable, lookup_of_unknown h]

theorem capabilityOf_of_unknown {name : String} (h : ∀ s : Solver, s.name ≠ name) :
    capabilityOf name = .error (.unknownSolver name) := by
  simp only [capabilityOf, lookup_of_unknown h]
  rfl

theorem setVerbosity_of_name (s : Solver) (v : Bool) : setVerbosity s.name v = .ok () := by
  simp only [setVerbosity, lookup_of_name]
  rfl

theorem setVerbosity_of_unknown {name : String} (h : ∀ s : Solver, s.name ≠ name) (v : Bool) :
    setVerbosity name v = .error (.unknownSolver name) := by
  simp only [setVerbosity, lookup_of_unknown h]
  rfl

end Solver

end ConvexQp
