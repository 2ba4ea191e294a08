import ConvexQp.Problem.Safer
import ConvexQp.Solver.Engine
/-! Solving by name: the name is looked up first, then the problem is normalized and the solver run;
a relaxed problem goes only to a built dense solver, augmented, normalized and solved. -/

namespace ConvexQp

namespace Solver

/-- The shared engine of a named solver: an unknown name and a solver not built are errors. -/
def backend (name : String) : Except QpError Engine := do
  let s ← lookup name
  match Engine.shared s with
  | some e => pure e
  | none => throw (.solverUnavailable name)

/-- A solver has a shared engine exactly when this build holds it. -/
theorem shared_eq_none_iff (s : Solver) : Engine.shared s = none ↔ s.isBuilt = false := by
  cases s <;> simp [Engine.shared, Engine.ofEnvironment, isBuilt]

theorem backend_of_unknown {name : String} (h : ∀ s : Solver, s.name ≠ name) :
    backend name = .error (.unknownSolver name) := by
  simp only [backend, lookup_of_unknown h]
  rfl

theorem backend_of_name (s : Solver) :
    backend s.name = match Engine.shared s with
      | some e => .ok e
      | none => .error (.solverUnavailable s.name) := by
  simp only [backend, lookup_of_name]
  rfl

/-- A name has a shared engine exactly when it names a solver this build holds. -/
theorem backend_ok_iff (name : String) :
    (∃ e, backend name = .ok e) ↔ isAvailable name = true := by
  by_cases h : ∃ s : Solver, s.name = name
  · obtain ⟨s, rfl⟩ := h
    rw [backend_of_name, isAvailable_of_name]
    cases s <;> simp [Engine.shared, Engine.ofEnvironment, isBuilt]
  · have h' : ∀ s : Solver, s.name ≠ name := fun s hs => h ⟨s, hs⟩
    rw [backend_of_unknown h', isAvailable_of_unknown h']
    simp

end Solver

/-- Runs the named solver on normalized data. -/
def dispatch (name : String) (d : Normalized) (start : Option (Array Float)) (verbose : Bool) :
    Except QpError Outcome := do
  let e ← Solver.backend name
  Solver.setVerbosity name verbose
  pure (e.solve d start)

/-- The choices of a solve: the solver by name (a default when absent), whether `P` is replaced by its
symmetric part, and whether the solver reports progress. -/
structure SolveOptions where
  solver : Option String := none
  symmetrize : Bool := false
  verbose : Bool := false

/-- The solver's name: the one given, or the default solver's. -/
def SolveOptions.solverName (o : SolveOptions) : String :=
  o.solver.getD Solver.defaultSolver.name

namespace Problem

/-- Normalizes a problem and runs the named solver on it; a stop while normalizing stops the run. -/
def normalizeAndDispatch (p : Problem) (name : String) (o : SolveOptions) :
    Except QpError Outcome :=
  match p.normalize o.symmetrize with
  | some r => r.bind fun d => dispatch name d p.start o.verbose
  | none => .ok .aborted

/-- Solves a problem: the solver's name is checked first, then the problem is normalized, then it is
solved. -/
def solve (p : Problem) (o : SolveOptions) : Except QpError Outcome := do
  let _ ← Solver.backend o.solverName
  p.normalizeAndDispatch o.solverName o

end Problem

namespace SaferProblem

/-- Whether a solver name may solve relaxed problems: a built solver on dense data. -/
def acceptsSolver (name : String) : Bool :=
  Solver.denseSolvers.any (·.name == name)

/-- Solves a relaxed problem with a solver it accepts, answering the first `n` values, `infeasible`
when there is no answer; `none` for a solver it does not accept, a stop, or a short answer. -/
def solve? (s : SaferProblem) (o : SolveOptions) : Option (Except QpError (Array Float)) :=
  let name := o.solver.getD Solver.defaultDenseSolver.name
  if acceptsSolver name then
    let run : Option (Except QpError Outcome) :=
      s.augmented.map fun r => r.bind fun p => p.normalizeAndDispatch name o
    match run with
    | some (.ok (.solved z)) => (s.extract? z).map .ok
    | some (.ok .unsolved) => some (.error .infeasible)
    | some (.ok .aborted) => none
    | some (.error e) => some (.error e)
    | none => none
  else none

end SaferProblem

end ConvexQp
