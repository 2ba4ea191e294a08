import ConvexQp.Proofs.NormalForm
import ConvexQp.Solver.Dispatch
/-! The order in which solving a problem fails: the solver's name first, then the defects of the
problem, and past both exactly what the named solver's engine makes of the normal form. -/

namespace ConvexQp

/-- A solver in the table runs its shared engine on the data, and nothing can fail. -/
theorem dispatch_of_shared {s : Solver} {e : Engine} (he : Engine.shared s = some e)
    (d : Normalized) (start : Option (Array Float)) (verbose : Bool) :
    dispatch s.name d start verbose = .ok (e.solve d start) := by
  simp only [dispatch, Solver.backend_of_name, he, Solver.setVerbosity_of_name]
  rfl

namespace Problem

/-- With a built solver's name, solving is normalizing and then running that solver's engine. -/
theorem solve_of_built {p : Problem} {o : SolveOptions} {s : Solver} {e : Engine}
    (hs : s.name = o.solverName) (he : Engine.shared s = some e) :
    p.solve o = match p.normalize o.symmetrize with
      | some r => r.map fun d => e.solve d p.start
      | none => .ok .aborted := by
  simp only [solve, normalizeAndDispatch, ← hs, Solver.backend_of_name, he, dispatch_of_shared he]
  cases p.normalize o.symmetrize with
  | none => rfl
  | some r => cases r <;> rfl

end Problem

theorem solve_checks_name_first (p : Problem) (o : SolveOptions) :
    ((∀ s : Solver, s.name ≠ o.solverName) → p.solve o = .error (.unknownSolver o.solverName)) ∧
    (∀ s : Solver, s.name = o.solverName → s.isBuilt = false →
      p.solve o = .error (.solverUnavailable o.solverName)) ∧
    (∀ s : Solver, s.name = o.solverName → s.isBuilt = true → ∃ e, Engine.shared s = some e ∧
      ∃ r, p.normalize o.symmetrize = some r ∧ p.solve o = r.map fun d => e.solve d p.start) ∧
    (∀ name : String, (∃ e, Solver.backend name = .ok e) ↔ Solver.isAvailable name = true) ∧
    (∀ name : String, (∀ s : Solver, s.name ≠ name) →
      Solver.isAvailable name = false ∧ Solver.capabilityOf name = .error (.unknownSolver name) ∧
      Solver.backend name = .error (.unknownSolver name) ∧
      ∀ v, Solver.setVerbosity name v = .error (.unknownSolver name)) := by
  refine ⟨fun h => ?_, fun s hs hb => ?_, fun s hs hb => ?_, Solver.backend_ok_iff,
    fun name h => ⟨Solver.isAvailable_of_unknown h, Solver.capabilityOf_of_unknown h,
      Solver.backend_of_unknown h, Solver.setVerbosity_of_unknown h⟩⟩
  · simp only [Problem.solve, Solver.backend_of_unknown h]
    rfl
  · have hn := (Solver.shared_eq_none_iff s).2 hb
    simp only [Problem.solve, ← hs, Solver.backend_of_name, hn]
    rfl
  · cases he : Engine.shared s with
    | none => rw [Solver.shared_eq_none_iff] at he; simp [he] at hb
    | some e =>
      obtain ⟨r, hr⟩ := p.normalize_isSome o.symmetrize
      refine ⟨e, rfl, r, hr, ?_⟩
      rw [Problem.solve_of_built hs he, hr]

/-- A problem with a constraint missing its right-hand side, sent to the unknown solver `foo`, to
`osqp` and to `totsu`: the first two are refused by name, and `totsu` gets to normalize it. -/
theorem solve_checks_name_first_at_incomplete :
    let p : Problem := { quad := .dense (Dense.identity 2), lin := #[0.0, 0.0],
                         ineqRhs := some #[1.0] }
    p.solve { solver := some "foo" } = .error (.unknownSolver "foo") ∧
    p.solve { solver := some "osqp" } = .error (.solverUnavailable "osqp") ∧
    (∃ e, Engine.shared .totsu = some e ∧ ∃ r, p.normalize false = some r ∧
      p.solve { solver := some "totsu" } = r.map fun d => e.solve d p.start) := by
  intro p
  have hfoo : ∀ s : Solver, s.name ≠ "foo" := by intro s; cases s <;> decide
  exact ⟨(solve_checks_name_first p { solver := some "foo" }).1 hfoo,
    (solve_checks_name_first p { solver := some "osqp" }).2.1 .osqp rfl rfl,
    (solve_checks_name_first p { solver := some "totsu" }).2.2.1 .totsu rfl rfl⟩

end ConvexQp
