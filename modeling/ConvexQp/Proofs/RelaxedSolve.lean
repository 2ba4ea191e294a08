import ConvexQp.Proofs.SolveOrder
/-! Solving a relaxed problem, and the order of its answers: the solver first, then three size
checks, then the engine on the normalized augmented problem. -/

namespace ConvexQp

theorem sizeDefect_eq_some {what : Part} {expected found : Nat × Nat} {e : QpError}
    (h : sizeDefect what expected found = some e) : e = .dimensionMismatch what expected found := by
  unfold sizeDefect at h
  by_cases hq : expected = found
  · simp [hq] at h
  · simp only [hq, if_false, Option.some.injEq] at h
    exact h.symm

namespace Solver

/-- The dense solvers are built, so each has a shared engine. -/
theorem shared_of_mem_denseSolvers {s : Solver} (h : s ∈ denseSolvers) :
    ∃ e, Engine.shared s = some e := by
  have hbuilt : s.isBuilt = true := by
    simp only [denseSolvers, available, List.mem_filter] at h
    exact h.1.2
  cases he : Engine.shared s with
  | none => simp [(shared_eq_none_iff s).1 he] at hbuilt
  | some e => exact ⟨e, rfl⟩

end Solver

namespace SaferProblem

/-- A solver that relaxed problems accept is a dense solver, with a shared engine. -/
theorem shared_of_acceptsSolver {name : String} (h : acceptsSolver name = true) :
    ∃ s e, s.name = name ∧ Engine.shared s = some e := by
  obtain ⟨s, hs, hname⟩ := List.any_eq_true.1 h
  obtain ⟨e, he⟩ := Solver.shared_of_mem_denseSolvers hs
  exact ⟨s, e, beq_iff_eq.1 hname, he⟩

/-- The first defect of a relaxed problem: `G` against `m × n`, then `P` as augmented against
`(n + m) × (n + m)`, then a starting point whose length is not `n` against `(n + m) × 1`. -/
def firstDefect (s : SaferProblem) : Option QpError :=
  let n := s.dim
  let m := s.ineqRhs.size
  let g := s.ineqLhs.toMat s.quad.storage
  sizeDefect .ineqLhs (m, n) (g.rows, g.cols) <|>
  sizeDefect .quad (n + m, n + m) (s.quad.rows + m, s.quad.cols + m) <|>
  s.start.bind fun x0 => if x0.size = n then none else sizeDefect .start (n + m, 1) (x0.size, 1)

/-- Every defect of a relaxed problem is a size mismatch. -/
theorem firstDefect_eq_some {s : SaferProblem} {e : QpError} (h : s.firstDefect = some e) :
    ∃ what expected found, e = .dimensionMismatch what expected found := by
  simp only [firstDefect, Option.orElse_eq_orElse, Option.orElse_eq_or, Option.or_eq_some_iff] at h
  rcases h with hg | ⟨-, hp | ⟨-, hx⟩⟩
  · exact ⟨_, _, _, sizeDefect_eq_some hg⟩
  · exact ⟨_, _, _, sizeDefect_eq_some hp⟩
  · obtain ⟨x0, -, hx⟩ := Option.bind_eq_some_iff.1 hx
    by_cases hsize : x0.size = s.dim
    · simp [hsize] at hx
    · simp only [hsize, if_false] at hx
      exact ⟨_, _, _, sizeDefect_eq_some hx⟩

/-- A `G` that does not fit is the first defect, and the augmented problem is not built. -/
theorem augmented_of_misfit {s : SaferProblem} {e : QpError}
    (h : sizeDefect .ineqLhs (s.ineqRhs.size, s.dim)
      ((s.ineqLhs.toMat s.quad.storage).rows, (s.ineqLhs.toMat s.quad.storage).cols) = some e) :
    s.augmented = some (.error e) ∧ s.firstDefect = some e := by
  refine ⟨?_, by simp only [firstDefect, Option.orElse_eq_orElse, Option.orElse_eq_or, h, Option.some_or]⟩
  have hne : ((s.ineqLhs.toMat s.quad.storage).rows, (s.ineqLhs.toMat s.quad.storage).cols) ≠
      (s.ineqRhs.size, s.lin.size) := by
    intro heq
    rw [heq] at h
    simp [sizeDefect, dim] at h
  obtain rfl := sizeDefect_eq_some h
  unfold augmented
  simp only [ne_eq, hne, not_false_eq_true, if_true]
  rfl

/-- `G` in the storage of `P`, as the augmented problem holds it. -/
def constraints (s : SaferProblem) : Mat := s.ineqLhs.toMat s.quad.storage

/-- With a `G` that fits, the blocks `[0 | -I]` and `[G | I]` are both as high as `G`, so building
the augmented problem does not stop, and it is this record. -/
theorem augmented_eq_ok {s : SaferProblem} (hr : s.constraints.rows = s.ineqRhs.size)
    (hc : s.constraints.cols = s.dim) :
    s.augmented = some (.ok {
      quad := s.quad.blockDiag ((Mat.identity s.ineqRhs.size s.quad.storage).scale s.reg)
      lin := s.lin ++ Array.replicate s.ineqRhs.size (-s.weight)
      ineqLhs := some (.matrix ((Mat.zeros s.ineqRhs.size s.dim s.constraints.storage).hcat
        ((Mat.identity s.ineqRhs.size s.constraints.storage).scale (-1.0))))
      ineqRhs := some (Array.replicate s.ineqRhs.size 0.0)
      eqLhs := some (.matrix (s.constraints.hcat (Mat.identity s.ineqRhs.size s.constraints.storage)))
      eqRhs := some s.ineqRhs
      start := s.start.map fun x0 => if x0.size = s.dim then
        x0 ++ (List.zipWith (· - ·) s.ineqRhs.toList (s.constraints.mulVec x0).toList).toArray
        else x0 }) := by
  unfold augmented
  simp only [constraints, dim] at hr hc
  simp only [hr, hc, ne_eq, not_true_eq_false, if_false]
  rw [Mat.hcat?_of_rows_eq (by simp), Mat.hcat?_of_rows_eq (by simp [hr])]
  rfl

/-- With a `G` that fits, the augmented problem is built, and its first defect is that of the
relaxed problem: its pairs are complete, its `G` and `A` fit, it has no bounds, and a starting point
of length `n` is extended to length `n + m`. -/
theorem augmented_of_fit {s : SaferProblem}
    (hfit : sizeDefect .ineqLhs (s.ineqRhs.size, s.dim)
      ((s.ineqLhs.toMat s.quad.storage).rows, (s.ineqLhs.toMat s.quad.storage).cols) = none) :
    ∃ p, s.augmented = some (.ok p) ∧ p.firstDefect = s.firstDefect := by
  obtain ⟨hr, hc⟩ := Prod.mk.inj (sizeDefect_eq_none_iff.1 hfit)
  refine ⟨_, augmented_eq_ok hr.symm hc.symm, ?_⟩
  simp only [dim] at hc hfit
  simp only [Problem.firstDefect, firstDefect, hfit, Problem.dim, dim, constraints]
  simp [pairDefect, matrixDefect, vectorDefect, sizeDefect, Lhs.rows, Lhs.cols, ← hr, ← hc]
  congr 1
  cases s.start with
  | none => rfl
  | some x0 =>
    by_cases hx : x0.size = s.lin.size
    · simp [hx, ← hr]
    · simp [hx]

theorem solve?_of_rejected {s : SaferProblem} {o : SolveOptions}
    (h : acceptsSolver (o.solver.getD Solver.defaultDenseSolver.name) = false) : s.solve? o = none := by
  simp [solve?, h]

/-- With an accepted solver, the first defect is the error. -/
theorem solve?_of_defect {s : SaferProblem} {o : SolveOptions} {e : QpError}
    (ha : acceptsSolver (o.solver.getD Solver.defaultDenseSolver.name) = true)
    (hd : s.firstDefect = some e) : s.solve? o = some (.error e) := by
  cases hg : sizeDefect .ineqLhs (s.ineqRhs.size, s.dim)
      ((s.ineqLhs.toMat s.quad.storage).rows, (s.ineqLhs.toMat s.quad.storage).cols) with
  | some e' =>
    obtain ⟨haug, hd'⟩ := augmented_of_misfit hg
    rw [hd] at hd'
    cases hd'
    simp only [solve?, ha, ↓reduceIte, haug]
    rfl
  | none =>
    obtain ⟨p, haug, hp⟩ := augmented_of_fit hg
    have hn := Problem.normalize_of_defect (hp.trans hd) o.symmetrize
    simp only [solve?, ha, ↓reduceIte, haug, Option.map_some, Except.bind, Problem.normalizeAndDispatch,
      hn]

/-- With an accepted solver and no defect, the augmented problem is built and normalized, and its
normal form goes to the solver's engine. -/
theorem solve?_of_valid {s : SaferProblem} {o : SolveOptions}
    (ha : acceptsSolver (o.solver.getD Solver.defaultDenseSolver.name) = true)
    (hd : s.firstDefect = none) :
    ∃ p d e, s.augmented = some (.ok p) ∧ p.normalize o.symmetrize = some (.ok d) ∧
      Solver.backend (o.solver.getD Solver.defaultDenseSolver.name) = .ok e ∧
      (s.augmented.map fun r => r.bind fun p =>
        p.normalizeAndDispatch (o.solver.getD Solver.defaultDenseSolver.name) o) =
        some (.ok (e.solve d p.start)) := by
  obtain ⟨sv, e, hname, he⟩ := shared_of_acceptsSolver ha
  have hg : sizeDefect .ineqLhs (s.ineqRhs.size, s.dim)
      ((s.ineqLhs.toMat s.quad.storage).rows, (s.ineqLhs.toMat s.quad.storage).cols) = none := by
    simp only [firstDefect, Option.orElse_eq_orElse, Option.orElse_eq_or, Option.or_eq_none_iff] at hd
    exact hd.1
  obtain ⟨p, haug, hp⟩ := augmented_of_fit hg
  obtain ⟨_, hn, -⟩ := Problem.normalize_of_valid ((Problem.firstDefect_eq_none_iff p).1 (hp.trans hd))
    o.symmetrize
  refine ⟨p, _, e, haug, hn, ?_, ?_⟩
  · rw [← hname, Solver.backend_of_name, he]
  · simp only [haug, Option.map_some, Except.bind, Problem.normalizeAndDispatch, hn, ← hname]
    exact congrArg some (dispatch_of_shared he _ _ _)

/-- After a run of the engine, the only error is `infeasible`, given when it found no solution. -/
theorem solve?_eq_error_iff {s : SaferProblem} {o : SolveOptions} {out : Outcome} {e : QpError}
    (ha : acceptsSolver (o.solver.getD Solver.defaultDenseSolver.name) = true)
    (hrun : (s.augmented.map fun r => r.bind fun p =>
      p.normalizeAndDispatch (o.solver.getD Solver.defaultDenseSolver.name) o) = some (.ok out)) :
    s.solve? o = some (.error e) ↔ e = .infeasible ∧ out = .unsolved := by
  simp only [solve?, ha, ↓reduceIte, hrun]
  cases out with
  | solved z =>
    simp only [extract?, reduceCtorEq, and_false, iff_false]
    split <;> simp
  | unsolved => simp [eq_comm]
  | aborted => simp

end SaferProblem

/-- Solving a relaxed problem answers in a fixed order: a solver it does not accept stops the
program, then the first defect is the error, then the engine runs on the augmented problem, no
answer being `infeasible`; no other error is ever reported. -/
theorem relaxed_solve_reports_in_order (s : SaferProblem) (o : SolveOptions) :
    let name := o.solver.getD Solver.defaultDenseSolver.name
    (SaferProblem.acceptsSolver name = false → s.solve? o = none) ∧
    (SaferProblem.acceptsSolver name = true →
      (∀ e, s.firstDefect = some e → s.solve? o = some (.error e)) ∧
      (s.firstDefect = none → ∃ p d e, s.augmented = some (.ok p) ∧
        p.normalize o.symmetrize = some (.ok d) ∧ Solver.backend name = .ok e ∧
        (s.solve? o = some (.error .infeasible) ↔ e.solve d p.start = .unsolved) ∧
        ∀ z, e.solve d p.start = .solved z → s.dim ≤ z.size →
          s.solve? o = some (.ok (z.extract 0 s.dim))) ∧
      ∀ e, s.solve? o = some (.error e) →
        e = .infeasible ∨ ∃ what expected found, e = .dimensionMismatch what expected found) := by
  dsimp only
  refine ⟨SaferProblem.solve?_of_rejected, fun ha => ⟨fun e hd => SaferProblem.solve?_of_defect ha hd,
    fun hd => ?_, fun e he => ?_⟩⟩
  · obtain ⟨p, d, e, haug, hn, hb, hrun⟩ := SaferProblem.solve?_of_valid ha hd
    refine ⟨p, d, e, haug, hn, hb, ?_, fun z hz hlen => ?_⟩
    · simpa using SaferProblem.solve?_eq_error_iff (e := .infeasible) ha hrun
    · simp [SaferProblem.solve?, ha, hrun, hz, SaferProblem.extract?, hlen]
  · cases hd : s.firstDefect with
    | some e' =>
      rw [SaferProblem.solve?_of_defect ha hd] at he
      cases he
      exact .inr (SaferProblem.firstDefect_eq_some hd)
    | none =>
      obtain ⟨_, _, _, -, -, -, hrun⟩ := SaferProblem.solve?_of_valid ha hd
      exact .inl ((SaferProblem.solve?_eq_error_iff ha hrun).1 he).1

/-- One relaxed row `x₀ ≤ 1` in two variables. `clarabel` is not accepted; with two right-hand sides
`G` does not fit; a starting point of length one is neither `2` nor `3` long; as it is, the default
solver gets the normalized augmented problem. -/
theorem relaxed_solve_reports_in_order_at_row :
    let s : SaferProblem := { quad := .dense (Dense.identity 2), lin := #[-2.0, 0.0],
                              ineqLhs := .row #[1.0, 0.0], ineqRhs := #[1.0], weight := 1.5 }
    s.solve? { solver := some "clarabel" } = none ∧
    { s with ineqRhs := #[1.0, 1.0] }.solve? {} =
      some (.error (.dimensionMismatch .ineqLhs (2, 2) (1, 2))) ∧
    { s with start := some #[0.0] }.solve? {} =
      some (.error (.dimensionMismatch .start (3, 1) (1, 1))) ∧
    ∃ p d e, s.augmented = some (.ok p) ∧ p.normalize false = some (.ok d) ∧
      Solver.backend "totsu" = .ok e := by
  intro s
  have hclarabel : SaferProblem.acceptsSolver "clarabel" = false := by decide
  have htotsu : SaferProblem.acceptsSolver "totsu" = true := by decide
  refine ⟨(relaxed_solve_reports_in_order s { solver := some "clarabel" }).1 hclarabel,
    ((relaxed_solve_reports_in_order _ {}).2 htotsu).1 _ (by decide),
    ((relaxed_solve_reports_in_order _ {}).2 htotsu).1 _ (by decide), ?_⟩
  obtain ⟨p, d, e, haug, hn, hb, -⟩ :=
    ((relaxed_solve_reports_in_order s {}).2 htotsu).2.1 (by decide)
  exact ⟨p, d, e, haug, hn, hb⟩

end ConvexQp
