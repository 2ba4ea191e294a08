import ConvexQp.Method.ActiveSet
import ConvexQp.Method.InteriorPoint.Iterate
import ConvexQp.Method.HybridGradient.Iterate
import ConvexQp.Problem.Normalize
import ConvexQp.Solver.Params
import ConvexQp.Solver.Registry
/-! The built-in solvers on normalized data: `clarabel` by the interior-point method on `[A; G]`,
`quadprog` by the active-set method, `totsu` by the first-order method on the conic form. -/

namespace ConvexQp

/-- A solver ready to run, with its parameters. -/
inductive Engine where
  | clarabel (par : ClarabelParams)
  | quadprog (par : QuadprogParams)
  | totsu (par : TotsuParams)

/-- What a run of a solver ends with. -/
inductive Outcome where
  /-- A solution. -/
  | solved (x : Array Float)
  /-- No solution was found. -/
  | unsolved
  /-- The program stops: the solver cannot take the data at all, or an assertion failed before it
  ran. -/
  | aborted

namespace Outcome

/-- A solution, or no solution. -/
def ofOption : Option (Array Float) → Outcome
  | some x => .solved x
  | none => .unsolved

end Outcome

namespace Engine

/-- The engine of a solver with its defaults overridden by an environment; `none` for a solver this
build does not hold. -/
def ofEnvironment (env : Environment) : Solver → Option Engine
  | .clarabel => some (.clarabel (ClarabelParams.ofEnvironment env))
  | .osqp => none
  | .quadprog => some (.quadprog (QuadprogParams.ofEnvironment env))
  | .totsu => some (.totsu (TotsuParams.ofEnvironment env))

/-- The shared engine of a solver: its defaults, no variable being set. -/
def shared (s : Solver) : Option Engine := ofEnvironment (fun _ => none) s

/-- Normalized data for the active-set method: `D` is `P` read by columns with `reg` on its
diagonal, `d = -q`, and the negated rows of `[A; G]`, equalities first; `none` where stacking stops.
-/
def activeSetProgram (d : Normalized) (reg : Float) : Option ActiveSet.Program := do
  let n := d.dim
  let p := d.quad.toDense
  let quad := Grid.ofFn n n fun i j => if i = j then p.entry i i + reg else p.entry j i
  let (mat, rhs, eqCount, _) ← d.stackConstraints
  let m := mat.toDense
  let normals := (Array.range m.rows).map fun i => (Array.range n).map fun j => -m.entry i j
  pure ⟨n, quad, Vector.neg d.lin, normals, Vector.neg rhs, eqCount⟩

/-- The conic form of normalized data for the first-order method, `P` read from its dense copy. -/
def conicForm (d : Normalized) (tol : Float) : HybridGradient.Conic :=
  let rowsOf (m : Mat) : Array (Array Float) :=
    let a := m.toDense
    (Array.range a.rows).map a.row
  let (g, h) := match d.ineq with
    | some (g, h) => (rowsOf g, h)
    | none => (#[], #[])
  let (a, b) := match d.eq with
    | some (a, b) => (rowsOf a, b)
    | none => (#[], #[])
  HybridGradient.Conic.ofQuadratic d.dim d.quad.toDense.entry d.lin g h a b tol

/-- The program of normalized data for the interior-point method: `P` by its compressed entries on
and above the diagonal, and `[A; G]` by its compressed entries, the rows of `A` first; `none` where
stacking stops. -/
def interiorPointData (d : Normalized) : Option InteriorPoint.Data := do
  let (mat, rhs, eqCount, _) ← d.stackConstraints
  let entries (s : Sparse) : List (Nat × Nat × Float) := s.entries.map fun t => (t.row, t.col, t.value)
  pure {
    n := d.dim, quad := .ofEntries d.dim d.dim (entries (d.quad.cscParts true)), lin := d.lin,
    mat := .ofEntries rhs.size d.dim (entries (mat.cscParts false)), rhs, eqCount }

/-- Solves normalized data. -/
def solve (e : Engine) (d : Normalized) (_start : Option (Array Float)) : Outcome :=
  match e with
  | .clarabel par =>
    match interiorPointData d with
    | none => .aborted
    | some data =>
      if data.n + data.presolve.m = 0 then .aborted
      else .ofOption (InteriorPoint.solve data ⟨par.maxIter, par.tolGapAbs, par.tolGapRel, par.tolFeas⟩)
  | .quadprog par =>
    if d.dim = 0 then .aborted
    else
      match activeSetProgram d par.reg with
      | none => .aborted
      | some prog => .ofOption (ActiveSet.solve prog)
  | .totsu par =>
    if d.dim = 0 then .aborted
    else
      let set : HybridGradient.Settings := ⟨par.maxIter, par.epsAcc, par.epsInf, par.epsZero⟩
      match (conicForm d par.epsZero).solve set with
      | .converged x _ => .solved (x.extract 0 d.dim)
      | _ => .unsolved

end Engine

end ConvexQp
