import ConvexQp.Problem.Basic
import ConvexQp.Problem.Error
/-! A problem whose inequalities may be violated at a price, solved through the augmented problem
`minimize ½ xᵀ P x + qᵀ x + ½ reg ‖s‖² - sw Σ s` under `-s ≤ 0` and `G x + s = h`. -/

namespace ConvexQp

/-- A problem whose inequalities are relaxed by slacks, each rewarded by `weight` and kept finite by
the small curvature `reg`. -/
structure SaferProblem where
  /-- `P`. -/
  quad : Mat
  /-- `q`. -/
  lin : Array Float
  /-- `G` of the relaxed rows. -/
  ineqLhs : Lhs
  /-- `h` of the relaxed rows. -/
  ineqRhs : Array Float
  /-- The reward `sw` per unit of slack. -/
  weight : Float
  /-- The curvature `reg` of the slacks. -/
  reg : Float := 1e-8
  /-- A starting point for `x`. -/
  start : Option (Array Float) := none

namespace SaferProblem

/-- The number of variables `n`, the length of `q`. -/
def dim (s : SaferProblem) : Nat := s.lin.size

/-- The augmented problem over `(x, s)`, once `G` is `m × n`: `P` beside `reg · I`,
`[0 | -I] z ≤ 0`, `[G | I] z = h`, and a starting point of length `n` extended by `h - G x₀`; `none`
where setting two blocks side by side stops. -/
def augmented (s : SaferProblem) : Option (Except QpError Problem) :=
  let n := s.lin.size
  let m := s.ineqRhs.size
  let storage := s.quad.storage
  let g := s.ineqLhs.toMat storage
  if (g.rows, g.cols) ≠ (m, n) then
    some (.error (.dimensionMismatch .ineqLhs (m, n) (g.rows, g.cols)))
  else do
    let gs := g.storage
    let ineqLhs ← (Mat.zeros m n gs).hcat? ((Mat.identity m gs).scale (-1.0))
    let eqLhs ← g.hcat? (Mat.identity m gs)
    let start := s.start.map fun x0 =>
      if x0.size = n then
        let gx := g.mulVec x0
        x0 ++ (List.zipWith (· - ·) s.ineqRhs.toList gx.toList).toArray
      else x0
    pure (.ok {
      quad := s.quad.blockDiag ((Mat.identity m storage).scale s.reg)
      lin := s.lin ++ Array.replicate m (-s.weight)
      ineqLhs := some (.matrix ineqLhs)
      ineqRhs := some (Array.replicate m 0.0)
      eqLhs := some (.matrix eqLhs)
      eqRhs := some s.ineqRhs
      start := start })

/-- The first `n` values of a solution of the augmented problem; `none` when it is shorter. -/
def extract? (s : SaferProblem) (z : Array Float) : Option (Array Float) :=
  if s.dim ≤ z.size then some (z.extract 0 s.dim) else none

end SaferProblem

end ConvexQp
