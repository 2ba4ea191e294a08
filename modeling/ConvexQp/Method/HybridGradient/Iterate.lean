import ConvexQp.Method.HybridGradient.Embedding
/-! The primal-dual hybrid gradient method on the self-dual embedding with diagonal step sizes,
stopping on residuals and gap within the accuracy, on a certificate, or at the iteration limit. -/

namespace ConvexQp

namespace HybridGradient

/-- The tolerances and the iteration limit of a run. -/
structure Settings where
  /-- The most iterations, or no limit. -/
  maxIter : Option Nat
  /-- The accuracy of the residuals and of the gap. -/
  accuracy : Float
  /-- The tolerance of the certificates. -/
  certificate : Float
  /-- Values of `τ` and sums of magnitudes not above it count as zero. -/
  tol : Float

/-- How a run ends. -/
inductive Ending where
  /-- Converged, with `x / τ` and `y / τ`. -/
  | converged (x y : Array Float)
  /-- A certificate that the program is unbounded. -/
  | unbounded
  /-- A certificate that the program is infeasible. -/
  | infeasible
  /-- The iteration limit was reached. -/
  | exhausted

namespace Point

/-- `u - t ∘ g`, entry by entry. -/
def descend (u t g : Point) : Point :=
  { x := Flat.ofFn u.x.size fun i => Flat.get u.x i - Flat.get t.x i * Flat.get g.x i,
    y := Flat.ofFn u.y.size fun i => Flat.get u.y i - Flat.get t.y i * Flat.get g.y i,
    s := Flat.ofFn u.s.size fun i => Flat.get u.s i - Flat.get t.s i * Flat.get g.s i,
    tau := u.tau - t.tau * g.tau }

/-- `2 u - v`, entry by entry. -/
def extrapolate (u v : Point) : Point :=
  { x := Flat.ofFn u.x.size fun i => 2.0 * Flat.get u.x i - Flat.get v.x i,
    y := Flat.ofFn u.y.size fun i => 2.0 * Flat.get u.y i - Flat.get v.y i,
    s := Flat.ofFn u.s.size fun i => 2.0 * Flat.get u.s i - Flat.get v.s i,
    tau := 2.0 * u.tau - v.tau }

end Point

namespace Image

/-- `w + t ∘ k`, entry by entry. -/
def ascend (w t k : Image) : Image :=
  { r := Flat.ofFn w.r.size fun i => Flat.get w.r i + Flat.get t.r i * Flat.get k.r i,
    z := Flat.ofFn w.z.size fun i => Flat.get w.z i + Flat.get t.z i * Flat.get k.z i,
    g := w.g + t.g * k.g }

/-- The multiplier of the gap row, an inequality, raised no higher than zero. -/
def clampGap (w : Image) : Image :=
  { w with g := if w.g > 0.0 then 0.0 else w.g }

end Image

namespace Conic

/-- One iteration of the method. -/
def iteration (c : Conic) (tSteps : Point) (sSteps : Image) (u : Point) (w : Image) :
    Point × Image :=
  let next := c.project (u.descend tSteps (c.adjoint w))
  (next, (w.ascend sSteps (c.embed (next.extrapolate u))).clampGap)

/-- The test of convergence at a point with `τ` above the tolerance. -/
def converged (c : Conic) (accuracy : Float) (u : Point) : Bool :=
  let tau := u.tau
  let pr := Flat.sum c.rowCount fun i =>
    let e := c.rowDot i u.x + Flat.get u.s i - Flat.get c.rhs i * tau
    e * e
  let du := Flat.sum c.cols fun j =>
    let e := c.colDot j u.y + Flat.get c.cost j * tau
    e * e
  let cx := Flat.dot c.cost u.x / tau
  let ry := Flat.dot c.rhs u.y / tau
  let pri := pr.sqrt / tau / (1.0 + Flat.norm2 c.rhs)
  let dual := du.sqrt / tau / (1.0 + Flat.norm2 c.cost)
  let gap := (cx + ry).abs / (1.0 + cx.abs + ry.abs)
  pri ≤ accuracy && dual ≤ accuracy && gap ≤ accuracy

/-- The test for a certificate at a point with `τ` not above the tolerance. -/
def certified (c : Conic) (set : Settings) (u : Point) : Option Ending :=
  let cx := Flat.dot c.cost u.x
  let ry := Flat.dot c.rhs u.y
  let ax := Flat.sum c.rowCount fun i =>
    let e := c.rowDot i u.x + Flat.get u.s i
    e * e
  let aty := Flat.sum c.cols fun j =>
    let e := c.colDot j u.y
    e * e
  let unbounded := if cx < -set.tol then ax.sqrt / (-cx) * Flat.norm2 c.cost else 1.0 / 0.0
  let infeasible := if ry < -set.tol then aty.sqrt / (-ry) * Flat.norm2 c.rhs else 1.0 / 0.0
  if unbounded ≤ set.certificate then some .unbounded
  else if infeasible ≤ set.certificate then some .infeasible
  else none

/-- How the run ends at a point, if it does. -/
def verdict (c : Conic) (set : Settings) (u : Point) : Option Ending :=
  if u.tau > set.tol then
    if c.converged set.accuracy u then
      some (.converged (Flat.map (· / u.tau) u.x).data (Flat.map (· / u.tau) u.y).data)
    else none
  else c.certified set u

/-- Runs at most `fuel` iterations from `u` and `w`. -/
def run (c : Conic) (set : Settings) (tSteps : Point) (sSteps : Image) :
    (fuel : Nat) → Point → Image → Ending
  | 0, _, _ => .exhausted
  | fuel + 1, u, w =>
    let (u, w) := c.iteration tSteps sSteps u w
    match c.verdict set u with
    | some e => e
    | none => run c set tSteps sSteps fuel u w

/-- A bound on the iterations of a run without a limit, beyond any run that ends. -/
def unlimited : Nat := Nat.pow 2 64

/-- The run of the method on a conic program. -/
def solve (c : Conic) (set : Settings) : Ending :=
  let start : Point := { x := Flat.zeros c.cols, y := Flat.zeros c.rowCount,
                         s := Flat.zeros c.rowCount, tau := 1.0 }
  let fuel := match set.maxIter with
    | some k => max k 1
    | none => unlimited
  run c set (c.primalSteps set.tol) (c.dualSteps set.tol) fuel start
    { r := Flat.zeros c.cols, z := Flat.zeros c.rowCount, g := 0.0 }

end Conic

end HybridGradient

end ConvexQp
