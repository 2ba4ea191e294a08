import ConvexQp.Method.InteriorPoint.Kkt
/-! A primal-dual interior-point method on the homogeneous embedding, with a predictor-corrector
step in the scaled cones, stopping on the tolerances, a certificate, a stall or the limit. -/

namespace ConvexQp

namespace InteriorPoint

/-- The tolerances and iteration limit of a run. -/
structure Settings where
  /-- The most iterations. -/
  maxIter : Nat
  /-- The absolute gap tolerance. -/
  tolGapAbs : Float
  /-- The relative gap tolerance. -/
  tolGapRel : Float
  /-- The tolerance of the residuals. -/
  tolFeas : Float

/-- An iterate of the embedding. -/
structure Iterate where
  /-- The variables. -/
  x : Array Float
  /-- The slacks. -/
  s : Array Float
  /-- The duals. -/
  z : Array Float
  /-- The weight of the primal-dual pair. -/
  tau : Float
  /-- The weight of a certificate. -/
  kappa : Float

/-- The measures of progress at an iterate. -/
structure Info where
  resPrimal : Float
  resDual : Float
  gapAbs : Float
  gapRel : Float
  ktRatio : Float
  dotBz : Float
  dotQx : Float
  resPrimalInf : Float
  resDualInf : Float

/-- How a run stops. -/
inductive Status where
  | solved
  | almostSolved
  | primalInfeasible
  | dualInfeasible
  | maxIterations
  | insufficientProgress
  | numericalError
  deriving DecidableEq

/-- The residuals at an iterate. -/
structure Residuals where
  rx : Array Float
  rz : Array Float
  rtau : Float
  rxInf : Array Float
  rzInf : Array Float
  px : Array Float
  dotQx : Float
  dotBz : Float
  dotSz : Float
  dotXPx : Float

/-- The fixed context of a run. -/
structure Context where
  data : Data
  scaled : Scaled
  kkt : Kkt
  normQ : Float
  normB : Float

namespace Context

/-- The number of variables. -/
def n (c : Context) : Nat := c.data.n

/-- The number of rows. -/
def m (c : Context) : Nat := c.data.m

/-- The number of equality rows. -/
def p (c : Context) : Nat := c.data.eqCount

/-- The residuals at an iterate. -/
def residuals (c : Context) (v : Iterate) : Residuals :=
  let d := c.data
  let qx := Vector.dot d.lin v.x
  let bz := Vector.dot d.rhs v.z
  let sz := Vector.dot v.s v.z
  let px := d.quad.symMul v.x
  let xpx := Vector.dot v.x px
  let rxInf := d.mat.mulTransposeNeg v.z
  let rzInf := d.mat.mulAdd v.x v.s
  let rx := Array.zipWith (· + ·) rxInf (Array.zipWith (fun a b => -a + -v.tau * b) px d.lin)
  let rz := Array.zipWith (fun a b => a + -v.tau * b) rzInf d.rhs
  { rx, rz, rtau := v.kappa + qx + bz + xpx / v.tau, rxInf, rzInf, px,
    dotQx := qx, dotBz := bz, dotSz := sz, dotXPx := xpx }

/-- The measures of progress at an iterate, in the units of the unscaled program. -/
def info (c : Context) (v : Iterate) (r : Residuals) : Info :=
  let sc := c.scaled
  let dinv := sc.colScale.map (1.0 / ·)
  let einv := sc.rowScale.map (1.0 / ·)
  let tinv := 1.0 / v.tau
  let xpxT := r.dotXPx * tinv * tinv / 2.0
  let costPrimal := (r.dotQx * tinv + xpxT) / sc.cost
  let costDual := (-r.dotBz * tinv - xpxT) / sc.cost
  let normX := Vector.normInfScaled v.x sc.colScale
  let normZ := Vector.normInfScaled v.z sc.rowScale / sc.cost
  let normS := Vector.normInfScaled v.s einv
  let resPrimalInf := Vector.normInfScaled r.rxInf dinv / Float.maxNum 1.0 normZ
  let resDualInf := Float.maxNum (Vector.normInfScaled r.px dinv / Float.maxNum 1.0 normX)
    (Vector.normInfScaled r.rzInf einv / Float.maxNum 1.0 (normX + normS))
  let normX := normX * tinv
  let normZ := normZ * tinv
  let normS := normS * tinv
  let resPrimal := Vector.normInfScaled r.rz einv * tinv / Float.maxNum 1.0 (c.normB + normX + normS)
  let resDual := Vector.normInfScaled r.rx dinv * tinv / Float.maxNum 1.0 (c.normQ + normX + normZ)
  let gapAbs := (costPrimal - costDual).abs
  let gapRel := gapAbs / Float.maxNum 1.0 (Float.minNum costPrimal.abs costDual.abs)
  { resPrimal, resDual, gapAbs, gapRel, ktRatio := v.kappa / v.tau, dotBz := r.dotBz,
    dotQx := r.dotQx, resPrimalInf, resDualInf }

end Context

namespace Info

/-- The tolerances are met. -/
def isSolved (i : Info) (gapAbs gapRel feas : Float) : Bool :=
  (i.gapAbs < gapAbs || i.gapRel < gapRel) && i.resPrimal < feas && i.resDual < feas

/-- How the run stops at these measures, by the tolerances and the certificates. -/
def convergence (i : Info) (set : Settings) : Option Status :=
  if i.ktRatio ≤ 1.0 && i.isSolved set.tolGapAbs set.tolGapRel set.tolFeas then some .solved
  else if i.ktRatio > (1.0 / 1e-6) * 1000.0 then
    if i.dotBz < -1e-8 && i.resPrimalInf < -1e-8 * i.dotBz then some .primalInfeasible
    else if i.dotQx < -1e-8 && i.resDualInf < -1e-8 * i.dotQx then some .dualInfeasible
    else none
  else none

/-- Progress has stalled against the previous measures. -/
def stalled (i prev : Info) (set : Settings) : Bool :=
  (i.resDual > prev.resDual || i.resPrimal > prev.resPrimal) &&
    ((i.ktRatio < Float.epsilon * 100.0 && (prev.gapAbs < set.tolGapAbs || prev.gapRel < set.tolGapRel)) ||
     (i.resDual > set.tolFeas && i.resDual > 100.0 * prev.resDual) ||
     (i.resPrimal > set.tolFeas && i.resPrimal > 100.0 * prev.resPrimal))

/-- The measures with the residuals and gaps of an earlier iterate. -/
def restore (i prev : Info) : Info :=
  { i with resPrimal := prev.resPrimal, resDual := prev.resDual, gapAbs := prev.gapAbs,
           gapRel := prev.gapRel }

/-- The measures before the first iteration. -/
def zero : Info := ⟨0.0, 0.0, 0.0, 0.0, 0.0, 0.0, 0.0, 0.0, 0.0⟩

end Info

/-- A direction of the embedding. -/
structure Direction where
  dx : Array Float
  dz : Array Float
  ds : Array Float
  dtau : Float
  dkappa : Float

/-- The part of a vector on the equality rows set to `0.0`, the rest mapped entry by entry. -/
def onCone (p : Nat) (v : Array Float) (f : Nat → Float → Float) : Array Float :=
  (Array.range v.size).map fun i => if i < p then 0.0 else f i (v.getD i 0.0)

/-- The scaling of the cones at an iterate: `w = √(s / z)` and `λ = √(s z)` on the inequality
rows, zero on the equality rows. -/
def scaling (p : Nat) (v : Iterate) : Array Float × Array Float :=
  (onCone p v.s fun i si => (si / v.z.getD i 0.0).sqrt, onCone p v.s fun i si => (si * v.z.getD i 0.0).sqrt)

/-- The direction of the embedding for the right-hand sides `rx, rz, rτ, rκ` and the
complementarity term `dsc` (`s` for the affine direction, `W (rs / λ)` otherwise). -/
def direction (c : Context) (f : Factored) (v : Iterate) (w x2 z2 : Array Float)
    (rx rz : Array Float) (rtau rkappa : Float) (dsc : Array Float) : Option Direction := do
  let d := c.data
  let sol ← f.solve c.kkt.size (rx ++ Array.zipWith (· - ·) dsc rz)
  let x1 := sol.extract 0 c.n
  let z1 := sol.extract c.n sol.size
  let xi := v.x.map ((1.0 / v.tau) * ·)
  let tauNum := rtau - rkappa / v.tau + Vector.dot d.lin x1 + Vector.dot d.rhs z1 +
    2.0 * d.quad.quadForm xi x1
  let xi2 := Array.zipWith (fun a b => -a + b) x2 xi
  let tauDen := v.kappa / v.tau - Vector.dot d.lin x2 - Vector.dot d.rhs z2
  let tauDen := tauDen + (d.quad.quadForm xi2 xi2 - d.quad.quadForm x2 x2)
  let dtau := tauNum / tauDen
  let dx := Array.zipWith (fun a b => a + dtau * b) x1 x2
  let dz := Array.zipWith (fun a b => a + dtau * b) z1 z2
  let hdz := onCone c.p dz fun i dzi => w.getD i 0.0 * w.getD i 0.0 * dzi
  let ds := Array.zipWith (fun a b => -a + -b) dsc hdz
  pure { dx, dz, ds, dtau, dkappa := -(rkappa + v.kappa * dtau) / v.tau }

/-- The largest step up to `1` that keeps `τ`, `κ` and the inequality parts of `s` and `z`
nonnegative. -/
def stepLength (p : Nat) (v : Iterate) (dir : Direction) : Float :=
  let big : Float := 1.7976931348623157e308
  let aTau := if dir.dtau < 0.0 then -v.tau / dir.dtau else big
  let aKappa := if dir.dkappa < 0.0 then -v.kappa / dir.dkappa else big
  let a := Float.minNum (Float.minNum aTau aKappa) 1.0
  let (aZ, aS) := (List.range' p (v.z.size - p)).foldl (fun (aZ, aS) i =>
    let aZ := if dir.dz.getD i 0.0 < 0.0 then Float.minNum aZ (-v.z.getD i 0.0 / dir.dz.getD i 0.0) else aZ
    let aS := if dir.ds.getD i 0.0 < 0.0 then Float.minNum aS (-v.s.getD i 0.0 / dir.ds.getD i 0.0) else aS
    (aZ, aS)) (a, a)
  Float.minNum a (Float.minNum aZ aS)

/-- The iterate moved by `α` along a direction. -/
def Iterate.move (v : Iterate) (alpha : Float) (dir : Direction) : Iterate :=
  { x := Array.zipWith (fun a b => alpha * a + b) dir.dx v.x,
    s := Array.zipWith (fun a b => alpha * a + b) dir.ds v.s,
    z := Array.zipWith (fun a b => alpha * a + b) dir.dz v.z,
    tau := v.tau + alpha * dir.dtau,
    kappa := v.kappa + alpha * dir.dkappa }

/-- The state between iterations. -/
structure Progress where
  iterate : Iterate
  iter : Nat
  prevInfo : Info
  prev : Iterate

/-- What an iteration ends in. -/
inductive Outcome where
  /-- The run goes on. -/
  | next (pr : Progress)
  /-- The run stops, with its status, its last measures and its iterate. -/
  | stop (status : Status) (info : Info) (v : Iterate)

namespace Context

/-- One iteration from a state. -/
def iteration (c : Context) (set : Settings) (pr : Progress) : Outcome :=
  let v := pr.iterate
  let r := c.residuals v
  let cur := c.info v r
  let mu := (r.dotSz + v.tau * v.kappa) / (c.m - c.p + 1).toFloat
  let st := match cur.convergence set with
    | some s => some s
    | none =>
      if pr.iter > 1 && cur.stalled pr.prevInfo set then some .insufficientProgress
      else if set.maxIter = pr.iter then some .maxIterations
      else none
  match st with
  | some .insufficientProgress => .stop .insufficientProgress (cur.restore pr.prevInfo) pr.prev
  | some s => .stop s cur v
  | none =>
    let (w, lam) := scaling c.p v
    let iter := pr.iter + 1
    let f := c.kkt.factor (onCone c.p w fun _ wi => wi * wi)
    let constant := f.solve c.kkt.size (Vector.neg c.data.lin ++ c.data.rhs)
    match constant with
    | none => .stop .numericalError cur v
    | some sol =>
      let x2 := sol.extract 0 c.n
      let z2 := sol.extract c.n sol.size
      let rsAff := onCone c.p lam fun _ l => l * l
      match direction c f v w x2 z2 r.rx r.rz r.rtau (v.tau * v.kappa) v.s with
      | none => .stop .numericalError cur v
      | some aff =>
        let alpha := stepLength c.p v aff
        let sigma := (1.0 - alpha) * (1.0 - alpha) * (1.0 - alpha)
        let mm := if iter > 1 then 1.0 else alpha
        let dotsm := sigma * mu
        let rxC := r.rx.map ((1.0 - sigma) * ·)
        let rtauC := (1.0 - sigma) * r.rtau
        let rkappaC := -dotsm + mm * aff.dtau * aff.dkappa + v.tau * v.kappa
        let dzs := if mm != 1.0 then aff.dz.map (· * mm) else aff.dz
        let shift := onCone c.p aff.ds fun i dsi =>
          dsi / w.getD i 0.0 * (w.getD i 0.0 * dzs.getD i 0.0) - dotsm
        let rsC := Array.zipWith (· + ·) shift rsAff
        let rzC := r.rz.map ((1.0 - sigma) * ·)
        let dsc := onCone c.p rsC fun i rsi => w.getD i 0.0 * (rsi / lam.getD i 0.0)
        match direction c f v w x2 z2 rxC rzC rtauC rkappaC dsc with
        | none => .stop .numericalError cur v
        | some comb =>
          let alpha := stepLength c.p v comb * 0.99
          if alpha ≤ Float.maxNum 0.0 1e-4 then .stop .insufficientProgress cur v
          else .next { iterate := v.move alpha comb, iter, prevInfo := cur, prev := v }

/-- Runs iterations, at most `fuel` of them. -/
def run (c : Context) (set : Settings) : (fuel : Nat) → Progress → Status × Info × Iterate
  | 0, pr => (.maxIterations, Info.zero, pr.iterate)
  | fuel + 1, pr =>
    match c.iteration set pr with
    | .next pr => run c set fuel pr
    | .stop s i v => (s, i, v)

/-- A vector of the inequality part shifted into the interior of the nonnegative cone, the
equality part set to zero when `primal`. -/
def shiftIntoCone (p : Nat) (primal : Bool) (v : Array Float) : Array Float :=
  let head := if primal then Vector.zeros (min p v.size) else v.extract 0 p
  let tail := v.extract p v.size
  if tail.isEmpty then head ++ tail
  else
    let least := tail.foldl Float.minNum (1.0 / 0.0)
    let pos := tail.foldl (fun t a => t + Float.maxNum a 0.0) 0.0
    let target := Float.maxNum 1.0 (pos * 0.1)
    let tail :=
      if least ≤ 0.0 then (tail.map (· + -least)).map (· + target)
      else if least < target then tail.map (· + (target - least))
      else tail.map (· + 0.0)
    head ++ tail

/-- The starting iterate, or `none` when its solves fail. -/
def start (c : Context) : Option Iterate := do
  let d := c.data
  let f := c.kkt.factor (onCone c.p (Vector.zeros c.m) fun _ _ => 1.0)
  let sz := c.kkt.size
  let (x, s, z) ← if d.quad.nnz = 0 then do
      let sol ← f.solve sz (Vector.zeros c.n ++ d.rhs)
      let sol2 ← f.solve sz (Vector.neg d.lin ++ Vector.zeros c.m)
      pure (sol.extract 0 c.n, Vector.neg (sol.extract c.n sol.size), sol2.extract c.n sol2.size)
    else do
      let sol ← f.solve sz (Vector.neg d.lin ++ d.rhs)
      let z := sol.extract c.n sol.size
      pure (sol.extract 0 c.n, Vector.neg z, z)
  pure { x, s := shiftIntoCone c.p true s, z := shiftIntoCone c.p false z, tau := 1.0, kappa := 1.0 }

end Context

/-- The answer of a run on a program: `x` mapped back from the scaling when the run solved the
program or almost solved it, else `none`. -/
def solve (d : Data) (set : Settings) : Option (Array Float) := do
  let d := d.presolve
  let sc := equilibrate d
  let ds := sc.data
  let c : Context :=
    { data := ds, scaled := sc, kkt := Kkt.ofData ds,
      normQ := Vector.normInfScaled ds.lin (sc.colScale.map (1.0 / ·)) / sc.cost,
      normB := Vector.normInfScaled ds.rhs (sc.rowScale.map (1.0 / ·)) }
  let v0 ← c.start
  let (status, info, v) := c.run set (set.maxIter + 1)
    { iterate := v0, iter := 0, prevInfo := Info.zero, prev := v0 }
  let status :=
    if status = .maxIterations || status = .insufficientProgress || status = .numericalError then
      if info.ktRatio ≤ 1.0 && info.isSolved 5e-5 5e-5 1e-4 then Status.almostSolved else status
    else status
  if status = .solved || status = .almostSolved then
    some ((Array.zipWith (· * ·) v.x sc.colScale).map (· * (1.0 / v.tau)))
  else none

end InteriorPoint

end ConvexQp
