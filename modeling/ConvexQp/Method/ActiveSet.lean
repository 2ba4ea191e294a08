import ConvexQp.Linear.Cholesky
/-! The dual active-set method of Goldfarb and Idnani for `minimize ½ xᵀ D x - dᵀ x` under
`nᵢᵀ x = bᵢ` for the first `meq` constraints and `nᵢᵀ x ≥ bᵢ` for the others, adding the most
violated constraint at a time. -/

namespace ConvexQp

namespace ActiveSet

/-- A program in the form the method takes. -/
structure Program where
  /-- The number of variables. -/
  dim : Nat
  /-- `D`, whose upper triangle is read. -/
  quad : Grid
  /-- `d`. -/
  lin : Array Float
  /-- The normals `nᵢ`, each of length `dim`. -/
  normals : Array (Array Float)
  /-- The right-hand sides `bᵢ`. -/
  rhs : Array Float
  /-- The number of leading constraints that are equalities. -/
  eqCount : Nat

/-- Slacks and squared step lengths not above this size count as zero: the machine epsilon. -/
def smallStep : Float := Float.epsilon

/-- The state of the method. -/
structure Work where
  /-- The current point. -/
  x : Array Float
  /-- `J`, whose first `nact` columns span the active normals. -/
  j : Grid
  /-- `R`, packed (positions from 1). -/
  r : Array Float
  /-- The multipliers of the active constraints, and at `nact + 1` that of the constraint being
  added (positions from 1). -/
  u : Array Float
  /-- The active constraints by number, counted from 1 (positions from 1). -/
  act : Array Nat
  /-- The number of active constraints. -/
  nact : Nat
  /-- The normals, turned over where an equality was violated from above. -/
  normals : Array (Array Float)
  /-- The right-hand sides, negated with their normals. -/
  rhs : Array Float
  /-- The slack of each constraint (positions from 1), zero for active ones. -/
  slack : Array Float

namespace Work

/-- The normal of constraint `i` (counted from 1). -/
def normal (w : Work) (i : Nat) : Array Float := w.normals.getD (i - 1) #[]

/-- The slack `nᵢᵀ x - bᵢ` of constraint `i` (counted from 1), summed from `-bᵢ`. -/
def residual (w : Work) (i : Nat) : Float :=
  (List.zip (w.normal i).toList w.x.toList).foldl (fun s (a, v) => s + a * v) (-w.rhs.getD (i - 1) 0.0)

/-- Records the slack `s` of constraint `i`: an equality is violated on the side that `s` shows,
so its slack is `-|s|`, and its normal and right-hand side are turned over when `s` is positive. -/
def recordSlack (w : Work) (eqCount i : Nat) (s : Float) : Work :=
  if i > eqCount then { w with slack := w.slack.set! i s }
  else
    let w := { w with slack := w.slack.set! i (-s.abs) }
    if s > 0.0 then
      { w with normals := w.normals.modify (i - 1) (·.map (- ·)),
               rhs := w.rhs.modify (i - 1) (- ·) }
    else w

/-- Every slack computed afresh, those not above `smallStep` in size taken as zero and those of the
active constraints set to zero. -/
def refreshSlacks (w : Work) (count eqCount : Nat) : Work :=
  let w := (List.range' 1 count).foldl (fun w i =>
    let s := w.residual i
    w.recordSlack eqCount i (if s.abs ≤ smallStep then 0.0 else s)) w
  (List.range' 1 w.nact).foldl (fun w i => { w with slack := w.slack.set! (w.act.getD i 0) 0.0 }) w

/-- The most violated constraint, by slack over the length of its normal (the first of equals);
`none` when no slack is negative. -/
def mostViolated (w : Work) (count : Nat) (lengths : Array Float) : Option Nat :=
  let (best, _) := (List.range' 1 count).foldl (fun (best, worst) i =>
    let s := w.slack.getD i 0.0
    let len := lengths.getD (i - 1) 0.0
    if s < worst * len then (i, s / len) else (best, worst)) (0, 0.0)
  if best = 0 then none else some best

/-- The entry of `R` at packed position `pos`. -/
def rAt (w : Work) (pos : Nat) : Float := w.r.getD pos 0.0

end Work

/-- The direction of a step towards constraint `p`: `d = Jᵀ nₚ` (positions from 1), the primal step
`z = J₂ d₂` over the inactive columns, and `r = R⁻¹ d₁` over the active ones. -/
structure Direction where
  d : Array Float
  z : Array Float
  r : Array Float

/-- The direction of a step towards constraint `p` (counted from 1). -/
def direction (w : Work) (n p : Nat) : Direction :=
  let np := w.normal p
  let d := (List.range' 1 n).foldl (fun d i =>
    d.set! i ((List.range' 1 n).foldl (fun s k => s + w.j.get (k - 1) (i - 1) * np.getD (k - 1) 0.0) 0.0))
    (Vector.zeros (n + 1))
  let z := (List.range' (w.nact + 1) (n - w.nact)).foldl (fun z k =>
    (List.range' 1 n).foldl (fun z i => z.set! i (z.getD i 0.0 + w.j.get (i - 1) (k - 1) * d.getD k 0.0)) z)
    (Vector.zeros (n + 1))
  let r := (List.range' 1 w.nact).reverse.foldl (fun r i =>
    let (s, _) := (List.range' (i + 1) (w.nact - i)).foldl (fun (s, l) k =>
      (s - w.rAt l * r.getD k 0.0, l + k)) (d.getD i 0.0, i * (i + 3) / 2)
    r.set! i (s / w.rAt (i * (i + 1) / 2))) (Vector.zeros (n + 1))
  ⟨d, z, r⟩

/-- The largest step the multipliers allow: the least `uᵢ / rᵢ` over active inequalities whose `rᵢ`
is not at most zero (starting from the first of them, then taking each later one that is smaller),
with the position of that constraint; `none` when no multiplier bounds the step. -/
def dualStep (w : Work) (eqCount : Nat) (r : Array Float) : Option (Float × Nat) :=
  let bounds (i : Nat) : Bool := w.act.getD i 0 > eqCount && !(r.getD i 0.0 ≤ 0.0)
  let first := (List.range' 1 w.nact).reverse.foldl (fun found i =>
    if bounds i then some i else found) none
  first.map fun i0 =>
    (List.range' 1 w.nact).foldl (fun (t, it) i =>
      if bounds i then
        let t' := w.u.getD i 0.0 / r.getD i 0.0
        if t' < t then (t', i) else (t, it)
      else (t, it)) (w.u.getD i0 0.0 / r.getD i0 0.0, i0)

/-- The multipliers after a step of length `t`: the active ones move by `-t r`, the new one by `t`. -/
def moveMultipliers (w : Work) (t : Float) (r : Array Float) : Work :=
  let u := (List.range' 1 w.nact).foldl (fun u i => u.set! i (u.getD i 0.0 - t * r.getD i 0.0)) w.u
  { w with u := u.set! (w.nact + 1) (u.getD (w.nact + 1) 0.0 + t) }

/-- The rotation that takes `(a, b)` to `(ρ, 0)`: `ρ` with the sign of `a`, and the cosine and sine
`a / ρ` and `b / ρ`. -/
def rotation (a b : Float) : Float × Float × Float :=
  let big := Float.maxNum a.abs b.abs
  let small := Float.minNum a.abs b.abs
  let rho := Float.copySign (big * (1.0 + small * small / (big * big)).sqrt) a
  (rho, a / rho, b / rho)

/-- Applies the rotation with cosine `c` and sine `s` to columns `k - 1` and `k` (counted from 0)
of the first `n` rows of `J`, in the reflected form with `ν = s / (1 + c)`. -/
def rotateColumns (j : Grid) (n k : Nat) (c s : Float) : Grid :=
  let nu := s / (1.0 + c)
  (List.range n).foldl (fun j i =>
    let a := j.get i (k - 1)
    let b := j.get i k
    let t := c * a + s * b
    (j.set i k (nu * (a + t) - b)).set i (k - 1) t) j

/-- Makes constraint `p` active: `d₁` becomes a new column of `R`, and the inactive part of `d` is
rotated into its first entry, the same rotations applied to `J`. -/
def addConstraint (w : Work) (n p : Nat) (d : Array Float) : Work :=
  let nact := w.nact + 1
  let act := w.act.set! nact p
  let l0 := (nact - 1) * nact / 2 + 1
  let r := (List.range' 1 (nact - 1)).foldl (fun r i => r.set! (l0 + i - 1) (d.getD i 0.0)) w.r
  let l := l0 + (nact - 1)
  if nact = n then { w with nact, act, r := r.set! l (d.getD n 0.0) }
  else
    let (d, j) := (List.range' (nact + 1) (n - nact)).reverse.foldl (fun (d, j) i =>
      let di := d.getD i 0.0
      if di == 0.0 then (d, j)
      else
        let (rho, c, s) := rotation (d.getD (i - 1) 0.0) di
        if c == 1.0 then (d, j)
        else if c == 0.0 then (d.set! (i - 1) (s * rho), j.swapColumns n (i - 2) (i - 1))
        else (d.set! (i - 1) rho, rotateColumns j n (i - 1) c s)) (d, w.j)
    { w with nact, act, j, r := r.set! l (d.getD nact 0.0) }

/-- One pass of dropping: the rotation that clears the subdiagonal entry of column `k + 1` of `R`
(counted from 1), applied to the rows of `R` and the columns of `J`, then column `k + 1` moved into
column `k` and the multiplier and number of constraint `k + 1` moved down. -/
def dropStep (w : Work) (n k : Nat) : Work :=
  let l := k * (k + 1) / 2 + 1
  let l1 := l + k
  let w :=
    if w.rAt l1 != 0.0 then
      let (_, c, s) := rotation (w.rAt (l1 - 1)) (w.rAt l1)
      if c == 1.0 then w
      else if c == 0.0 then
        let (r, _) := (List.range' (k + 1) (w.nact - k)).foldl (fun (r, l1) i =>
          ((r.set! (l1 - 1) (r.getD l1 0.0)).set! l1 (r.getD (l1 - 1) 0.0), l1 + i)) (w.r, l1)
        { w with r, j := w.j.swapColumns n (k - 1) k }
      else
        let nu := s / (1.0 + c)
        let (r, _) := (List.range' (k + 1) (w.nact - k)).foldl (fun (r, l1) i =>
          let a := r.getD (l1 - 1) 0.0
          let b := r.getD l1 0.0
          let t := c * a + s * b
          ((r.set! l1 (nu * (a + t) - b)).set! (l1 - 1) t, l1 + i)) (w.r, l1)
        { w with r, j := rotateColumns w.j n k c s }
    else w
  let r := (List.range k).foldl (fun r i => r.set! (l - k + i) (r.getD (l + i) 0.0)) w.r
  { w with r, u := w.u.set! k (w.u.getD (k + 1) 0.0), act := w.act.set! k (w.act.getD (k + 1) 0) }

/-- Drops active constraint `k` (position from 1): the passes from `k` to `nact - 1`, then the
last position emptied. -/
def dropConstraint (w : Work) (n k : Nat) : Work :=
  let w := (List.range' k (w.nact - k)).foldl (fun w i => dropStep w n i) w
  let nact := w.nact
  { w with u := (w.u.set! nact (w.u.getD (nact + 1) 0.0)).set! (nact + 1) 0.0,
           act := w.act.set! nact 0, nact := nact - 1 }

/-- What one step towards a violated constraint ends in. -/
inductive Step where
  /-- The constraint became active; the next violated one is chosen next. -/
  | added (w : Work)
  /-- An active constraint was dropped; the step towards the same constraint goes on. -/
  | dropped (w : Work)
  /-- The program has no solution. -/
  | failed

/-- One step towards the violated constraint `p`. -/
def step (w : Work) (n eqCount p : Nat) : Step :=
  let dir := direction w n p
  let t1 := dualStep w eqCount dir.r
  let zz := (List.range' 1 n).foldl (fun s i => s + dir.z.getD i 0.0 * dir.z.getD i 0.0) 0.0
  if zz.abs ≤ smallStep then
    match t1 with
    | none => .failed
    | some (t, it) => .dropped (dropConstraint (moveMultipliers w t dir.r) n it)
  else
    let np := w.normal p
    let zn := (List.range' 1 n).foldl (fun s i => s + dir.z.getD i 0.0 * np.getD (i - 1) 0.0) 0.0
    let full := -w.slack.getD p 0.0 / zn
    let (t, blocking?) := match t1 with
      | some (t, it) => if t < full then (t, some it) else (full, none)
      | none => (full, none)
    if t.isInf then .failed
    else
      let x := (List.range n).foldl (fun x i => x.set! i (x.getD i 0.0 + t * dir.z.getD (i + 1) 0.0)) w.x
      let w := moveMultipliers { w with x } t dir.r
      match blocking? with
      | none => .added (addConstraint w n p dir.d)
      | some it =>
        let w := w.recordSlack eqCount p (w.residual p)
        .dropped (dropConstraint w n it)

/-- Runs the method from a state for at most `fuel` steps: choose the most violated constraint,
then step towards it until it is active. -/
def iterate (n count eqCount : Nat) (lengths : Array Float) :
    (fuel : Nat) → Work → Option Nat → Option (Array Float)
  | 0, _, _ => none
  | fuel + 1, w, none =>
    let w := w.refreshSlacks count eqCount
    match w.mostViolated count lengths with
    | none => some w.x
    | some p => iterate n count eqCount lengths fuel w (some p)
  | fuel + 1, w, some p =>
    match step w n eqCount p with
    | .added w => iterate n count eqCount lengths fuel w none
    | .dropped w => iterate n count eqCount lengths fuel w (some p)
    | .failed => none

/-- The steps allowed before the method gives up. -/
def stepLimit : Nat := 1000000

/-- The solution of a program, or `none`. -/
def solve (prog : Program) : Option (Array Float) := do
  let n := prog.dim
  let r ← Cholesky.factorUpper? prog.quad n
  let x := Cholesky.solveFactored r n prog.lin
  let j := Cholesky.invertFactor r n
  let count := prog.normals.size
  let lengths := prog.normals.map fun v => (Vector.dot v v).sqrt
  let w : Work := {
    x, j, r := Vector.zeros (n * (n + 1) / 2 + n + 2), u := Vector.zeros (n + 2),
    act := Array.replicate (n + 2) 0, nact := 0, normals := prog.normals, rhs := prog.rhs,
    slack := Vector.zeros (count + 1) }
  iterate n count prog.eqCount lengths stepLimit w none

end ActiveSet

end ConvexQp
