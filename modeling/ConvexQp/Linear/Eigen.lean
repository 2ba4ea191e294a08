import ConvexQp.Linear.Grid
/-! Eigenvalues and eigenvectors of a symmetric matrix by cyclic Jacobi sweeps, an entry rotated
away only when above the tolerance both absolutely and against its diagonal, and the square root of
a positive semidefinite matrix. -/

namespace ConvexQp

namespace Eigen

/-- Whether the entry at `(p, q)` is rotated away: its square is above `tol²` and above `tol²` times
the size of the product of the diagonal entries `a_pp` and `a_qq`. A NaN entry is never rotated. -/
def significant (a : Grid) (p q : Nat) (tol : Float) : Bool :=
  let apq := a.get p q
  apq * apq > tol * tol && apq * apq > tol * tol * (a.get p p * a.get q q).abs

/-- Columns `p` and `q` of the first `n` rows replaced by `c · col p - s · col q` and
`s · col p + c · col q`. -/
def rotateColumns (a : Grid) (n p q : Nat) (c s : Float) : Grid :=
  (List.range n).foldl (fun a k =>
    let x := a.get k p
    let y := a.get k q
    (a.set k p (c * x - s * y)).set k q (s * x + c * y)) a

/-- Rows `p` and `q` of the first `n` columns rotated as in `rotateColumns`. -/
def rotateRows (a : Grid) (n p q : Nat) (c s : Float) : Grid :=
  (List.range n).foldl (fun a k =>
    let x := a.get p k
    let y := a.get q k
    (a.set p k (c * x - s * y)).set q k (s * x + c * y)) a

/-- The rotation removing the entry at `(p, q)`, applied to the matrix and to the eigenvectors,
when that entry is `significant`; the flag records whether a rotation was made. -/
def eliminate (n : Nat) (tol : Float) (p q : Nat) (st : (Grid × Grid) × Bool) :
    (Grid × Grid) × Bool :=
  let ((a, v), _) := st
  if !significant a p q tol then st
  else
    let apq := a.get p q
    let zeta := (a.get q q - a.get p p) / (2.0 * apq)
    let sign : Float := if zeta ≥ 0.0 then 1.0 else -1.0
    let t := sign / (zeta.abs + (zeta * zeta + 1.0).sqrt)
    let c := 1.0 / (t * t + 1.0).sqrt
    let s := t * c
    ((rotateRows (rotateColumns a n p q c s) n p q c s, rotateColumns v n p q c s), true)

/-- One sweep over all pairs above the diagonal, with whether it rotated anything. -/
def sweep (n : Nat) (tol : Float) (av : Grid × Grid) : (Grid × Grid) × Bool :=
  (List.range n).foldl (fun st p =>
    (List.range' (p + 1) (n - (p + 1))).foldl (fun st q => eliminate n tol p q st) st) (av, false)

/-- Sweeps until one rotates nothing, at most `count` times. -/
def sweeps (n : Nat) (tol : Float) : (count : Nat) → Grid × Grid → Grid × Grid
  | 0, av => av
  | count + 1, av =>
    let (next, rotated) := sweep n tol av
    if rotated then sweeps n tol count next else next

/-- The eigenvalues (the diagonal after the sweeps) and the eigenvectors (as columns) of the
symmetric matrix `a` of size `n`. -/
def decompose (a : Grid) (n : Nat) (tol : Float) : Array Float × Grid :=
  let (d, v) := sweeps n tol 100 (a, Grid.ofFn n n fun i j => if i = j then 1.0 else 0.0)
  ((Array.range n).map fun i => d.get i i, v)

/-- The square root `V diag(√λ) Vᵀ` of a positive semidefinite matrix, eigenvalues that are not
positive counted as zero. -/
def sqrtPsd (a : Grid) (n : Nat) (tol : Float) : Grid :=
  let (ev, v) := decompose a n tol
  let f := ev.map fun e => if e > 0.0 then e.sqrt else 0.0
  Grid.ofFn n n fun i j =>
    (List.range n).foldl (fun acc k => acc + v.get i k * f.getD k 0.0 * v.get j k) 0.0

end Eigen

end ConvexQp
