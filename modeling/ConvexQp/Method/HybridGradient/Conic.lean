import ConvexQp.Linear.Eigen
import ConvexQp.Linear.Flat
/-! Conic programs `minimize cᵀ x` under `A x + s = b`, `s` in a rotated cone, half-lines and zeros,
and the conic form of a convex quadratic program through the square root of `P`. -/

namespace ConvexQp

namespace HybridGradient

/-- A conic program with a rotated cone of dimension `rotDim`, then `nonnegCount` half-lines, then
zeros for the remaining rows. -/
structure Conic where
  /-- The number of variables. -/
  cols : Nat
  /-- The entries of `A`, row after row, each row of length `cols`. -/
  mat : FloatArray
  /-- `b`, one entry per row. -/
  rhs : FloatArray
  /-- `c`, one entry per variable. -/
  cost : FloatArray
  /-- The dimension of the rotated cone over the first rows. -/
  rotDim : Nat
  /-- The number of half-lines after it. -/
  nonnegCount : Nat

namespace Conic

/-- The number of rows. -/
def rowCount (c : Conic) : Nat := c.rhs.size

/-- The entry `A_ij`. -/
@[inline] def entry (c : Conic) (i j : Nat) : Float := Flat.get c.mat (i * c.cols + j)

/-- `Σ_j A_ij v_j` for row `i`, from the first column. -/
def rowDot (c : Conic) (i : Nat) (v : FloatArray) : Float :=
  Flat.sum c.cols fun j => c.entry i j * Flat.get v j

/-- `Σ_i A_ij v_i` for column `j`, from the first row. -/
def colDot (c : Conic) (j : Nat) (v : FloatArray) : Float :=
  Flat.sum c.rowCount fun i => c.entry i j * Flat.get v i

end Conic

/-- The conic form of the program `½ xᵀ P x + qᵀ x` under `G x ≤ h` and `A x = b` with `n`
variables, `P` given by a function of row and column whose upper triangle is read, and `G` and `A`
by their rows. -/
def Conic.ofQuadratic (n : Nat) (p : Nat → Nat → Float) (q : Array Float) (g : Array (Array Float))
    (h : Array Float) (a : Array (Array Float)) (b : Array Float) (tol : Float) : Conic :=
  let sym := Grid.ofFn n n fun i j => if i ≤ j then p i j else p j i
  let root := Eigen.sqrtPsd sym n tol
  let rootRows := (Array.range n).map fun i => ((Array.range n).map fun j => -root.get i j).push 0.0
  let rows := #[q.push (-1.0), Vector.zeros (n + 1)] ++ rootRows ++ g.map (·.push 0.0) ++
    a.map (·.push 0.0)
  { cols := n + 1,
    mat := Flat.ofFn (rows.size * (n + 1)) fun k => (rows.getD (k / (n + 1)) #[]).getD (k % (n + 1)) 0.0,
    rhs := ⟨#[0.0, 1.0] ++ Vector.zeros n ++ h ++ b⟩,
    cost := ⟨Vector.zeros n |>.push 1.0⟩,
    rotDim := n + 2, nonnegCount := h.size }

end HybridGradient

end ConvexQp
