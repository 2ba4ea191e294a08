import ConvexQp.Method.HybridGradient.Conic
import ConvexQp.Cone.Basic
/-! The homogeneous self-dual embedding of a conic program: its linear map `K` and adjoint, the
projection onto the cones, and the diagonal step sizes of the method. -/

namespace ConvexQp

namespace HybridGradient

/-- A point of the embedding. -/
structure Point where
  /-- The variables. -/
  x : FloatArray
  /-- The dual variables, one per row. -/
  y : FloatArray
  /-- The slacks, one per row. -/
  s : FloatArray
  /-- The weight of the primal-dual pair. -/
  tau : Float

/-- An image under `K`: one entry per variable, one per row, and one for the gap. -/
structure Image where
  /-- The entries of the variables. -/
  r : FloatArray
  /-- The entries of the rows. -/
  z : FloatArray
  /-- The entry of the gap. -/
  g : Float

namespace Conic

/-- `K u`. -/
def embed (c : Conic) (u : Point) : Image :=
  { r := Flat.ofFn c.cols fun j => c.colDot j u.y + Flat.get c.cost j * u.tau,
    z := Flat.ofFn c.rowCount fun i =>
      -c.rowDot i u.x - Flat.get u.s i + Flat.get c.rhs i * u.tau,
    g := -Flat.dot c.cost u.x - Flat.dot c.rhs u.y }

/-- `Kᵀ w`. -/
def adjoint (c : Conic) (w : Image) : Point :=
  { x := Flat.ofFn c.cols fun j => -c.colDot j w.z - Flat.get c.cost j * w.g,
    y := Flat.ofFn c.rowCount fun i => c.rowDot i w.r - Flat.get c.rhs i * w.g,
    s := Flat.map (- ·) w.z,
    tau := Flat.dot c.cost w.r + Flat.dot c.rhs w.z }

/-- The projection of a vector of one entry per row onto the cone (or its dual, which differs only
in the zero rows, where the dual cone is the whole line). -/
def projectRows (c : Conic) (dual : Bool) (v : FloatArray) : FloatArray :=
  let k := c.rotDim + c.nonnegCount
  let head := Cone.rotated (Flat.ofFn (min c.rotDim v.size) (Flat.get v))
  Flat.ofFn v.size fun i =>
    if i < c.rotDim then Flat.get head i
    else if i < k then Cone.nonneg (Flat.get v i)
    else if dual then Flat.get v i else 0.0

/-- The nearest point of the product of the cones. -/
def project (c : Conic) (u : Point) : Point :=
  { u with y := c.projectRows true u.y, s := c.projectRows false u.s, tau := Cone.nonneg u.tau }

/-- `Σ_i |A_ij|` for column `j`. -/
def colMagnitude (c : Conic) (j : Nat) : Float :=
  Flat.sum c.rowCount fun i => (c.entry i j).abs

/-- `Σ_j |A_ij|` for row `i`. -/
def rowMagnitude (c : Conic) (i : Nat) : Float :=
  Flat.sum c.cols fun j => (c.entry i j).abs

/-- The first `k` entries replaced by their greatest. -/
def groupHead (k : Nat) (v : Array Float) : Array Float :=
  let top := (v.extract 0 k).foldl Float.maxNum (v.getD 0 0.0)
  (Array.replicate (min k v.size) top) ++ v.extract k v.size

/-- The inverse of a sum of magnitudes, the sum raised to `tol` first. -/
def invAtLeast (tol x : Float) : Float := 1.0 / Float.maxNum x tol

/-- The step sizes of points. -/
def primalSteps (c : Conic) (tol : Float) : Point :=
  let ys := (Array.range c.rowCount).map fun i => c.rowMagnitude i + (Flat.get c.rhs i).abs
  let ss := Array.replicate c.rowCount 1.0
  { x := Flat.ofFn c.cols fun j => invAtLeast tol (c.colMagnitude j + (Flat.get c.cost j).abs),
    y := ⟨(groupHead c.rotDim ys).map (invAtLeast tol)⟩,
    s := ⟨(groupHead c.rotDim ss).map (invAtLeast tol)⟩,
    tau := invAtLeast tol (Flat.magnitude c.cost + Flat.magnitude c.rhs) }

/-- The step sizes of images. -/
def dualSteps (c : Conic) (tol : Float) : Image :=
  { r := Flat.ofFn c.cols fun j => invAtLeast tol (c.colMagnitude j + (Flat.get c.cost j).abs),
    z := Flat.ofFn c.rowCount fun i =>
      invAtLeast tol (c.rowMagnitude i + 1.0 + (Flat.get c.rhs i).abs),
    g := invAtLeast tol (Flat.magnitude c.cost + Flat.magnitude c.rhs) }

end Conic

end HybridGradient

end ConvexQp
