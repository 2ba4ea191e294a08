import ConvexQp.Linear.Grid
/-! The factorization `L D Lᵀ` of a symmetric quasi-definite matrix in a given order, a pivot whose
product with its expected sign is not above `eps` being replaced by `delta` times that sign. -/

namespace ConvexQp

namespace Ldl

/-- The factors of a symmetric matrix in the order `perm`: row `i` of `lower` and `diag[i]` belong
to row `perm[i]` of the matrix. -/
structure Factor where
  /-- The order of the rows. -/
  perm : Array Nat
  /-- `L`, below its unit diagonal. -/
  lower : Grid
  /-- `D`. -/
  diag : Array Float

/-- The factors of the symmetric matrix `k` of size `n` in the order `perm`, pivot `i` of the
expected sign `signs[perm[i]]`. -/
def factor (k : Grid) (n : Nat) (perm : Array Nat) (signs : Array Float) (eps delta : Float) :
    Factor :=
  let entry (i j : Nat) : Float := k.get (perm.getD i 0) (perm.getD j 0)
  let (l, d) := (List.range n).foldl (fun (l, d) c =>
    let s := (List.range c).foldl (fun s j => s - l.get c j * l.get c j * d.getD j 0.0) (entry c c)
    let sign := signs.getD (perm.getD c 0) 1.0
    let s := if s * sign ≤ eps then delta * sign else s
    let d := d.set! c s
    let l := (List.range' (c + 1) (n - (c + 1))).foldl (fun l i =>
      let t := (List.range c).foldl (fun t j => t - l.get i j * l.get c j * d.getD j 0.0) (entry i c)
      l.set i c (t / s)) l
    (l, d)) (Grid.zeros n n, Vector.zeros n)
  ⟨perm, l, d⟩

/-- The solution of `K x = b` from the factors of `K` of size `n`. -/
def Factor.solve (f : Factor) (n : Nat) (b : Array Float) : Array Float :=
  let y := (Array.range n).map fun i => b.getD (f.perm.getD i 0) 0.0
  let y := (List.range n).foldl (fun y i =>
    y.set! i ((List.range i).foldl (fun t j => t - f.lower.get i j * y.getD j 0.0) (y.getD i 0.0))) y
  let y := (List.range n).foldl (fun y i => y.set! i (y.getD i 0.0 / f.diag.getD i 0.0)) y
  let y := (List.range n).reverse.foldl (fun y i =>
    y.set! i ((List.range' (i + 1) (n - (i + 1))).foldl
      (fun t j => t - f.lower.get j i * y.getD j 0.0) (y.getD i 0.0))) y
  (List.range n).foldl (fun x i => x.set! (f.perm.getD i 0) (y.getD i 0.0)) (Vector.zeros n)

end Ldl

end ConvexQp
