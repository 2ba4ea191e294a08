import ConvexQp.Linear.Grid
/-! The Cholesky factor `R` of `D = Rᵀ R` over the upper triangle of a grid: `factorUpper?` refuses
a pivot that is not positive, `solveFactored` substitutes forward and back, and `invertFactor`
writes `R⁻¹`. -/

namespace ConvexQp

namespace Cholesky

/-- `Σ_{i<k} R i c · R i d`, from the top. -/
def columnDot (r : Grid) (k c d : Nat) : Float :=
  (List.range k).foldl (fun s i => s + r.get i c * r.get i d) 0.0

/-- The factor `R` with `D = Rᵀ R`, from the upper triangle of `D` (size `n`); `none` when a pivot
`D j j - Σ_{k<j} (R k j)²` is at most zero. -/
def factorUpper? (d : Grid) (n : Nat) : Option Grid :=
  (List.range n).foldlM (fun d j =>
    let (d, s) := (List.range j).foldl (fun (d, s) k =>
      let t := (d.get k j - columnDot d k k j) / d.get k k
      (d.set k j t, s + t * t)) (d, 0.0)
    let s := d.get j j - s
    if s ≤ 0.0 then none else some (d.set j j s.sqrt)) d

/-- The solution of `Rᵀ R x = b` for the upper triangular `R` of size `n`. -/
def solveFactored (r : Grid) (n : Nat) (b : Array Float) : Array Float :=
  let y := (List.range n).foldl (fun b k =>
    let t := (List.range k).foldl (fun t i => t + r.get i k * b.getD i 0.0) 0.0
    b.set! k ((b.getD k 0.0 - t) / r.get k k)) b
  (List.range n).reverse.foldl (fun b k =>
    let bk := b.getD k 0.0 / r.get k k
    let b := b.set! k bk
    let t := -bk
    if t != 0.0 then (List.range k).foldl (fun b i => b.set! i (b.getD i 0.0 + t * r.get i k)) b
    else b) y

/-- The upper triangle of size `n` overwritten by the inverse of the factor it holds, the strict
lower triangle cleared. -/
def invertFactor (r : Grid) (n : Nat) : Grid :=
  let inv := (List.range n).foldl (fun a k =>
    let a := a.set k k (1.0 / a.get k k)
    let t := -a.get k k
    let a := (List.range k).foldl (fun a i => a.set i k (t * a.get i k)) a
    (List.range' (k + 1) (n - (k + 1))).foldl (fun a j =>
      let t := a.get k j
      let a := a.set k j 0.0
      if t != 0.0 then (List.range (k + 1)).foldl (fun a i => a.set i j (a.get i j + t * a.get i k)) a
      else a) a) r
  (List.range n).foldl (fun a j =>
    (List.range' (j + 1) (n - (j + 1))).foldl (fun a i => a.set i j 0.0) a) inv

end Cholesky

end ConvexQp
