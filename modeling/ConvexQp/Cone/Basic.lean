import ConvexQp.Linear.Flat
/-! Euclidean projections onto the cones of a conic program: the nonnegative half-line (`max x 0`, a
NaN going to `0`), the second-order cone, and the rotated cone through the orthogonal change that
maps it onto the second-order one. -/

namespace ConvexQp

namespace Cone

/-- The projection onto the nonnegative half-line. -/
def nonneg (x : Float) : Float := Float.maxNum x 0.0

/-- The projection of `(t, v)`, given as one vector, onto the second-order cone. -/
def secondOrder (p : FloatArray) : FloatArray :=
  let t := Flat.get p 0
  let r := (Flat.sum (p.size - 1) fun i => Flat.get p (i + 1) * Flat.get p (i + 1)).sqrt
  if r ≤ t then p
  else if r ≤ -t then Flat.zeros p.size
  else
    let a := (t + r) / 2.0
    Flat.ofFn p.size fun i => if i = 0 then a else a * Flat.get p i / r

/-- The projection onto the rotated cone `2 a b ≥ ‖v‖²` of a vector `(a, b, v)` of length at least
two; a shorter vector is projected entry by entry onto the half-line. -/
def rotated (p : FloatArray) : FloatArray :=
  if p.size < 2 then Flat.map nonneg p
  else
    let s2 := Float.sqrt 2.0
    let a := Flat.get p 0
    let b := Flat.get p 1
    let q := secondOrder (Flat.ofFn p.size fun i =>
      if i = 0 then (a + b) / s2 else if i = 1 then (a - b) / s2 else Flat.get p i)
    let c := Flat.get q 0
    let d := Flat.get q 1
    Flat.ofFn q.size fun i =>
      if i = 0 then (c + d) / s2 else if i = 1 then (c - d) / s2 else Flat.get q i

end Cone

end ConvexQp
