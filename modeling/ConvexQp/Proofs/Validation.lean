import ConvexQp.Problem.Check
/-! The checks a problem passes before it is normalized, as one sequence of defects looked for in a
fixed order: `validate` fails exactly with the first (`validate_eq_checkOf`). -/

namespace ConvexQp

/-- The defect a size check finds: the mismatch, if the size found is not the one expected. -/
def sizeDefect (what : Part) (expected found : Nat × Nat) : Option QpError :=
  if expected = found then none else some (.dimensionMismatch what expected found)

theorem sizeDefect_eq_none_iff {what : Part} {expected found : Nat × Nat} :
    sizeDefect what expected found = none ↔ expected = found := by
  unfold sizeDefect
  split <;> simp_all

/-- The defect a pairing check finds: the member missing from a pair given half. -/
def pairDefect {α β : Type} (kind : ConstraintKind) (mat : Option α) (matPart : Part) (rhs : Option β)
    (rhsPart : Part) : Option QpError :=
  match mat, rhs with
  | some _, none => some (.incompleteConstraint kind rhsPart)
  | none, some _ => some (.incompleteConstraint kind matPart)
  | _, _ => none

/-- The defect of a constraint matrix given with its right-hand side: its size against `len rhs × n`,
a row counting as `1 × len`. -/
def matrixDefect (what : Part) (n : Nat) : Option Lhs → Option (Array Float) → Option QpError
  | some g, some rhs => sizeDefect what (rhs.size, n) (g.rows, g.cols)
  | _, _ => none

/-- The defect of a vector, if one is given: its size `len × 1` against `n × 1`. -/
def vectorDefect (what : Part) (n : Nat) (v : Option (Array Float)) : Option QpError :=
  v.bind fun v => sizeDefect what (n, 1) (v.size, 1)

/-- A defect as the outcome of a check: the defect is the error, and no defect passes. -/
def checkOf : Option QpError → Except QpError Unit
  | some e => .error e
  | none => .ok ()

/-- Two checks in a row report the first defect of the two. -/
theorem checkOf_or (a b : Option QpError) :
    (checkOf a >>= fun _ => checkOf b) = checkOf (a.or b) := by
  cases a <;> rfl

namespace Problem

/-- The first defect of a problem: an incomplete pair, `G` before `A`; then the sizes of `P`, `G`,
`A`, `lb`, `ub` and the starting point, in this order, against what `n` asks. -/
def firstDefect (p : Problem) : Option QpError :=
  let n := p.dim
  pairDefect .inequality p.ineqLhs .ineqLhs p.ineqRhs .ineqRhs <|>
  pairDefect .equality p.eqLhs .eqLhs p.eqRhs .eqRhs <|>
  sizeDefect .quad (n, n) (p.quad.rows, p.quad.cols) <|>
  matrixDefect .ineqLhs n p.ineqLhs p.ineqRhs <|>
  matrixDefect .eqLhs n p.eqLhs p.eqRhs <|>
  vectorDefect .lower n p.lower <|>
  vectorDefect .upper n p.upper <|>
  vectorDefect .start n p.start

theorem checkPair_eq {α β : Type} (kind : ConstraintKind) (mat : Option α) (matPart : Part)
    (rhs : Option β) (rhsPart : Part) :
    checkPair kind mat matPart rhs rhsPart = checkOf (pairDefect kind mat matPart rhs rhsPart) := by
  cases mat <;> cases rhs <;> rfl

/-- The verdict of a size demand. -/
def verdictOf (d : SizeDemand) : Option QpError := sizeDefect d.what d.expected d.found

/-- The first demand not met, as an error, is the first verdict that is a defect. -/
theorem find?_unmet_map (ds : List SizeDemand) :
    (ds.find? fun d => d.expected != d.found).map
      (fun d => QpError.dimensionMismatch d.what d.expected d.found) = ds.findSome? verdictOf := by
  induction ds with
  | nil => rfl
  | cons d ds ih =>
    by_cases h : d.expected = d.found
    · simp [verdictOf, sizeDefect, h, ih]
    · simp [verdictOf, sizeDefect, h]

theorem checkSizes_eq (p : Problem) : p.checkSizes = checkOf (p.sizeDemands.findSome? verdictOf) := by
  rw [← find?_unmet_map, checkSizes]
  cases p.sizeDemands.find? (fun d => d.expected != d.found) <;> rfl

theorem findSome?_vectorDemand (what : Part) (n : Nat) (v : Option (Array Float)) :
    (vectorDemand what n v).findSome? verdictOf = vectorDefect what n v := by
  cases v <;> simp [vectorDemand, vectorDefect, verdictOf]

theorem findSome?_matrixDemand (what : Part) (n : Nat) (l : Option Lhs) (v : Option (Array Float)) :
    (matrixDemand what n l v).findSome? verdictOf = matrixDefect what n l v := by
  cases l <;> cases v <;> simp [matrixDemand, matrixDefect, verdictOf]

theorem findSome?_cons_eq_or {α β : Type} (f : α → Option β) (x : α) (l : List α) :
    (x :: l).findSome? f = (f x).or (l.findSome? f) := by
  rw [List.findSome?_cons]
  cases f x <;> rfl

/-- Validation fails exactly with the first defect, and passes when there is none. -/
theorem validate_eq_checkOf (p : Problem) : p.validate = checkOf p.firstDefect := by
  have hpairs : p.checkPairs = checkOf ((pairDefect .inequality p.ineqLhs .ineqLhs p.ineqRhs .ineqRhs).or
      (pairDefect .equality p.eqLhs .eqLhs p.eqRhs .eqRhs)) := by
    rw [checkPairs, checkPair_eq, checkPair_eq, checkOf_or]
  have hsizes := checkSizes_eq p
  simp only [sizeDemands, findSome?_cons_eq_or, List.findSome?_append, findSome?_matrixDemand,
    findSome?_vectorDemand] at hsizes
  rw [validate, hpairs, hsizes, checkOf_or]
  simp only [firstDefect, Option.orElse_eq_orElse, Option.orElse_eq_or, Option.or_assoc]
  rfl

theorem pairDefect_eq_none_iff {α β : Type} {kind : ConstraintKind} {mat : Option α} {matPart : Part}
    {rhs : Option β} {rhsPart : Part} :
    pairDefect kind mat matPart rhs rhsPart = none ↔ mat.isSome = rhs.isSome := by
  cases mat <;> cases rhs <;> simp [pairDefect]

theorem matrixDefect_eq_none_iff {what : Part} {n : Nat} {l : Option Lhs} {v : Option (Array Float)} :
    matrixDefect what n l v = none ↔ ∀ g rhs, l = some g → v = some rhs → g.rows = rhs.size ∧ g.cols = n := by
  cases l <;> cases v <;> simp only [matrixDefect, sizeDefect_eq_none_iff, Prod.mk.injEq] <;> simp
  omega

theorem vectorDefect_eq_none_iff {what : Part} {n : Nat} {v : Option (Array Float)} :
    vectorDefect what n v = none ↔ ∀ x, v = some x → x.size = n := by
  cases v <;> simp only [vectorDefect, Option.bind_some, sizeDefect_eq_none_iff, Prod.mk.injEq] <;> simp
  omega

/-- What a problem without defect satisfies: each constraint matrix comes with its right-hand side,
`P` is `n × n`, `G` has a row per entry of `h` and `A` one per entry of `b`, both `n` wide, and `lb`,
`ub` and the starting point have length `n`. -/
structure Valid (p : Problem) : Prop where
  ineq_paired : p.ineqLhs.isSome = p.ineqRhs.isSome
  eq_paired : p.eqLhs.isSome = p.eqRhs.isSome
  quad_size : p.quad.rows = p.dim ∧ p.quad.cols = p.dim
  ineq_size : ∀ g h, p.ineqLhs = some g → p.ineqRhs = some h → g.rows = h.size ∧ g.cols = p.dim
  eq_size : ∀ a b, p.eqLhs = some a → p.eqRhs = some b → a.rows = b.size ∧ a.cols = p.dim
  lower_size : ∀ v, p.lower = some v → v.size = p.dim
  upper_size : ∀ v, p.upper = some v → v.size = p.dim
  start_size : ∀ v, p.start = some v → v.size = p.dim

/-- A problem has no defect exactly when it is valid. -/
theorem firstDefect_eq_none_iff (p : Problem) : p.firstDefect = none ↔ p.Valid := by
  simp only [firstDefect, Option.orElse_eq_orElse, Option.orElse_eq_or, Option.or_eq_none_iff,
    pairDefect_eq_none_iff, sizeDefect_eq_none_iff, matrixDefect_eq_none_iff,
    vectorDefect_eq_none_iff, Prod.mk.injEq]
  constructor
  · rintro ⟨hG, hA, ⟨hPr, hPc⟩, hGs, hAs, hlb, hub, hst⟩
    exact ⟨hG, hA, ⟨hPr.symm, hPc.symm⟩, hGs, hAs, hlb, hub, hst⟩
  · rintro ⟨hG, hA, ⟨hPr, hPc⟩, hGs, hAs, hlb, hub, hst⟩
    exact ⟨hG, hA, ⟨hPr.symm, hPc.symm⟩, hGs, hAs, hlb, hub, hst⟩

end Problem

end ConvexQp
