import ConvexQp.Problem.Normalize
import ConvexQp.Proofs.Stacking
import ConvexQp.Proofs.Validation
/-! What `normalize` makes of a problem: it fails exactly with the first defect and never stops on
the way, and its inequalities stack `G`, `-I` and `I` in this order. -/

namespace ConvexQp

namespace Mat

theorem symmetrize?_isSome_iff (m : Mat) : m.symmetrize?.isSome ↔ m.rows = m.cols := by
  cases m with
  | dense a =>
    simp only [symmetrize?, Dense.symmetrize?, rows, cols]
    split <;> simp_all
  | sparse a =>
    simp only [symmetrize?, Sparse.symmetrize?, rows, cols]
    split <;> simp_all

end Mat

namespace Problem

theorem quadFor_false (p : Problem) : p.quadFor false = p.quad := rfl

theorem storage_quadFor (p : Problem) (s : Bool) : (p.quadFor s).storage = p.quad.storage := by
  cases s with
  | false => rfl
  | true =>
    cases h : p.quad.symmetrize? with
    | none => simp [quadFor, h]
    | some o => simpa [quadFor, h] using (Mat.symmetrize?_shape h).2.2

/-- Asked for, the symmetric part of a square `P` is taken. -/
theorem symmetrize?_eq_quadFor (p : Problem) (h : p.quad.rows = p.quad.cols) :
    p.quad.symmetrize? = some (p.quadFor true) := by
  obtain ⟨o, ho⟩ := Option.isSome_iff_exists.1 ((Mat.symmetrize?_isSome_iff p.quad).2 h)
  simp [quadFor, ho]

/-- Not asked for, or not square, `P` is kept. -/
theorem quadFor_eq_quad (p : Problem) {s : Bool} (h : s = false ∨ p.quad.rows ≠ p.quad.cols) :
    p.quadFor s = p.quad := by
  rcases h with rfl | h
  · rfl
  · have hnone : p.quad.symmetrize? = none := by
      cases hs : p.quad.symmetrize? with
      | none => rfl
      | some o => exact absurd ((Mat.symmetrize?_isSome_iff p.quad).1 (by simp [hs])) h
    cases s <;> simp [quadFor, hnone]

/-- The normal form with `P` symmetrized on request is the plain one with `P` replaced. -/
theorem normalize_eq_map_quad (p : Problem) (s : Bool) :
    p.normalize s = (p.normalize false).map (Except.map fun d => { d with quad := p.quadFor s }) := by
  simp only [normalize, storage_quadFor, quadFor_false]
  cases p.validate with
  | error e => rfl
  | ok u =>
    simp only [Option.map_bind]
    congr 1
    funext ineq
    rw [Function.comp_apply]
    cases foldBound? ineq p.quad.storage 1.0 p.upper <;> rfl

theorem normalize_of_defect {p : Problem} {e : QpError} (h : p.firstDefect = some e) (s : Bool) :
    p.normalize s = some (.error e) := by
  have hv : p.validate = .error e := by rw [validate_eq_checkOf, h]; rfl
  simp only [normalize, hv]

end Problem

/-! ### Folding the bounds -/

/-- The storage an appended identity takes: that of the inequalities so far, or `k` when there are
none. -/
def foldStorage (ineq : Option (Mat × Array Float)) (k : Storage) : Storage :=
  match ineq with
  | some (g, _) => g.storage
  | none => k

/-- The block a bound appends: `sign · I`, `n` wide, in the storage `k`. -/
def boundBlock (n : Nat) (k : Storage) (sign : Float) : Mat := (Mat.identity n k).scale sign

@[simp] theorem cols_boundBlock (n : Nat) (k : Storage) (sign : Float) :
    (boundBlock n k sign).cols = n := by
  simp [boundBlock]

@[simp] theorem storage_boundBlock (n : Nat) (k : Storage) (sign : Float) :
    (boundBlock n k sign).storage = k := by
  simp [boundBlock]

/-- The inequalities folded so far: absent while there is no block, else the blocks stacked with
their right-hand side, `n` wide, in the storage of the first block. -/
def Folded (n : Nat) (blocks : List Mat) (rhs : Array Float) : Option (Mat × Array Float) → Prop
  | none => blocks = [] ∧ rhs = #[]
  | some (g, h) => h = rhs ∧ g.cols = n ∧ blocks.head?.map Mat.storage = some g.storage ∧
      Stacks blocks g

theorem foldStorage_of_folded {n : Nat} {blocks : List Mat} {rhs : Array Float}
    {ineq : Option (Mat × Array Float)} (h : Folded n blocks rhs ineq) (k : Storage) :
    foldStorage ineq k = (blocks.head?.map Mat.storage).getD k := by
  match ineq, h with
  | none, ⟨hb, _⟩ => simp [foldStorage, hb]
  | some (g, _), ⟨_, _, hhead, _⟩ => simp [foldStorage, hhead]

/-- Folding a bound of length `n` into inequalities `n` wide never stops, and appends its block below
the others and its right-hand side after theirs. -/
theorem folded_foldBound? {n : Nat} {blocks : List Mat} {rhs : Array Float}
    {ineq : Option (Mat × Array Float)} (h : Folded n blocks rhs ineq) (k : Storage) (sign : Float)
    {bound : Option (Array Float)} (hb : ∀ v, bound = some v → v.size = n) :
    ∃ ineq', foldBound? ineq k sign bound = some ineq' ∧
      Folded n (blocks ++ (bound.map fun _ => boundBlock n (foldStorage ineq k) sign).toList)
        (rhs ++ (bound.getD #[]).map (sign * ·)) ineq' := by
  cases bound with
  | none => exact ⟨ineq, rfl, by simpa using h⟩
  | some v =>
    have hv := hb v rfl
    match ineq, h with
    | none, ⟨hblocks, hrhs⟩ =>
      subst hblocks hrhs
      refine ⟨some (boundBlock n k sign, v.map (sign * ·)), ?_, ?_⟩
      · simp [foldBound?, foldBound, boundBlock, hv]
      · exact ⟨by simp, by simp, by simp [foldStorage], stacks_single _⟩
    | some (g, h'), ⟨hrhs, hgc, hhead, hst⟩ =>
      subst hrhs
      refine ⟨some (g.vcat (boundBlock n g.storage sign), h' ++ v.map (sign * ·)), ?_, ?_⟩
      · simp [foldBound?, foldBound, boundBlock, Mat.vcat?_of_cols_eq, hgc, hv]
      · have hne : blocks ≠ [] := by
          rintro rfl
          simp at hhead
        refine ⟨by simp, by simp [hgc], ?_, hst.vcat (by simp [hgc])⟩
        obtain ⟨b, bs, rfl⟩ := List.exists_cons_of_ne_nil hne
        simpa [foldStorage] using hhead

/-! ### The normal form -/

theorem constraintBlock_some {l : Option Lhs} {rhs : Option (Array Float)} {g : Lhs}
    {h : Array Float} (hl : l = some g) (hr : rhs = some h) (k : Storage) :
    constraintBlock l rhs k = some (g.toMat k, h) := by
  simp [constraintBlock, hl, hr]

theorem constraintBlock_eq_none_iff {l : Option Lhs} {rhs : Option (Array Float)}
    (hpair : l.isSome = rhs.isSome) (k : Storage) : constraintBlock l rhs k = none ↔ l = none := by
  cases l <;> cases rhs <;> simp_all [constraintBlock]

namespace Problem

/-- The storage of the inequalities of the normal form: that of `G` as a matrix in the storage of
`P`, or that of `P` when there is no `G`. -/
def ineqStorage (p : Problem) : Storage :=
  match p.ineqLhs with
  | some g => (g.toMat p.quad.storage).storage
  | none => p.quad.storage

/-- The blocks of the inequalities of the normal form, top to bottom: `G` as a matrix in the storage
of `P`, then `-I` for `lb`, then `I` for `ub`, as far as they are given, the identities `n` wide and
in `ineqStorage`. -/
def ineqBlocks (p : Problem) : List Mat :=
  (p.ineqLhs.map (·.toMat p.quad.storage)).toList ++
    (p.lower.map fun _ => boundBlock p.dim p.ineqStorage (-1.0)).toList ++
    (p.upper.map fun _ => boundBlock p.dim p.ineqStorage 1.0).toList

/-- The right-hand side of the inequalities of the normal form: `h`, then `-lb`, then `ub`, as far as
they are given. -/
def ineqRhsFolded (p : Problem) : Array Float :=
  p.ineqRhs.getD #[] ++ (p.lower.getD #[]).map (-1.0 * ·) ++ (p.upper.getD #[]).map (1.0 * ·)

theorem ineqBlocks_eq_nil_iff (p : Problem) :
    p.ineqBlocks = [] ↔ p.ineqLhs = none ∧ p.lower = none ∧ p.upper = none := by
  cases hG : p.ineqLhs <;> cases hl : p.lower <;> cases hu : p.upper <;> simp [ineqBlocks, hG, hl, hu]

/-- The first block is in the storage of the inequalities. -/
theorem storage_head_ineqBlocks (p : Problem) :
    ∀ b ∈ p.ineqBlocks.head?, b.storage = p.ineqStorage := by
  cases hG : p.ineqLhs <;> cases hl : p.lower <;> cases hu : p.upper <;>
    simp [ineqBlocks, ineqStorage, hG, hl, hu]

/-- The blocks are well formed when a sparse `G` given as a matrix is. -/
theorem wellFormed_ineqBlocks {p : Problem} (hG : ∀ m, p.ineqLhs = some (.matrix m) → m.WellFormed) :
    ∀ b ∈ p.ineqBlocks, b.WellFormed := by
  have hbound : ∀ k sign, (boundBlock p.dim k sign).WellFormed :=
    fun k sign => (Mat.wellFormed_identity _ _).scale sign
  intro b hb
  simp only [ineqBlocks, List.mem_append, Option.mem_toList, Option.map_eq_some_iff] at hb
  rcases hb with (⟨g, hg, rfl⟩ | ⟨_, _, rfl⟩) | ⟨_, _, rfl⟩
  · cases g with
    | matrix m => exact hG m hg
    | row xs => exact Mat.wellFormed_toStorage_dense _ _
  · exact hbound _ _
  · exact hbound _ _

/-- Past the checks, the normal form is `P` as asked, `q`, the stacked inequalities and the
equalities; the bounds are folded in without stopping. -/
theorem normalize_of_valid {p : Problem} (hv : p.Valid) (s : Bool) :
    ∃ ineq, p.normalize s =
        some (.ok ⟨p.quadFor s, p.lin, ineq, constraintBlock p.eqLhs p.eqRhs p.quad.storage⟩) ∧
      Folded p.dim p.ineqBlocks p.ineqRhsFolded ineq := by
  have hval : p.validate = .ok () := by
    rw [validate_eq_checkOf, (firstDefect_eq_none_iff p).2 hv]
    rfl
  have h0 : Folded p.dim (p.ineqLhs.map (·.toMat p.quad.storage)).toList (p.ineqRhs.getD #[])
      (constraintBlock p.ineqLhs p.ineqRhs p.quad.storage) := by
    have hpair := hv.ineq_paired
    cases hG : p.ineqLhs with
    | none =>
      cases hh : p.ineqRhs with
      | none => exact ⟨rfl, rfl⟩
      | some h => simp [hG, hh] at hpair
    | some g =>
      cases hh : p.ineqRhs with
      | none => simp [hG, hh] at hpair
      | some h =>
        simp only [constraintBlock, Option.map_some, Option.toList_some, Option.getD_some]
        exact ⟨rfl, by simpa using (hv.ineq_size g h hG hh).2, by simp, stacks_single _⟩
  obtain ⟨i1, h1, hf1⟩ := folded_foldBound? h0 p.quad.storage (-1.0) hv.lower_size
  obtain ⟨i2, h2, hf2⟩ := folded_foldBound? hf1 p.quad.storage 1.0 hv.upper_size
  have hs0 : foldStorage (constraintBlock p.ineqLhs p.ineqRhs p.quad.storage) p.quad.storage =
      p.ineqStorage := by
    rw [foldStorage_of_folded h0]
    cases hG : p.ineqLhs <;> simp [ineqStorage, hG]
  have hs1 : foldStorage i1 p.quad.storage = p.ineqStorage := by
    rw [foldStorage_of_folded hf1, hs0]
    cases hG : p.ineqLhs <;> cases p.lower <;> simp [ineqStorage, hG]
  rw [hs0, hs1] at hf2
  refine ⟨i2, ?_, hf2⟩
  simp only [normalize, storage_quadFor, hval, h1, Option.bind_some, h2, Option.map_some]

/-- Normalizing either fails with the first defect, or, without defect, makes a normal form. -/
theorem normalize_cases (p : Problem) (s : Bool) :
    (∃ e, p.firstDefect = some e ∧ p.normalize s = some (.error e)) ∨
    (p.firstDefect = none ∧ ∃ d, p.normalize s = some (.ok d)) := by
  cases hd : p.firstDefect with
  | some e => exact .inl ⟨e, rfl, normalize_of_defect hd s⟩
  | none =>
    obtain ⟨_, hn, -⟩ := normalize_of_valid ((firstDefect_eq_none_iff p).1 hd) s
    exact .inr ⟨rfl, _, hn⟩

/-- Normalizing never stops the program. -/
theorem normalize_isSome (p : Problem) (s : Bool) : ∃ r, p.normalize s = some r := by
  rcases p.normalize_cases s with ⟨_, -, hn⟩ | ⟨-, _, hn⟩
  · exact ⟨_, hn⟩
  · exact ⟨_, hn⟩

end Problem

/-- Normalizing never stops the program and fails exactly with the first defect of the problem;
with or without the symmetric part of `P` it comes to the same outcome, the two normal forms differing
at most in `P`. -/
theorem normalize_fails_at_first_defect (p : Problem) (s : Bool) :
    (∃ r, p.normalize s = some r) ∧
    (∀ e, p.normalize s = some (.error e) ↔ p.firstDefect = some e) ∧
    ((∃ d, p.normalize s = some (.ok d)) ↔ p.firstDefect = none) ∧
    (p.normalize true).map (Except.map fun d => { d with quad := p.quad }) =
      (p.normalize false).map (Except.map fun d => { d with quad := p.quad }) := by
  have hforget : (p.normalize true).map (Except.map fun d => { d with quad := p.quad }) =
      (p.normalize false).map (Except.map fun d => { d with quad := p.quad }) := by
    rw [Problem.normalize_eq_map_quad p true, Option.map_map]
    congr 1
    funext r
    cases r <;> rfl
  refine ⟨p.normalize_isSome s, fun e => ?_, ?_, hforget⟩
  · rcases p.normalize_cases s with ⟨e', hd, hn⟩ | ⟨hd, _, hn⟩
    · simp [hd, hn, eq_comm]
    · simp [hd, hn]
  · rcases p.normalize_cases s with ⟨_, hd, hn⟩ | ⟨hd, _, hn⟩
    · simp [hd, hn]
    · simp [hd, hn]

/-- The normal form of a problem: `P` made symmetric on request, `q` kept, `A` with `b` as given,
and inequalities absent exactly without `G`, `lb` and `ub`, otherwise `G`, `-I`, `I` stacked in this
order with `h`, `-lb`, `ub`, entry for entry if dense, triplet for triplet if sparse. -/
theorem normalize_builds_normal_form {p : Problem} {s : Bool} {d : Normalized}
    (h : p.normalize s = some (.ok d)) :
    (s = true → p.quad.rows = p.quad.cols → p.quad.symmetrize? = some d.quad) ∧
    (s = false ∨ p.quad.rows ≠ p.quad.cols → d.quad = p.quad) ∧
    d.quad.storage = p.quad.storage ∧ d.lin = p.lin ∧
    (d.eq = none ↔ p.eqLhs = none) ∧
    (∀ a b, p.eqLhs = some a → p.eqRhs = some b → d.eq = some (a.toMat p.quad.storage, b)) ∧
    (∀ xs, p.eqLhs = some (.row xs) → ∃ a b, d.eq = some (a, b) ∧
      a.rows = 1 ∧ a.cols = p.dim ∧ a.storage = p.quad.storage) ∧
    (d.ineq = none ↔ p.ineqLhs = none ∧ p.lower = none ∧ p.upper = none) ∧
    (∀ g rhs, d.ineq = some (g, rhs) → rhs = p.ineqRhsFolded ∧ g.storage = p.ineqStorage ∧
      g.cols = p.dim ∧ g.rows = (p.ineqBlocks.map Mat.rows).sum ∧
      (∀ a, g = .dense a → ∀ r c, r < a.rows → c < a.cols →
        a.entry r c = stackedEntry (p.ineqBlocks.map Mat.toDense) r c) ∧
      ((∀ m, p.ineqLhs = some (.matrix m) → m.WellFormed) → ∀ a, g = .sparse a →
        a.entries.Perm (stackedTriplets p.ineqBlocks 0))) := by
  have hd : p.firstDefect = none := by
    rcases p.normalize_cases s with ⟨_, -, hn⟩ | ⟨hd, -⟩
    · rw [hn] at h
      cases h
    · exact hd
  have hv := (Problem.firstDefect_eq_none_iff p).1 hd
  obtain ⟨ineq, hn, hf⟩ := Problem.normalize_of_valid hv s
  rw [hn] at h
  cases h
  have hpair := hv.eq_paired
  refine ⟨fun hs hsq => hs ▸ p.symmetrize?_eq_quadFor hsq, p.quadFor_eq_quad,
    p.storage_quadFor s, rfl, constraintBlock_eq_none_iff hpair _,
    fun a b ha hb => constraintBlock_some ha hb _, ?_, ?_, ?_⟩
  · intro xs hxs
    obtain ⟨b, hb⟩ := Option.isSome_iff_exists.1 (by rw [← hpair, hxs]; rfl)
    refine ⟨_, b, constraintBlock_some hxs hb _, by simp [Lhs.rows], ?_, by simp⟩
    simpa using (hv.eq_size _ b hxs hb).2
  · rw [← Problem.ineqBlocks_eq_nil_iff]
    cases ineq with
    | none => simp [hf.1]
    | some gh =>
      obtain ⟨-, -, hhead, -⟩ := hf
      simp only [reduceCtorEq, false_iff]
      rintro hnil
      simp [hnil] at hhead
  · rintro g rhs rfl
    obtain ⟨hrhs, hcols, hhead, hst⟩ := hf
    have hstorage : g.storage = p.ineqStorage := by
      obtain ⟨b, hb, hbs⟩ := Option.map_eq_some_iff.1 hhead
      exact hbs ▸ p.storage_head_ineqBlocks b hb
    exact ⟨hrhs, hstorage, hcols, hst.rows, hst.dense,
      fun hG a ha => (hst.sparse a ha (Problem.wellFormed_ineqBlocks hG)).2⟩

/-- A sparse `P`, rows for `G` and `A`, and both bounds: the normal form is made, its equality is a
`1 × 2` sparse matrix, and its inequalities stack five sparse rows, `G` over `-I` over `I`. -/
theorem normalize_builds_normal_form_at_box :
    let p : Problem := { quad := .sparse (Sparse.identity 2), lin := #[1.0, 1.0],
                         ineqLhs := some (.row #[1.0, 1.0]), ineqRhs := some #[1.0],
                         eqLhs := some (.row #[1.0, -1.0]), eqRhs := some #[0.0],
                         lower := some #[0.0, 0.0], upper := some #[1.0, 1.0] }
    ∃ d, p.normalize false = some (.ok d) ∧
      (∃ a b, d.eq = some (a, b) ∧ a.rows = 1 ∧ a.cols = 2 ∧ a.storage = .sparse) ∧
      ∃ g rhs, d.ineq = some (g, rhs) ∧ g.storage = .sparse ∧ g.rows = 5 ∧ g.cols = 2 := by
  intro p
  have hv : p.Valid := (Problem.firstDefect_eq_none_iff p).1 (by decide)
  obtain ⟨ineq, hn, _⟩ := Problem.normalize_of_valid hv false
  have hform := normalize_builds_normal_form hn
  refine ⟨_, hn, hform.2.2.2.2.2.2.1 #[1.0, -1.0] rfl, ?_⟩
  cases hi : ineq with
  | none => simp [hi] at hform
  | some gh =>
    obtain ⟨g, rhs⟩ := gh
    obtain ⟨-, hstorage, hcols, hrows, -⟩ := hform.2.2.2.2.2.2.2.2 g rhs (by simp [hi])
    exact ⟨g, rhs, rfl, hstorage, hrows, hcols⟩

end ConvexQp
