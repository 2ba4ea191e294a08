import Mathlib
import ConvexQp.Proofs.Conversion
import ConvexQp.Proofs.Relaxation
/-! The constraints as the solvers take them: `A` above `G` in the storage of `P`, stacked one block
at a time without stopping, and the valid compressed columns of a matrix. -/

namespace ConvexQp

/-! ### Compressed column arrays -/

namespace Sparse

/-- Valid compressed columns: pointers rising from `0` to the number of entries, one per column and
one more; the entries between two pointers are those of one column, rows strictly increasing. -/
structure CompressedColumns (a : Sparse) : Prop where
  size_colPointers : a.colPointers.size = a.cols + 1
  colPointers_zero : a.colPointers[0]! = 0
  colPointers_le : ∀ c < a.cols, a.colPointers[c]! ≤ a.colPointers[c + 1]!
  colPointers_last : a.colPointers[a.cols]! = a.rowIndices.size
  size_values : a.values.size = a.rowIndices.size
  rowIndices_lt : ∀ k < a.rowIndices.size, a.rowIndices[k]! < a.rows
  rowIndices_increase : ∀ c < a.cols, ∀ k, a.colPointers[c]! ≤ k → k + 1 < a.colPointers[c + 1]! →
    a.rowIndices[k]! < a.rowIndices[k + 1]!
  entry_eq : ∀ c < a.cols, ∀ k, a.colPointers[c]! ≤ k → k < a.colPointers[c + 1]! →
    a.entries[k]! = ⟨a.rowIndices[k]!, c, a.values[k]!⟩

theorem colPointers_getElem! (a : Sparse) {c : Nat} (hc : c ≤ a.cols) :
    a.colPointers[c]! = (a.entries.filter (·.col < c)).length := by
  have hlt : c < a.colPointers.size := by simp [colPointers]; omega
  rw [getElem!_pos a.colPointers c hlt]
  simp [colPointers]

@[simp] theorem size_rowIndices (a : Sparse) : a.rowIndices.size = a.entries.length := by
  simp [rowIndices]

@[simp] theorem size_values (a : Sparse) : a.values.size = a.entries.length := by
  simp [values]

theorem rowIndices_getElem! (a : Sparse) {k : Nat} (hk : k < a.entries.length) :
    a.rowIndices[k]! = a.entries[k].row := by
  rw [getElem!_pos a.rowIndices k (by simpa using hk)]
  simp [rowIndices]

theorem values_getElem! (a : Sparse) {k : Nat} (hk : k < a.entries.length) :
    a.values[k]! = a.entries[k].value := by
  rw [getElem!_pos a.values k (by simpa using hk)]
  simp [values]

end Sparse

namespace Triplet

theorem col_le_of_before {s t : Triplet} (h : s.before t = true) : s.col ≤ t.col := by
  simp only [before, Bool.or_eq_true, Bool.and_eq_true, decide_eq_true_eq, beq_iff_eq] at h
  omega

end Triplet

/-- In triplets sorted by column, those left of column `c` come first: entry `k` lies left of `c`
exactly when fewer than `k + 1` do not. -/
theorem lt_length_filter_col_iff {l : List Triplet} (hl : l.Pairwise fun s t => s.col ≤ t.col)
    (c : Nat) {k : Nat} (hk : k < l.length) :
    k < (l.filter (·.col < c)).length ↔ l[k].col < c := by
  induction l generalizing k with
  | nil => simp at hk
  | cons t l ih =>
    obtain ⟨ht, hl⟩ := List.pairwise_cons.1 hl
    by_cases htc : t.col < c
    · rw [List.filter_cons_of_pos (by simpa using htc)]
      cases k with
      | zero => simpa using htc
      | succ k =>
        simp only [List.length_cons, List.getElem_cons_succ, Nat.add_lt_add_iff_right]
        exact ih hl (by simpa using hk)
    · have hnone : l.filter (·.col < c) = [] :=
        List.filter_eq_nil_iff.2 fun u hu => by
          have := ht u hu
          simp only [decide_eq_true_eq]
          omega
      rw [List.filter_cons_of_neg (by simpa using htc), hnone]
      cases k with
      | zero => simpa using htc
      | succ k =>
        have hkl : k < l.length := by simpa using hk
        have := ht l[k] (List.getElem_mem hkl)
        simp only [List.length_nil, Nat.not_lt_zero, List.getElem_cons_succ, false_iff]
        omega

namespace Sparse

variable {a : Sparse}

/-- In compressed storage, stored entry `k` lies left of column `c` exactly when `k` is below the
pointer of `c`. -/
theorem lt_colPointers_iff (ha : a.Compressed) {c k : Nat} (hc : c ≤ a.cols)
    (hk : k < a.entries.length) : k < a.colPointers[c]! ↔ a.entries[k].col < c := by
  rw [colPointers_getElem! a hc]
  exact lt_length_filter_col_iff (ha.sorted.imp Triplet.col_le_of_before) c hk

/-- The entries between the pointers of column `c` are stored entries of column `c`. -/
theorem col_of_colPointers (ha : a.Compressed) {c k : Nat} (hc : c < a.cols)
    (hlo : a.colPointers[c]! ≤ k) (hhi : k < a.colPointers[c + 1]!) :
    ∃ hk : k < a.entries.length, a.entries[k].col = c := by
  have hk : k < a.entries.length := by
    have hle : a.colPointers[c + 1]! ≤ a.entries.length := by
      rw [colPointers_getElem! a hc]
      exact List.length_filter_le _ _
    omega
  have hleft := (lt_colPointers_iff ha (Nat.le_of_lt hc) hk).not.1 (by omega)
  have hright := (lt_colPointers_iff ha hc hk).1 hhi
  exact ⟨hk, by omega⟩

theorem Compressed.compressedColumns (ha : a.Compressed) : a.CompressedColumns where
  size_colPointers := by simp [colPointers]
  colPointers_zero := by
    rw [colPointers_getElem! a (Nat.zero_le _)]
    simp
  colPointers_le c hc := by
    rw [colPointers_getElem! a (Nat.le_of_lt hc), colPointers_getElem! a hc]
    exact (List.monotone_filter_right _ fun t ht => by simp at ht ⊢; omega).length_le
  colPointers_last := by
    rw [colPointers_getElem! a le_rfl, size_rowIndices,
      List.filter_eq_self.2 fun t ht => by simpa using (ha.inside t ht).2]
  size_values := by simp
  rowIndices_lt k hk := by
    rw [size_rowIndices] at hk
    rw [rowIndices_getElem! a hk]
    exact (ha.inside _ (List.getElem_mem hk)).1
  rowIndices_increase c hc k hlo hhi := by
    obtain ⟨hk, hkc⟩ := col_of_colPointers ha hc hlo (by omega)
    obtain ⟨hk', hkc'⟩ := col_of_colPointers ha hc (by omega) hhi
    rw [rowIndices_getElem! a hk, rowIndices_getElem! a hk']
    have hbefore := List.pairwise_iff_getElem.1 ha.sorted k (k + 1) hk hk' (Nat.lt_succ_self k)
    simp only [Triplet.before, Bool.or_eq_true, Bool.and_eq_true, decide_eq_true_eq,
      beq_iff_eq] at hbefore
    omega
  entry_eq c hc k hlo hhi := by
    obtain ⟨hk, hkc⟩ := col_of_colPointers ha hc hlo hhi
    rw [getElem!_pos a.entries k hk, rowIndices_getElem! a hk, values_getElem! a hk, ← hkc]

end Sparse

/-! ### Compressed columns of a matrix -/

namespace Mat

/-- The triplets the compressed columns of a matrix are assembled from: all of them, or those on
and above the diagonal. -/
def upperPart (upper : Bool) (t : Triplet) : Bool := !upper || decide (t.row ≤ t.col)

theorem compressed_cscParts {m : Mat} (hin : ∀ t ∈ m.triplets, t.row < m.rows ∧ t.col < m.cols)
    (upper : Bool) : (m.cscParts upper).Compressed :=
  Sparse.compressed_ofTriplets fun t ht => hin t (List.mem_filter.1 ht).1

/-- The compressed columns of a matrix listing its triplets strictly in storage order store them,
or those on and above the diagonal, in that order. -/
theorem entries_cscParts {m : Mat} (hs : m.triplets.Pairwise fun s t => s.before t = true)
    (upper : Bool) : (m.cscParts upper).entries = m.triplets.filter (upperPart upper) :=
  Sparse.entries_ofTriplets_eq ((hs.filter _).imp Triplet.apart_of_before) (hs.filter _)
    (List.Perm.refl _)

/-- Stacking lists its triplets strictly in storage order: a dense stack its entries other than zero
by columns, a sparse one as assembly stores them. -/
theorem triplets_vcat_sorted (m o : Mat) :
    (m.vcat o).triplets.Pairwise fun s t => s.before t = true := by
  cases m with
  | dense a => exact Dense.nonzeros_sorted _
  | sparse a => exact Sparse.pairwise_ofTriplets _ _ _

theorem triplets_zeros_sorted (rows cols : Nat) (k : Storage) :
    (zeros rows cols k).triplets.Pairwise fun s t => s.before t = true := by
  cases k with
  | dense => exact Dense.nonzeros_sorted _
  | sparse => exact List.Pairwise.nil

theorem triplets_foldl_vcat_sorted (bs : List Mat) {g : Mat}
    (hg : g.triplets.Pairwise fun s t => s.before t = true) :
    (bs.foldl vcat g).triplets.Pairwise fun s t => s.before t = true := by
  induction bs generalizing g with
  | nil => exact hg
  | cons b bs ih => exact ih (triplets_vcat_sorted g b)

@[simp] theorem storage_foldl_vcat (bs : List Mat) (g : Mat) : (bs.foldl vcat g).storage = g.storage := by
  induction bs generalizing g with
  | nil => rfl
  | cons b bs ih => rw [List.foldl_cons, ih, storage_vcat]

@[simp] theorem cols_foldl_vcat (bs : List Mat) (g : Mat) : (bs.foldl vcat g).cols = g.cols := by
  induction bs generalizing g with
  | nil => rfl
  | cons b bs ih => rw [List.foldl_cons, ih, cols_vcat]

end Mat

/-! ### Stacks of blocks -/

/-- An empty matrix `n` wide is the stack of no blocks. -/
theorem stacks_zeros (n : Nat) (k : Storage) : Stacks [] (Mat.zeros 0 n k) where
  rows := by simp
  cols := by simp
  dense := by
    intro a ha r c hr _
    cases k with
    | dense =>
      cases ha
      simp at hr
    | sparse => cases ha
  sparse := by
    intro a ha _
    cases k with
    | dense => cases ha
    | sparse =>
      cases ha
      exact ⟨(Mat.wellFormed_zeros 0 n .sparse : Mat.WellFormed _),
        by simp [Sparse.zeros, stackedTriplets]⟩

/-- Appending blocks of its width below a stack, one after another, stacks them all. -/
theorem Stacks.foldl_vcat {blocks bs : List Mat} {g : Mat} (h : Stacks blocks g)
    (hc : ∀ b ∈ bs, b.cols = g.cols) : Stacks (blocks ++ bs) (bs.foldl Mat.vcat g) := by
  induction bs generalizing blocks g with
  | nil => simpa using h
  | cons b bs ih =>
    rw [List.foldl_cons, ← List.singleton_append, ← List.append_assoc]
    apply ih (h.vcat (hc b (List.mem_cons_self ..)))
    intro b' hb'
    rw [Mat.cols_vcat]
    exact hc b' (List.mem_cons_of_mem _ hb')

theorem Stacks.wellFormed {blocks : List Mat} {g : Mat} (h : Stacks blocks g)
    (hw : ∀ b ∈ blocks, b.WellFormed) : g.WellFormed := by
  cases g with
  | dense a => trivial
  | sparse a => exact (h.sparse a rfl hw).1

/-! ### The stacked constraints of a normal form -/

namespace Normalized

variable {d : Normalized}

/-- The blocks of the constraints, top to bottom: `A`, then `G`, as far as they are present. -/
def constraintBlocks (d : Normalized) : List Mat :=
  (d.eq.map (·.1)).toList ++ (d.ineq.map (·.1)).toList

/-- The blocks appended one by one below an empty matrix `n` wide in the storage of `P`. -/
def stacked (d : Normalized) : Mat :=
  d.constraintBlocks.foldl Mat.vcat (Mat.zeros 0 d.dim d.quad.storage)

/-- What normalizing promises of each block of constraints: it is as wide as there are variables
and has one row per value of its right-hand side. -/
structure Shaped (d : Normalized) : Prop where
  eq : ∀ a b, d.eq = some (a, b) → a.rows = b.size ∧ a.cols = d.dim
  ineq : ∀ g h, d.ineq = some (g, h) → g.rows = h.size ∧ g.cols = d.dim

theorem Shaped.cols_constraintBlocks (hd : d.Shaped) : ∀ b ∈ d.constraintBlocks, b.cols = d.dim := by
  intro b hb
  simp only [constraintBlocks, List.mem_append, Option.mem_toList, Option.map_eq_some_iff] at hb
  rcases hb with ⟨⟨a, rhs⟩, heq, rfl⟩ | ⟨⟨g, rhs⟩, hineq, rfl⟩
  · exact (hd.eq a rhs heq).2
  · exact (hd.ineq g rhs hineq).2

theorem eqRows_of_eq {a : Mat} {b : Array Float} (h : d.eq = some (a, b)) : d.eqRows = b.size := by
  simp [eqRows, h]

theorem ineqRows_of_ineq {g : Mat} {h : Array Float} (hg : d.ineq = some (g, h)) :
    d.ineqRows = h.size := by
  simp [ineqRows, hg]

/-- A block that has one row per value of its right-hand side adds that many rows. -/
theorem sum_rows_block {o : Option (Mat × Array Float)}
    (h : ∀ a b, o = some (a, b) → a.rows = b.size) :
    ((o.map (·.1)).toList.map Mat.rows).sum = (o.map (·.2.size)).getD 0 := by
  cases o with
  | none => rfl
  | some ab => simp [h ab.1 ab.2 rfl]

theorem Shaped.sum_rows (hd : d.Shaped) :
    (d.constraintBlocks.map Mat.rows).sum = d.eqRows + d.ineqRows := by
  rw [constraintBlocks, List.map_append, List.sum_append,
    sum_rows_block fun a b h => (hd.eq a b h).1, sum_rows_block fun g h hg => (hd.ineq g h hg).1]
  rfl

/-- Every block of a shaped normal form is as wide as the stack above it, so stacking never stops. -/
theorem Shaped.stackConstraints_eq (hd : d.Shaped) :
    d.stackConstraints =
      some (d.stacked, (d.eq.map (·.2)).getD #[] ++ (d.ineq.map (·.2)).getD #[], d.eqRows, d.ineqRows) := by
  obtain ⟨quad, lin, ineq, eq⟩ := d
  rcases eq with _ | ⟨a, b⟩ <;> rcases ineq with _ | ⟨g, h⟩
  · rfl
  · have hg : (Mat.zeros 0 lin.size quad.storage).cols = g.cols := by simp [(hd.ineq g h rfl).2, dim]
    simp [stackConstraints, stacked, constraintBlocks, dim, Mat.vcat?_of_cols_eq hg]
  · have ha : (Mat.zeros 0 lin.size quad.storage).cols = a.cols := by simp [(hd.eq a b rfl).2, dim]
    simp [stackConstraints, stacked, constraintBlocks, dim, Mat.vcat?_of_cols_eq ha]
  · have ha : (Mat.zeros 0 lin.size quad.storage).cols = a.cols := by simp [(hd.eq a b rfl).2, dim]
    have hg : ((Mat.zeros 0 lin.size quad.storage).vcat a).cols = g.cols := by
      simp [(hd.ineq g h rfl).2, dim]
    simp [stackConstraints, stacked, constraintBlocks, dim, Mat.vcat?_of_cols_eq ha,
      Mat.vcat?_of_cols_eq hg]

theorem Shaped.stacks (hd : d.Shaped) : Stacks d.constraintBlocks d.stacked := by
  simpa [stacked] using
    (stacks_zeros d.dim d.quad.storage).foldl_vcat (by simpa using hd.cols_constraintBlocks)

@[simp] theorem storage_stacked (d : Normalized) : d.stacked.storage = d.quad.storage := by
  simp [stacked]

@[simp] theorem cols_stacked (d : Normalized) : d.stacked.cols = d.dim := by
  simp [stacked]

theorem triplets_stacked_sorted (d : Normalized) :
    d.stacked.triplets.Pairwise fun s t => s.before t = true :=
  Mat.triplets_foldl_vcat_sorted _ (Mat.triplets_zeros_sorted _ _ _)

theorem size_stacked_rhs (d : Normalized) :
    ((d.eq.map (·.2)).getD #[] ++ (d.ineq.map (·.2)).getD #[]).size = d.eqRows + d.ineqRows := by
  obtain ⟨quad, lin, ineq, eq⟩ := d
  rcases eq with _ | ⟨a, b⟩ <;> rcases ineq with _ | ⟨g, h⟩ <;> simp [eqRows, ineqRows]

end Normalized

/-! ### What normalizing promises -/

@[simp] theorem rows_boundBlock (n : Nat) (k : Storage) (sign : Float) :
    (boundBlock n k sign).rows = n := by
  simp [boundBlock]

theorem constraintBlock_eq_some {l : Option Lhs} {rhs : Option (Array Float)} {k : Storage} {a : Mat}
    {b : Array Float} (h : constraintBlock l rhs k = some (a, b)) :
    ∃ g, l = some g ∧ rhs = some b ∧ a = g.toMat k := by
  cases l with
  | none => simp [constraintBlock] at h
  | some g =>
    cases rhs with
    | none => simp [constraintBlock] at h
    | some b' =>
      simp only [constraintBlock, Option.some.injEq, Prod.mk.injEq] at h
      obtain ⟨rfl, rfl⟩ := h
      exact ⟨g, rfl, rfl, rfl⟩

namespace Problem

variable {p : Problem} {s : Bool} {d : Normalized}

theorem sum_map_toList {α : Type} (o : Option α) (g : α → Nat) :
    (o.toList.map g).sum = (o.map g).getD 0 := by
  cases o <;> simp

/-- A bound of length `n`, if given, is as long as the rows its block adds. -/
theorem getD_map_bound {v : Option (Array Float)} {n : Nat} (h : ∀ x, v = some x → x.size = n) :
    (v.map fun _ => n).getD 0 = (v.getD #[]).size := by
  cases v with
  | none => rfl
  | some x => simp [h x rfl]

theorem valid_of_normalize (h : p.normalize s = some (.ok d)) : p.Valid := by
  rcases p.normalize_cases s with ⟨_, -, hn⟩ | ⟨hd, -⟩
  · rw [hn] at h
    cases h
  · exact (firstDefect_eq_none_iff p).1 hd

/-- The folded inequalities have one row per value of their right-hand side. -/
theorem sum_rows_ineqBlocks (hv : p.Valid) : (p.ineqBlocks.map Mat.rows).sum = p.ineqRhsFolded.size := by
  have hG : (p.ineqLhs.map Lhs.rows).getD 0 = (p.ineqRhs.getD #[]).size := by
    have hpair := hv.ineq_paired
    cases hl : p.ineqLhs with
    | none =>
      have hr : p.ineqRhs = none := by simpa [hl] using hpair.symm
      simp [hr]
    | some g =>
      obtain ⟨rhs, hr⟩ :=
        Option.isSome_iff_exists.1 (show p.ineqRhs.isSome by simpa [hl] using hpair.symm)
      simp [hr, (hv.ineq_size g rhs hl hr).1]
  have hlb := getD_map_bound hv.lower_size
  have hub := getD_map_bound hv.upper_size
  simp only [ineqBlocks, ineqRhsFolded, List.map_append, List.sum_append, sum_map_toList,
    Option.map_map, Function.comp_def, Lhs.rows_toMat, rows_boundBlock, Array.size_append,
    Array.size_map]
  rw [← hG, ← hlb, ← hub]

/-- A normal form is shaped: `A` is `len b × n`, and the folded `G` is `len h × n`. -/
theorem shaped_of_normalize (h : p.normalize s = some (.ok d)) : d.Shaped := by
  have hv := valid_of_normalize h
  obtain ⟨ineq, hn, hf⟩ := normalize_of_valid hv s
  rw [hn] at h
  cases h
  constructor
  · intro a b heq
    obtain ⟨l, hl, hb, rfl⟩ := constraintBlock_eq_some heq
    simpa [Normalized.dim, Problem.dim] using hv.eq_size l b hl hb
  · intro g rhs hineq
    subst hineq
    obtain ⟨hrhs, hcols, -, hst⟩ := hf
    refine ⟨?_, hcols⟩
    rw [hst.rows, sum_rows_ineqBlocks hv, hrhs]

/-- The blocks of a normal form are well formed when a sparse `G` and `A` given as matrices are. -/
theorem constraintBlocks_wellFormed (h : p.normalize s = some (.ok d))
    (hG : ∀ m, p.ineqLhs = some (.matrix m) → m.WellFormed)
    (hA : ∀ m, p.eqLhs = some (.matrix m) → m.WellFormed) :
    ∀ b ∈ d.constraintBlocks, b.WellFormed := by
  have hv := valid_of_normalize h
  obtain ⟨ineq, hn, hf⟩ := normalize_of_valid hv s
  rw [hn] at h
  cases h
  intro b hb
  simp only [Normalized.constraintBlocks, List.mem_append, Option.mem_toList,
    Option.map_eq_some_iff] at hb
  rcases hb with ⟨⟨a, rhs⟩, heq, rfl⟩ | ⟨⟨g, rhs⟩, hineq, rfl⟩
  · obtain ⟨l, hl, -, rfl⟩ := constraintBlock_eq_some heq
    have hlw : l.WellFormed := by
      cases l with
      | matrix m => exact hA m hl
      | row xs => trivial
    exact hlw.toMat _
  · subst hineq
    exact hf.2.2.2.wellFormed (wellFormed_ineqBlocks hG)

end Problem

/-- The constraints handed to the solvers: for the normal form of a problem whose matrices are well
formed, stacking never stops, and gives `[A; G]` in the storage of `P` with `rhs = b ++ h`, the
equality rows first, as both methods read them, and valid compressed columns. -/
theorem stacked_constraints_equalities_first {p : Problem} {s : Bool} {d : Normalized}
    (h : p.normalize s = some (.ok d))
    (hG : ∀ m, p.ineqLhs = some (.matrix m) → m.WellFormed)
    (hA : ∀ m, p.eqLhs = some (.matrix m) → m.WellFormed) :
    ∃ M rhs, d.stackConstraints = some (M, rhs, d.eqRows, d.ineqRows) ∧
    (∀ b ∈ d.constraintBlocks, b.cols = d.dim) ∧
    M.storage = d.quad.storage ∧ M.rows = d.eqRows + d.ineqRows ∧ M.cols = d.dim ∧
    (∀ a b, d.eq = some (a, b) → a.rows = d.eqRows) ∧
    (∀ g h, d.ineq = some (g, h) → g.rows = d.ineqRows) ∧
    (∀ a, M = .dense a → ∀ r c, r < a.rows → c < a.cols →
      a.entry r c = stackedEntry (d.constraintBlocks.map Mat.toDense) r c) ∧
    (∀ a, M = .sparse a → a.entries.Perm (stackedTriplets d.constraintBlocks 0)) ∧
    rhs = (d.eq.map (·.2)).getD #[] ++ (d.ineq.map (·.2)).getD #[] ∧
    rhs.size = d.eqRows + d.ineqRows ∧
    (∃ ip, Engine.interiorPointData d = some ip ∧ ip.eqCount = d.eqRows ∧ ip.rhs = rhs) ∧
    (∀ reg, ∃ prog, Engine.activeSetProgram d reg = some prog ∧ prog.eqCount = d.eqRows) ∧
    ∀ upper, (M.cscParts upper).CompressedColumns ∧
      (M.cscParts upper).entries = M.triplets.filter (Mat.upperPart upper) := by
  have hd := Problem.shaped_of_normalize h
  have hst := hd.stacks
  have hw := Problem.constraintBlocks_wellFormed h hG hA
  have hMw : d.stacked.WellFormed := hst.wellFormed hw
  have hstack := hd.stackConstraints_eq
  refine ⟨d.stacked, _, hstack, hd.cols_constraintBlocks, d.storage_stacked, ?_, d.cols_stacked,
    fun a b heq => ?_, fun g h hineq => ?_, hst.dense, fun a ha => (hst.sparse a ha hw).2, rfl,
    d.size_stacked_rhs, ⟨_, by rw [Engine.interiorPointData, hstack]; rfl, rfl, rfl⟩,
    fun reg => ⟨_, by rw [Engine.activeSetProgram, hstack]; rfl, rfl⟩, fun upper => ⟨?_, ?_⟩⟩
  · rw [hst.rows, hd.sum_rows]
  · rw [Normalized.eqRows_of_eq heq, (hd.eq a b heq).1]
  · rw [Normalized.ineqRows_of_ineq hineq, (hd.ineq g h hineq).1]
  · exact (Mat.compressed_cscParts hMw.inside upper).compressedColumns
  · exact Mat.entries_cscParts d.triplets_stacked_sorted upper

/-- An identity `P` with a row of inequalities, a row of equalities and an upper bound: one equality
row over three inequality rows, two wide, with valid compressed columns. -/
theorem stacked_constraints_equalities_first_at_box :
    let p : Problem := { quad := .dense (Dense.identity 2), lin := #[0.0, 0.0],
                         ineqLhs := some (.row #[1.0, 1.0]), ineqRhs := some #[3.0],
                         eqLhs := some (.row #[1.0, -1.0]), eqRhs := some #[0.0],
                         upper := some #[2.0, 2.0] }
    ∃ d, p.normalize false = some (.ok d) ∧ ∃ M rhs, d.stackConstraints = some (M, rhs, 1, 3) ∧
      M.rows = 4 ∧ M.cols = 2 ∧ rhs.size = 4 ∧ (M.cscParts false).CompressedColumns := by
  intro p
  have hv : p.Valid := (Problem.firstDefect_eq_none_iff p).1 (by decide)
  obtain ⟨ineq, hn, hf⟩ := Problem.normalize_of_valid hv false
  have hineq : (ineq.map (·.2.size)).getD 0 = 3 := by
    cases ineq with
    | none => simp [Folded, Problem.ineqBlocks, p] at hf
    | some gh =>
      obtain ⟨hrhs, -⟩ := hf
      simp [hrhs, Problem.ineqRhsFolded, p]
  generalize hd : (⟨p.quadFor false, p.lin, ineq, constraintBlock p.eqLhs p.eqRhs p.quad.storage⟩ :
    Normalized) = d at hn
  have heqRows : d.eqRows = 1 := by
    subst hd
    rfl
  have hineqRows : d.ineqRows = 3 := by
    subst hd
    exact hineq
  have hdim : d.dim = 2 := by
    subst hd
    rfl
  obtain ⟨M, rhs, hstack, -, -, hrows, hcols, -, -, -, -, -, hsize, -, -, hcsc⟩ :=
    stacked_constraints_equalities_first hn (by simp [p]) (by simp [p])
  rw [heqRows, hineqRows] at hstack hrows hsize
  exact ⟨d, hn, M, rhs, hstack, hrows, hcols.trans hdim, hsize, (hcsc false).1⟩

end ConvexQp
