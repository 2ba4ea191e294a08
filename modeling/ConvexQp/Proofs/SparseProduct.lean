import Mathlib
import ConvexQp.Problem.Basic
import ConvexQp.Proofs.Entries
/-! The product of a sparse matrix and a vector against that of its dense copy: they agree in every
row that stores each column where the vector is not finite, so everywhere for a finite vector. -/

namespace ConvexQp

/-- The running sum `acc + e c * x c` over the columns `cs`, from the left. -/
def rowSum (e x : Nat → Float) (cs : List Nat) (acc : Float) : Float :=
  cs.foldl (fun acc c => acc + e c * x c) acc

namespace Float

/-- Adding `(0.0 + v) * x` to a running sum other than `-0.0` adds `v * x`. The two factors differ
only for `v = -0.0`; then both products are zeros, which leave the sum as it is, or both `NaN`. -/
theorem add_posZero_add_mul {a : Float} (ha : a ≠ -0.0) (v x : Float) :
    a + (0.0 + v) * x = a + v * x := by
  by_cases hv : v = -0.0
  · subst hv
    rw [show (0.0 : Float) + -0.0 = 0.0 by decide]
    cases hx : x.isFinite with
    | false => rw [zero_mul_of_not_finite (.inl rfl) hx, zero_mul_of_not_finite (.inr rfl) hx]
    | true =>
      rw [add_zero_of_ne_negZero ha (zero_mul_isZero (.inl rfl) hx),
        add_zero_of_ne_negZero ha (zero_mul_isZero (.inr rfl) hx)]
  · rw [posZero_add hv]

end Float

/-- A row summed over every column, with `0.0 + e c` for each entry, is the row summed over the
stored columns only, from any start other than `-0.0`, when each column not stored holds `0.0` and
meets a finite value. -/
theorem rowSum_eq_rowSum_filter (stored : Nat → Bool) (e x : Nat → Float) (cs : List Nat)
    {a : Float} (ha : a ≠ -0.0)
    (hzero : ∀ c ∈ cs, stored c = false → e c = 0.0 ∧ (x c).isFinite = true) :
    rowSum (fun c => 0.0 + e c) x cs a = rowSum e x (cs.filter stored) a := by
  induction cs generalizing a with
  | nil => simp only [rowSum, List.filter_nil, List.foldl_nil]
  | cons c cs ih =>
    have hrest : ∀ c ∈ cs, stored c = false → e c = 0.0 ∧ (x c).isFinite = true :=
      fun c' hc' => hzero c' (List.mem_cons_of_mem c hc')
    cases hs : stored c with
    | true =>
      rw [List.filter_cons_of_pos hs]
      simp only [rowSum, List.foldl_cons, Float.add_posZero_add_mul ha]
      exact ih (Float.add_ne_negZero ha _) hrest
    | false =>
      obtain ⟨he, hx⟩ := hzero c List.mem_cons_self hs
      have hterm : a + (0.0 + e c) * x c = a := by
        rw [he, show (0.0 : Float) + 0.0 = 0.0 by decide]
        exact Float.add_zero_of_ne_negZero ha (Float.zero_mul_isZero (.inl rfl) hx)
      rw [List.filter_cons_of_neg (by simp [hs])]
      simp only [rowSum, List.foldl_cons, hterm]
      exact ih ha hrest

namespace Triplet

theorem apart_of_before {s t : Triplet} (h : s.before t = true) : Apart s t := by
  simp only [before, Bool.or_eq_true, Bool.and_eq_true, decide_eq_true_eq, beq_iff_eq] at h
  rcases h with hc | ⟨-, hr⟩
  · exact apart_of_col_ne (Nat.ne_of_lt hc)
  · exact apart_of_row_ne (Nat.ne_of_lt hr)

end Triplet

namespace Sparse

/-- Compressed column storage: every stored entry lies inside the matrix, and the entries stand
strictly in storage order, by column and then by row. -/
structure Compressed (a : Sparse) : Prop where
  inside : ∀ t ∈ a.entries, t.row < a.rows ∧ t.col < a.cols
  sorted : a.entries.Pairwise fun s t => s.before t = true

theorem Compressed.wellFormed {a : Sparse} (ha : a.Compressed) : a.WellFormed where
  inside := ha.inside
  distinct := ha.sorted.imp Triplet.apart_of_before

/-- The stored entries of row `r`, in storage order. -/
def rowEntries (a : Sparse) (r : Nat) : List Triplet := a.entries.filter fun t => t.row == r

/-- Value `r` of a vector after each triplet adds its product into the value of its row: the
products of the triplets of row `r` added, in order, to the value before. -/
theorem getD_foldl_modify (x : Array Float) (ts : List Triplet) {y : Array Float} {r : Nat}
    (hr : r < y.size) :
    (ts.foldl (fun y t => y.modify t.row (· + t.value * x.getD t.col 0.0)) y).getD r 0.0 =
      (ts.filter fun t => t.row == r).foldl (fun acc t => acc + t.value * x.getD t.col 0.0)
        (y.getD r 0.0) := by
  induction ts generalizing y with
  | nil => rfl
  | cons t ts ih =>
    rw [List.foldl_cons, ih (by simpa using hr)]
    by_cases ht : t.row = r
    · rw [List.filter_cons_of_pos (by simpa using ht), List.foldl_cons]
      simp [Array.getElem_modify_self, ht, hr]
    · rw [List.filter_cons_of_neg (by simpa using ht), Array.getD_eq_getD_getElem?,
        Array.getElem?_modify, if_neg ht, ← Array.getD_eq_getD_getElem?]

/-- Row `r` of the product: the stored entries of the row, each times its value of `x`, added in
storage order from `0.0`. -/
theorem getD_mulVec (a : Sparse) (x : Array Float) {r : Nat} (hr : r < a.rows) :
    (a.mulVec x).getD r 0.0 =
      (a.rowEntries r).foldl (fun acc t => acc + t.value * x.getD t.col 0.0) 0.0 := by
  rw [mulVec, getD_foldl_modify x a.entries (by simpa using hr)]
  simp [rowEntries, hr]

/-- In compressed storage the entries of a row stand at the columns it stores, in increasing
order. -/
theorem cols_rowEntries {a : Sparse} (ha : a.Compressed) (r : Nat) :
    (a.rowEntries r).map (·.col) = (List.range a.cols).filter fun c => a.stores r c := by
  apply List.Pairwise.eq_of_mem_iff (r := (· < ·))
  · rw [List.pairwise_map]
    refine (ha.sorted.filter _).imp_of_mem fun {s t} hs ht hst => ?_
    have hsr : s.row = r := by simpa [rowEntries] using (List.mem_filter.1 hs).2
    have htr : t.row = r := by simpa [rowEntries] using (List.mem_filter.1 ht).2
    simp only [Triplet.before, Bool.or_eq_true, Bool.and_eq_true, decide_eq_true_eq,
      beq_iff_eq] at hst
    omega
  · exact List.pairwise_lt_range.filter _
  · intro c
    simp only [List.mem_map, rowEntries, List.mem_filter, beq_iff_eq, List.mem_range, stores,
      storesAt_iff]
    constructor
    · rintro ⟨t, ⟨ht, rfl⟩, rfl⟩
      exact ⟨(ha.inside t ht).2, t, ht, rfl, rfl⟩
    · rintro ⟨-, t, ht, rfl, rfl⟩
      exact ⟨t, ⟨ht, rfl⟩, rfl⟩

theorem value_of_mem_rowEntries {a : Sparse} (ha : a.WellFormed) {r : Nat} {t : Triplet}
    (ht : t ∈ a.rowEntries r) : t.value = a.entry r t.col := by
  obtain ⟨ht, hrow⟩ := List.mem_filter.1 ht
  rw [← beq_iff_eq.1 hrow]
  exact (valueAt_of_mem ha.distinct ht).symm

/-- Row `r` of the product of a compressed matrix, summed over the columns the row stores. -/
theorem getD_mulVec_eq_rowSum {a : Sparse} (ha : a.Compressed) (x : Array Float) {r : Nat}
    (hr : r < a.rows) :
    (a.mulVec x).getD r 0.0 =
      rowSum (a.entry r) (x.getD · 0.0) ((List.range a.cols).filter fun c => a.stores r c) 0.0 := by
  rw [getD_mulVec a x hr, ← cols_rowEntries ha r, rowSum, List.foldl_map]
  exact List.foldl_ext _ _ _ fun acc t ht => by rw [value_of_mem_rowEntries ha.wellFormed ht]

end Sparse

/-- Row `r` of the product of a dense matrix: every column, in increasing order, from `0.0`. -/
theorem Dense.getD_mulVec (a : Dense) (x : Array Float) {r : Nat} (hr : r < a.rows) :
    (a.mulVec x).getD r 0.0 = rowSum (a.entry r) (x.getD · 0.0) (List.range a.cols) 0.0 := by
  simp [mulVec, rowSum, hr]

/-- Row `r` of the product of the dense copy, summed over every column with `0.0 + v` for each
entry `v`. -/
theorem Sparse.getD_toDense_mulVec {a : Sparse} (ha : a.WellFormed) (x : Array Float) {r : Nat}
    (hr : r < a.rows) :
    (a.toDense.mulVec x).getD r 0.0 =
      rowSum (fun c => 0.0 + a.entry r c) (x.getD · 0.0) (List.range a.cols) 0.0 := by
  rw [Dense.getD_mulVec _ x (by simpa using hr), cols_toDense, rowSum, rowSum]
  exact List.foldl_ext _ _ _ fun acc c hc => by
    rw [entry_toDense ha hr (List.mem_range.1 hc)]

/-- Row `r` of the product of a compressed matrix and of its dense copy agree when `x` is finite at
every column the row does not store. -/
theorem Sparse.getD_mulVec_toDense {a : Sparse} (ha : a.Compressed) (x : Array Float) {r : Nat}
    (hr : r < a.rows) (hfin : ∀ c < a.cols, a.stores r c = false → (x.getD c 0.0).isFinite = true) :
    (a.mulVec x).getD r 0.0 = (a.toDense.mulVec x).getD r 0.0 := by
  have hzero : ∀ c ∈ List.range a.cols, a.stores r c = false →
      a.entry r c = 0.0 ∧ (x.getD c 0.0).isFinite = true := fun c hc hs =>
    ⟨entry_of_stores_eq_false hs, hfin c (List.mem_range.1 hc) hs⟩
  calc (a.mulVec x).getD r 0.0
      = rowSum (a.entry r) (x.getD · 0.0) ((List.range a.cols).filter fun c => a.stores r c) 0.0 :=
        getD_mulVec_eq_rowSum ha x hr
    _ = rowSum (fun c => 0.0 + a.entry r c) (x.getD · 0.0) (List.range a.cols) 0.0 :=
        (rowSum_eq_rowSum_filter _ _ _ _ (by decide) hzero).symm
    _ = (a.toDense.mulVec x).getD r 0.0 := (getD_toDense_mulVec ha.wellFormed x hr).symm

theorem isFinite_getD {x : Array Float} (hfin : ∀ c < x.size, (x.getD c 0.0).isFinite = true)
    (c : Nat) : (x.getD c 0.0).isFinite = true := by
  by_cases hc : c < x.size
  · exact hfin c hc
  · rw [Array.getD_eq_getD_getElem?, Array.getElem?_eq_none (Nat.le_of_not_lt hc)]
    decide

/-- With a finite `x`, the product of a compressed matrix is the product of its dense copy. -/
theorem Sparse.mulVec_toDense {a : Sparse} (ha : a.Compressed) {x : Array Float}
    (hfin : ∀ c < x.size, (x.getD c 0.0).isFinite = true) : a.mulVec x = a.toDense.mulVec x := by
  refine Array.ext (by simp) fun r hs hd => ?_
  have hr : r < a.rows := by simpa using hs
  have hrow := getD_mulVec_toDense ha x hr fun c _ _ => isFinite_getD hfin c
  rw [Array.getD_eq_getD_getElem?, Array.getD_eq_getD_getElem?, Array.getElem?_eq_getElem hs,
    Array.getElem?_eq_getElem hd, Option.getD_some, Option.getD_some] at hrow
  exact hrow

namespace Problem

/-- The objective depends on `P` only through its width and its products. -/
theorem objective?_of_mulVec_eq (p : Problem) {m o : Mat} (hcols : m.cols = o.cols) {x : Array Float}
    (h : m.mulVec x = o.mulVec x) :
    { p with quad := m }.objective? x = { p with quad := o }.objective? x := by
  simp [objective?, Mat.mulVec?, hcols, h]

end Problem

/-- The product of a compressed sparse matrix and that of its dense copy agree in every row that
stores each column where `x` is not finite. With a finite `x` they agree everywhere, and so do the
objectives of a problem with the sparse matrix or its dense copy as `P`. -/
theorem sparse_product_matches_dense (a : Sparse) (ha : a.Compressed) (x : Array Float) :
    (∀ r < a.rows, (∀ c < a.cols, a.stores r c = false → (x.getD c 0.0).isFinite = true) →
      ((Mat.sparse a).mulVec x).getD r 0.0 = ((Mat.dense a.toDense).mulVec x).getD r 0.0) ∧
    ((∀ c < x.size, (x.getD c 0.0).isFinite = true) →
      (Mat.sparse a).mulVec x = (Mat.dense a.toDense).mulVec x ∧
      ∀ p : Problem,
        { p with quad := .sparse a }.objective? x = { p with quad := .dense a.toDense }.objective? x) := by
  refine ⟨fun r hr hfin => Sparse.getD_mulVec_toDense ha x hr hfin, fun hfin => ?_⟩
  have hprod : (Mat.sparse a).mulVec x = (Mat.dense a.toDense).mulVec x :=
    Sparse.mulVec_toDense ha hfin
  exact ⟨hprod, fun p => p.objective?_of_mulVec_eq (by simp) hprod⟩

/-- A `2 × 2` matrix whose first row stores nothing in column `1`: with `x = (1, ∞)` only the second
rows of the two products agree, with `x = (1, -2)` the whole products do. -/
theorem sparse_product_matches_dense_at_two :
    let a : Sparse := ⟨2, 2, [⟨0, 0, 2.0⟩, ⟨1, 0, -0.0⟩, ⟨1, 1, 3.0⟩]⟩
    a.Compressed ∧
    ((Mat.sparse a).mulVec #[1.0, Float.inf]).getD 1 0.0 =
      ((Mat.dense a.toDense).mulVec #[1.0, Float.inf]).getD 1 0.0 ∧
    ((Mat.sparse a).mulVec #[1.0, Float.inf]).getD 0 0.0 ≠
      ((Mat.dense a.toDense).mulVec #[1.0, Float.inf]).getD 0 0.0 ∧
    (Mat.sparse a).mulVec #[1.0, -2.0] = (Mat.dense a.toDense).mulVec #[1.0, -2.0] := by
  intro a
  have ha : a.Compressed := ⟨by decide, by decide⟩
  have hinf := sparse_product_matches_dense a ha #[1.0, Float.inf]
  have hfinite := sparse_product_matches_dense a ha #[1.0, -2.0]
  exact ⟨ha, hinf.1 1 (by decide) (by decide), by decide, (hfinite.2 (by decide)).1⟩

end ConvexQp
