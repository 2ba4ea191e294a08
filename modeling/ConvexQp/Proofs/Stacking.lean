import Mathlib
import ConvexQp.Proofs.SparseAssembly
/-! Stacking matrices one above the other: `Stacks blocks g` reads `g` as the blocks stacked, by
entries if dense and by moved triplets if sparse, and appending a block of the same width keeps it.
-/

namespace ConvexQp

namespace Dense

theorem entry_vcat {a b : Dense} {r c : Nat} (hr : r < a.rows + b.rows) (hc : c < a.cols) :
    (a.vcat b).entry r c = if r < a.rows then a.entry r c else b.entry (r - a.rows) c :=
  entry_ofFn _ hr hc

end Dense

namespace Triplet

@[simp] theorem shift_zero : Triplet.shift 0 0 = id := rfl

theorem shift_apart {s t : Triplet} (dr dc : Nat) (h : Apart s t) :
    Apart (s.shift dr dc) (t.shift dr dc) := by
  simp only [Apart, samePosition, shift] at h ⊢
  simpa using h

end Triplet

theorem distinct_map_shift {ts : List Triplet} (dr dc : Nat) (hd : Distinct ts) :
    Distinct (ts.map (Triplet.shift dr dc)) := by
  unfold Distinct at *
  rw [List.pairwise_map]
  exact hd.imp (Triplet.shift_apart dr dc)

namespace Mat

/-- A matrix whose triplets lie inside it at pairwise different positions: every dense matrix, whose
triplets are its entries other than zero, and a well-formed sparse one. -/
def WellFormed : Mat → Prop
  | .dense _ => True
  | .sparse a => a.WellFormed

theorem WellFormed.distinct {m : Mat} (h : m.WellFormed) : Distinct m.triplets := by
  cases m with
  | dense a => exact Dense.distinct_nonzeros a
  | sparse a => exact (show a.WellFormed from h).distinct

theorem WellFormed.inside {m : Mat} (h : m.WellFormed) :
    ∀ t ∈ m.triplets, t.row < m.rows ∧ t.col < m.cols := by
  cases m with
  | dense a => exact fun _ ht => Dense.mem_nonzeros ht
  | sparse a => exact (show a.WellFormed from h).inside

theorem wellFormed_identity (n : Nat) (s : Storage) : (identity n s).WellFormed := by
  cases s with
  | dense => trivial
  | sparse => exact Sparse.wellFormed_identity n

theorem WellFormed.scale {m : Mat} (alpha : Float) (h : m.WellFormed) : (m.scale alpha).WellFormed := by
  cases m with
  | dense a => trivial
  | sparse a => exact Sparse.wellFormed_scale alpha h

theorem wellFormed_toStorage_dense (a : Dense) (s : Storage) :
    ((Mat.dense a).toStorage s).WellFormed := by
  cases s with
  | dense => trivial
  | sparse => exact Dense.wellFormed_toSparse a

theorem vcat_dense (a : Dense) (o : Mat) : (Mat.dense a).vcat o = .dense (a.vcat o.toDense) := rfl

theorem vcat_sparse (a : Sparse) (o : Mat) :
    (Mat.sparse a).vcat o =
      .sparse (Sparse.ofTriplets (a.rows + o.rows) a.cols
        (a.entries ++ o.triplets.map (Triplet.shift a.rows 0))) := rfl

/-- Stacking a well-formed sparse matrix above a well-formed matrix of its width stores the entries
of both, the lower ones moved down, and nothing else; the result is well formed. -/
theorem vcat_sparse_perm {a : Sparse} {o : Mat} (ha : a.WellFormed) (ho : o.WellFormed)
    (hc : o.cols = a.cols) :
    ∃ s, (Mat.sparse a).vcat o = .sparse s ∧ s.WellFormed ∧
      s.entries.Perm (a.entries ++ o.triplets.map (Triplet.shift a.rows 0)) := by
  have hd : Distinct (a.entries ++ o.triplets.map (Triplet.shift a.rows 0)) := by
    unfold Distinct
    rw [List.pairwise_append]
    refine ⟨ha.distinct, distinct_map_shift a.rows 0 ho.distinct, ?_⟩
    intro s hs t ht
    obtain ⟨u, _, rfl⟩ := List.mem_map.1 ht
    have hrow := (ha.inside s hs).1
    exact Triplet.apart_of_row_ne (by simp [Triplet.shift]; omega)
  have hin : ∀ t ∈ a.entries ++ o.triplets.map (Triplet.shift a.rows 0),
      t.row < a.rows + o.rows ∧ t.col < a.cols := by
    intro t ht
    rcases List.mem_append.1 ht with ht | ht
    · have := ha.inside t ht
      omega
    · obtain ⟨u, hu, rfl⟩ := List.mem_map.1 ht
      have := ho.inside u hu
      simp only [Triplet.shift]
      omega
  exact ⟨_, vcat_sparse a o, Sparse.wellFormed_ofTriplets hd hin, Sparse.entries_ofTriplets_perm hd⟩

end Mat

/-- The entry in row `r` and column `c` of dense blocks stacked top to bottom. -/
def stackedEntry : List Dense → Nat → Nat → Float
  | [], _, _ => 0.0
  | b :: bs, r, c => if r < b.rows then b.entry r c else stackedEntry bs (r - b.rows) c

theorem stackedEntry_append (bs : List Dense) (b : Dense) {r : Nat} (c : Nat)
    (hr : r < (bs.map Dense.rows).sum + b.rows) :
    stackedEntry (bs ++ [b]) r c =
      if r < (bs.map Dense.rows).sum then stackedEntry bs r c
      else b.entry (r - (bs.map Dense.rows).sum) c := by
  induction bs generalizing r with
  | nil => simp_all [stackedEntry]
  | cons x bs ih =>
    simp only [List.map_cons, List.sum_cons] at hr ⊢
    simp only [List.cons_append, stackedEntry]
    by_cases hx : r < x.rows
    · simp [hx, show r < x.rows + (bs.map Dense.rows).sum by omega]
    · rw [if_neg hx, if_neg hx, ih (by omega), Nat.sub_sub]
      simp only [Nat.sub_lt_iff_lt_add (Nat.le_of_not_lt hx), Nat.add_comm]

/-- The triplets of blocks stacked top to bottom from row `top`, each block's moved down by the rows
above it. -/
def stackedTriplets : List Mat → Nat → List Triplet
  | [], _ => []
  | m :: ms, top => m.triplets.map (Triplet.shift top 0) ++ stackedTriplets ms (top + m.rows)

theorem stackedTriplets_append (ms : List Mat) (m : Mat) (top : Nat) :
    stackedTriplets (ms ++ [m]) top =
      stackedTriplets ms top ++ m.triplets.map (Triplet.shift (top + (ms.map Mat.rows).sum) 0) := by
  induction ms generalizing top with
  | nil => simp [stackedTriplets]
  | cons x ms ih => simp [stackedTriplets, ih, Nat.add_assoc]

/-- `g` is the blocks stacked top to bottom, all of the width of `g`: as many rows as they have
together; if dense, each entry is the entry of the block that holds its row; if sparse and the blocks
are well formed, `g` is well formed and stores exactly the blocks' triplets, moved down. -/
structure Stacks (blocks : List Mat) (g : Mat) : Prop where
  rows : g.rows = (blocks.map Mat.rows).sum
  cols : ∀ b ∈ blocks, b.cols = g.cols
  dense : ∀ a, g = .dense a → ∀ r c, r < a.rows → c < a.cols →
    a.entry r c = stackedEntry (blocks.map Mat.toDense) r c
  sparse : ∀ a, g = .sparse a → (∀ b ∈ blocks, b.WellFormed) →
    a.WellFormed ∧ a.entries.Perm (stackedTriplets blocks 0)

/-- A matrix is itself stacked. -/
theorem stacks_single (g : Mat) : Stacks [g] g where
  rows := by simp
  cols := by simp
  dense := by
    intro a ha r c hr _
    subst ha
    simp [stackedEntry, Mat.toDense, hr]
  sparse := by
    intro a ha hw
    subst ha
    refine ⟨hw (.sparse a) (by simp), ?_⟩
    simp [stackedTriplets, Mat.triplets]

/-- Appending a block of the same width below a stack gives the stack with that block last. -/
theorem Stacks.vcat {blocks : List Mat} {g o : Mat} (h : Stacks blocks g) (hc : o.cols = g.cols) :
    Stacks (blocks ++ [o]) (g.vcat o) where
  rows := by simp [h.rows]
  cols := by
    intro b hb
    rcases List.mem_append.1 hb with hb | hb
    · simpa using h.cols b hb
    · simp only [List.mem_singleton] at hb
      simpa [hb] using hc
  dense := by
    intro a ha r c hr hcol
    cases g with
    | sparse _ => cases ha
    | dense g =>
      rw [Mat.vcat_dense] at ha
      cases ha
      have hsum : ((blocks.map Mat.toDense).map Dense.rows).sum = g.rows := by
        rw [List.map_map, show Dense.rows ∘ Mat.toDense = Mat.rows from funext Mat.rows_toDense]
        exact h.rows.symm
      simp only [Dense.rows_vcat, Mat.rows_toDense, Dense.cols_vcat] at hr hcol
      rw [Dense.entry_vcat (by simpa using hr) hcol, List.map_append, List.map_singleton,
        stackedEntry_append _ _ _ (by rw [hsum]; simpa using hr), hsum]
      split
      · exact h.dense g rfl r c (by assumption) hcol
      · rfl
  sparse := by
    intro a ha hw
    cases g with
    | dense _ => cases ha
    | sparse g =>
      have hwb : ∀ b ∈ blocks, b.WellFormed := fun b hb => hw b (by simp [hb])
      obtain ⟨hg, hperm⟩ := h.sparse g rfl hwb
      obtain ⟨s, hs, hsw, hsperm⟩ := Mat.vcat_sparse_perm hg (hw o (by simp)) hc
      rw [hs] at ha
      cases ha
      refine ⟨hsw, hsperm.trans ?_⟩
      have hrows : g.rows = (blocks.map Mat.rows).sum := h.rows
      rw [stackedTriplets_append, Nat.zero_add, ← hrows]
      exact hperm.append_right _

end ConvexQp
