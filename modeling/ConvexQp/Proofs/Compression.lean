import Mathlib
import ConvexQp.Proofs.SortOrder
import ConvexQp.Proofs.SparseProduct
/-! Assembling triplets always gives compressed storage: one entry per position, strictly in storage
order, holding the sum of the triplets given there, and nothing where none was given. -/

namespace ConvexQp

namespace Triplet

/-- The place of a triplet in storage order: its column, then its row. -/
def key (t : Triplet) : Nat ×ₗ Nat := toLex (t.col, t.row)

theorem before_eq_decide (s t : Triplet) : s.before t = decide (s.key < t.key) := by
  rw [Bool.eq_iff_iff, decide_eq_true_iff, key, key, Prod.Lex.toLex_lt_toLex]
  simp [before]

theorem key_eq_iff {s t : Triplet} : s.key = t.key ↔ s.row = t.row ∧ s.col = t.col := by
  simp only [key, toLex_inj, Prod.mk.injEq]
  exact and_comm

theorem samePosition_eq_decide (s t : Triplet) : s.samePosition t = decide (s.key = t.key) := by
  rw [Bool.eq_iff_iff, decide_eq_true_iff, key_eq_iff]
  simp [samePosition]

/-- The triplets in storage order, two at one position allowed. -/
abbrev Sorted (ts : List Triplet) : Prop := ts.Pairwise fun s t => s.key ≤ t.key

end Triplet

/-- The value of a run of triplets at one position as assembly computes it: the values added from
the left, starting from the first. -/
def runSum : List Triplet → Float
  | [] => 0.0
  | t :: ts => ts.foldl (fun acc u => acc + u.value) t.value

/-- The triplets at row `r` and column `c`, in order. -/
def atPosition (ts : List Triplet) (r c : Nat) : List Triplet :=
  ts.filter fun t => t.row == r && t.col == c

theorem atPosition_perm {ts us : List Triplet} (h : ts.Perm us) (r c : Nat) :
    (atPosition ts r c).Perm (atPosition us r c) :=
  h.filter _

/-! ### Summing runs -/

/-- Pushing only ever looks at the latest triplet, so what was pushed before it stays. -/
theorem foldl_pushSummed_cons (ts : List Triplet) (t : Triplet) (acc : List Triplet) :
    ts.foldl pushSummed (t :: acc) = ts.foldl pushSummed [t] ++ acc := by
  induction ts generalizing t acc with
  | nil => rfl
  | cons u ts ih =>
    rw [List.foldl_cons, List.foldl_cons]
    by_cases hsame : t.samePosition u = true
    · simp only [pushSummed, hsame, if_true]
      exact ih _ acc
    · simp only [pushSummed, hsame, Bool.false_eq_true, if_false]
      rw [ih u (t :: acc), ih u [t], List.append_assoc, List.singleton_append]

@[simp] theorem sumRuns_nil : sumRuns [] = [] := rfl

@[simp] theorem sumRuns_singleton (t : Triplet) : sumRuns [t] = [t] := rfl

/-- Summing runs, one triplet at a time: a triplet at the position of the next one absorbs it, and
one at another position is kept as it is. -/
theorem sumRuns_cons_cons (t u : Triplet) (rest : List Triplet) :
    sumRuns (t :: u :: rest) =
      if t.samePosition u then sumRuns ({ t with value := t.value + u.value } :: rest)
      else t :: sumRuns (u :: rest) := by
  simp only [sumRuns, List.foldl_cons]
  split
  · rename_i hsame
    simp [pushSummed, hsame]
  · rename_i hsame
    simp only [pushSummed, hsame, Bool.false_eq_true, if_false]
    rw [foldl_pushSummed_cons rest u [t], List.reverse_append]
    rfl

theorem storesAt_sumRuns : ∀ (ts : List Triplet) (r c : Nat),
    storesAt (sumRuns ts) r c = storesAt ts r c
  | [], _, _ => rfl
  | [_], _, _ => rfl
  | t :: u :: rest, r, c => by
    rw [sumRuns_cons_cons]
    split
    · rename_i hsame
      rw [storesAt_sumRuns, storesAt_cons, storesAt_cons, storesAt_cons]
      simp only [Triplet.samePosition, Bool.and_eq_true, beq_iff_eq] at hsame
      rw [← hsame.1, ← hsame.2]
      cases decide (t.row = r ∧ t.col = c) <;> simp
    · rw [storesAt_cons, storesAt_sumRuns, storesAt_cons t (u :: rest)]
termination_by ts => ts.length

/-- Every entry the runs are summed into stands where some given triplet stands. -/
theorem exists_of_mem_sumRuns : ∀ {ts : List Triplet} {x : Triplet}, x ∈ sumRuns ts →
    ∃ y ∈ ts, y.key = x.key
  | [], _, h => by simp at h
  | [t], x, h => by
    rw [sumRuns_singleton, List.mem_singleton] at h
    exact ⟨t, List.mem_singleton_self t, h ▸ rfl⟩
  | t :: u :: rest, x, h => by
    rw [sumRuns_cons_cons] at h
    split at h
    · obtain ⟨y, hy, hxy⟩ := exists_of_mem_sumRuns h
      rcases List.mem_cons.1 hy with rfl | hy
      · exact ⟨t, List.mem_cons_self .., hxy⟩
      · exact ⟨y, List.mem_cons_of_mem _ (List.mem_cons_of_mem _ hy), hxy⟩
    · rcases List.mem_cons.1 h with rfl | h
      · exact ⟨x, List.mem_cons_self .., rfl⟩
      · obtain ⟨y, hy, hxy⟩ := exists_of_mem_sumRuns h
        exact ⟨y, List.mem_cons_of_mem _ hy, hxy⟩
termination_by ts => ts.length

/-- Runs summed from triplets in storage order leave one entry per position, strictly in storage
order. -/
theorem pairwise_sumRuns : ∀ {ts : List Triplet}, Triplet.Sorted ts →
    (sumRuns ts).Pairwise fun s t => s.key < t.key
  | [], _ => by simp
  | [_], _ => by simp
  | t :: u :: rest, hs => by
    rw [sumRuns_cons_cons]
    obtain ⟨ht, hus⟩ := List.pairwise_cons.1 hs
    split
    · rename_i hsame
      have hkey : t.key = u.key := by simpa [Triplet.samePosition_eq_decide] using hsame
      refine pairwise_sumRuns (List.pairwise_cons.2 ⟨fun v hv => ?_, (List.pairwise_cons.1 hus).2⟩)
      rw [show ({ t with value := t.value + u.value } : Triplet).key = t.key from rfl, hkey]
      exact (List.pairwise_cons.1 hus).1 v hv
    · rename_i hsame
      have hlt : t.key < u.key := lt_of_le_of_ne (ht u (List.mem_cons_self ..)) (by
        simpa [Triplet.samePosition_eq_decide] using hsame)
      refine List.pairwise_cons.2 ⟨fun x hx => ?_, pairwise_sumRuns hus⟩
      obtain ⟨y, hy, hyx⟩ := exists_of_mem_sumRuns hx
      rw [← hyx]
      rcases List.mem_cons.1 hy with rfl | hy
      · exact hlt
      · exact lt_of_lt_of_le hlt ((List.pairwise_cons.1 hus).1 y hy)
termination_by ts => ts.length

/-- In triplets in storage order, the value the runs are summed into at a position is the run's
sum. -/
theorem valueAt_sumRuns : ∀ {ts : List Triplet}, Triplet.Sorted ts → ∀ r c,
    valueAt (sumRuns ts) r c = runSum (atPosition ts r c)
  | [], _, _, _ => rfl
  | [t], _, r, c => by
    by_cases h : t.row = r ∧ t.col = c
    · simp [atPosition, runSum, valueAt_cons, h]
    · have h' : (t.row == r && t.col == c) = false := by simpa using h
      simp only [sumRuns_singleton, valueAt_cons, if_neg h, valueAt_nil, atPosition,
        List.filter_cons, h', Bool.false_eq_true, if_false, List.filter_nil]
      rfl
  | t :: u :: rest, hs, r, c => by
    obtain ⟨ht, hus⟩ := List.pairwise_cons.1 hs
    rw [sumRuns_cons_cons]
    split
    · rename_i hsame
      have hpos : u.row = t.row ∧ u.col = t.col := by
        simp only [Triplet.samePosition, Bool.and_eq_true, beq_iff_eq] at hsame
        exact ⟨hsame.1.symm, hsame.2.symm⟩
      have hs' : Triplet.Sorted ({ t with value := t.value + u.value } :: rest) :=
        List.pairwise_cons.2 ⟨fun v hv => (ht v (List.mem_cons_of_mem _ hv)),
          (List.pairwise_cons.1 hus).2⟩
      rw [valueAt_sumRuns hs' r c]
      by_cases h : t.row = r ∧ t.col = c
      · have hu : (u.row == r && u.col == c) = true := by simp [hpos, h]
        have ht' : (t.row == r && t.col == c) = true := by simp [h]
        simp only [atPosition, List.filter_cons, ht', hu, if_true, runSum, List.foldl_cons]
      · have hu : (u.row == r && u.col == c) = false := by simpa [hpos] using h
        have ht' : (t.row == r && t.col == c) = false := by simpa using h
        simp only [atPosition, List.filter_cons, ht', hu, Bool.false_eq_true, if_false]
    · rename_i hsame
      rw [valueAt_cons, valueAt_sumRuns hus r c]
      by_cases h : t.row = r ∧ t.col = c
      · have hlt : t.key < u.key := lt_of_le_of_ne (ht u (List.mem_cons_self ..)) (by
          simpa [Triplet.samePosition_eq_decide] using hsame)
        have hnone : atPosition (u :: rest) r c = [] := by
          rw [atPosition, List.filter_eq_nil_iff]
          intro v hv hvpos
          have hvkey : v.key = t.key := Triplet.key_eq_iff.2 (by simpa [h] using hvpos)
          rcases List.mem_cons.1 hv with rfl | hv
          · exact absurd hvkey (ne_of_gt hlt)
          · exact absurd hvkey (ne_of_gt (lt_of_lt_of_le hlt ((List.pairwise_cons.1 hus).1 v hv)))
        have ht' : (t.row == r && t.col == c) = true := by simp [h]
        rw [if_pos h, show atPosition (t :: u :: rest) r c = t :: atPosition (u :: rest) r c by
          simp [atPosition, ht'], hnone]
        rfl
      · have ht' : (t.row == r && t.col == c) = false := by simpa using h
        rw [if_neg h, show atPosition (t :: u :: rest) r c = atPosition (u :: rest) r c by
          simp [atPosition, ht']]
termination_by ts => ts.length

/-- Two listings of the same triplets, each strictly in storage order, are one. -/
theorem eq_of_perm_of_before {l l' : List Triplet} (hl : l.Pairwise fun s t => s.before t = true)
    (hl' : l'.Pairwise fun s t => s.before t = true) (hp : l.Perm l') : l = l' := by
  refine List.Perm.eq_of_pairwise ?_ hl hl' hp
  intro s t _ _ hst hts
  rw [Triplet.before_eq_decide, decide_eq_true_eq] at hst hts
  exact absurd (lt_trans hst hts) (lt_irrefl _)

/-! ### Assembled matrices -/

namespace Sparse

/-- The sorted triplets that assembly sums runs of. -/
theorem sorted_sort (ts : List Triplet) :
    Triplet.Sorted (Quicksort.sort Triplet.before ts.toArray).toList := by
  have hord : Quicksort.Ordered Triplet.key (Quicksort.sort Triplet.before ts.toArray) 0 ts.toArray.size :=
    Quicksort.sort_ordered Triplet.before_eq_decide ts.toArray
  have hsize := (Quicksort.sort_perm Triplet.before ts.toArray).size_eq
  rw [Triplet.Sorted, List.pairwise_iff_getElem]
  intro i j hi hj hij
  simp only [Array.length_toList] at hi hj
  have h := hord i j (Nat.zero_le _) hij (by omega)
  rwa [getElem!_pos _ i hi, getElem!_pos _ j hj] at h

theorem perm_sort (ts : List Triplet) : (Quicksort.sort Triplet.before ts.toArray).toList.Perm ts := by
  simpa [Array.perm_iff_toList_perm] using Quicksort.sort_perm Triplet.before ts.toArray

/-- Assembly stores one entry per position, strictly in storage order. -/
theorem pairwise_ofTriplets (rows cols : Nat) (ts : List Triplet) :
    (ofTriplets rows cols ts).entries.Pairwise fun s t => s.before t = true := by
  have h := pairwise_sumRuns (sorted_sort ts)
  refine h.imp fun {s t} hst => ?_
  rw [Triplet.before_eq_decide]
  exact decide_eq_true hst

/-- Assembly stores an entry exactly where a triplet was given. -/
theorem stores_ofTriplets_eq (rows cols : Nat) (ts : List Triplet) (r c : Nat) :
    (ofTriplets rows cols ts).stores r c = storesAt ts r c := by
  rw [stores, ofTriplets, storesAt_sumRuns, storesAt_perm (perm_sort ts)]

/-- The value assembled at a position is the sum, in some order, of the triplets given there. -/
theorem exists_entry_ofTriplets (rows cols : Nat) (ts : List Triplet) (r c : Nat) :
    ∃ run, run.Perm (atPosition ts r c) ∧ (ofTriplets rows cols ts).entry r c = runSum run :=
  ⟨_, atPosition_perm (perm_sort ts) r c, valueAt_sumRuns (sorted_sort ts) r c⟩

/-- Triplets inside the shape assemble into compressed storage. -/
theorem compressed_ofTriplets {rows cols : Nat} {ts : List Triplet}
    (hin : ∀ t ∈ ts, t.row < rows ∧ t.col < cols) : (ofTriplets rows cols ts).Compressed where
  inside t ht := by
    obtain ⟨y, hy, hyt⟩ := exists_of_mem_sumRuns ht
    obtain ⟨hr, hc⟩ := Triplet.key_eq_iff.1 hyt
    rw [← hr, ← hc]
    exact hin y ((perm_sort ts).mem_iff.1 hy)
  sorted := pairwise_ofTriplets rows cols ts

/-- Triplets at pairwise different positions are stored as their one listing in storage order. -/
theorem entries_ofTriplets_eq {rows cols : Nat} {ts l : List Triplet} (hd : Distinct ts)
    (hl : l.Pairwise fun s t => s.before t = true) (hp : l.Perm ts) :
    (ofTriplets rows cols ts).entries = l :=
  eq_of_perm_of_before (pairwise_ofTriplets rows cols ts) hl ((entries_ofTriplets_perm hd).trans hp.symm)

end Sparse

end ConvexQp
