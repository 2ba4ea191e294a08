import ConvexQp.Mat.Basic
import ConvexQp.Proofs.SortPermutation
/-! Assembling a sparse matrix from triplets at pairwise distinct positions sums nothing: the stored
entries are the triplets, reordered, and such matrices are `WellFormed`. -/

namespace ConvexQp

namespace Triplet

theorem samePosition_comm (s t : Triplet) : s.samePosition t = t.samePosition s := by
  simp only [samePosition, Bool.beq_comm]

/-- Two triplets at different positions. -/
def Apart (s t : Triplet) : Prop := s.samePosition t = false

theorem Apart.symm {s t : Triplet} (h : Apart s t) : Apart t s := by
  rwa [Apart, samePosition_comm]

theorem apart_of_row_ne {s t : Triplet} (h : s.row ≠ t.row) : Apart s t := by
  simp [Apart, samePosition, h]

theorem apart_of_col_ne {s t : Triplet} (h : s.col ≠ t.col) : Apart s t := by
  simp [Apart, samePosition, h]

end Triplet

/-- Triplets at pairwise different positions. -/
def Distinct (ts : List Triplet) : Prop := ts.Pairwise Triplet.Apart

theorem Distinct.perm {ts us : List Triplet} (h : ts.Perm us) (hd : Distinct ts) : Distinct us :=
  (h.pairwise_iff fun hst => Triplet.Apart.symm hst).1 hd

/-- Pushing a triplet at another position than the latest one pushed puts it in front. -/
theorem pushSummed_of_apart {acc : List Triplet} {t : Triplet}
    (h : ∀ last ∈ acc.head?, Triplet.Apart last t) : pushSummed acc t = t :: acc := by
  cases acc with
  | nil => rfl
  | cons last rest =>
    have hap : last.samePosition t = false := h last rfl
    simp [pushSummed, hap]

/-- Summing triplets at pairwise different positions pushes each of them. -/
theorem foldl_pushSummed_of_distinct {ts : List Triplet} (hd : Distinct ts) (acc : List Triplet)
    (hacc : ∀ last ∈ acc.head?, ∀ t ∈ ts, Triplet.Apart last t) :
    ts.foldl pushSummed acc = ts.reverse ++ acc := by
  induction ts generalizing acc with
  | nil => rfl
  | cons t ts ih =>
    obtain ⟨ht, hts⟩ := List.pairwise_cons.1 hd
    have hpush : pushSummed acc t = t :: acc :=
      pushSummed_of_apart fun last hlast => hacc last hlast t (by simp)
    rw [List.foldl_cons, hpush, ih hts (t :: acc) (by simpa using ht)]
    simp

/-- Summing runs at one position leaves triplets at pairwise different positions as they are. -/
theorem sumRuns_of_distinct {ts : List Triplet} (hd : Distinct ts) : sumRuns ts = ts := by
  rw [sumRuns, foldl_pushSummed_of_distinct hd [] (by simp)]
  simp

namespace Sparse

/-- The shape compressed storage guarantees: every stored entry lies inside the matrix, and no two
stand at one position. -/
structure WellFormed (a : Sparse) : Prop where
  inside : ∀ t ∈ a.entries, t.row < a.rows ∧ t.col < a.cols
  distinct : Distinct a.entries

/-- Assembling triplets at pairwise different positions stores exactly them, in storage order. -/
theorem entries_ofTriplets_perm {rows cols : Nat} {ts : List Triplet} (hd : Distinct ts) :
    (ofTriplets rows cols ts).entries.Perm ts := by
  have hsort : (Quicksort.sort Triplet.before ts.toArray).toList.Perm ts := by
    simpa [Array.perm_iff_toList_perm] using Quicksort.sort_perm Triplet.before ts.toArray
  rw [ofTriplets, sumRuns_of_distinct (hd.perm hsort.symm)]
  exact hsort

theorem wellFormed_ofTriplets {rows cols : Nat} {ts : List Triplet} (hd : Distinct ts)
    (hin : ∀ t ∈ ts, t.row < rows ∧ t.col < cols) : (ofTriplets rows cols ts).WellFormed where
  inside t ht := hin t ((entries_ofTriplets_perm hd).mem_iff.1 ht)
  distinct := hd.perm (entries_ofTriplets_perm hd).symm

/-- The triplets of the diagonal of ones. -/
def diagonalOnes (n : Nat) : List Triplet := (List.range n).map fun i => ⟨i, i, 1.0⟩

theorem distinct_diagonalOnes (n : Nat) : Distinct (diagonalOnes n) := by
  unfold Distinct diagonalOnes
  rw [List.pairwise_map]
  exact List.nodup_range.imp fun h => Triplet.apart_of_row_ne (by simpa using h)

theorem entries_identity_perm (n : Nat) : (identity n).entries.Perm (diagonalOnes n) :=
  entries_ofTriplets_perm (distinct_diagonalOnes n)

theorem wellFormed_identity (n : Nat) : (identity n).WellFormed :=
  wellFormed_ofTriplets (distinct_diagonalOnes n) (by
    intro t ht
    obtain ⟨i, hi, rfl⟩ := List.mem_map.1 ht
    exact ⟨List.mem_range.1 hi, List.mem_range.1 hi⟩)

/-- A triplet with its value multiplied by `alpha` from the left. -/
def Triplet.scaled (alpha : Float) (t : Triplet) : Triplet := { t with value := alpha * t.value }

theorem distinct_map_scaled {ts : List Triplet} (alpha : Float) (hd : Distinct ts) :
    Distinct (ts.map (Triplet.scaled alpha)) := by
  unfold Distinct at *
  rw [List.pairwise_map]
  exact hd.imp fun h => by simpa [Triplet.Apart, Triplet.samePosition, Triplet.scaled] using h

/-- Scaling a well-formed matrix multiplies each stored value and stores nothing else. -/
theorem entries_scale_perm {a : Sparse} (alpha : Float) (ha : a.WellFormed) :
    (a.scale alpha).entries.Perm (a.entries.map (Triplet.scaled alpha)) :=
  entries_ofTriplets_perm (distinct_map_scaled alpha ha.distinct)

theorem wellFormed_scale {a : Sparse} (alpha : Float) (ha : a.WellFormed) :
    (a.scale alpha).WellFormed :=
  wellFormed_ofTriplets (distinct_map_scaled alpha ha.distinct) (by
    intro t ht
    obtain ⟨u, hu, rfl⟩ := List.mem_map.1 ht
    exact ha.inside u hu)

end Sparse

namespace Dense

theorem mem_nonzeros {a : Dense} {t : Triplet} (ht : t ∈ a.nonzeros) :
    t.row < a.rows ∧ t.col < a.cols := by
  simp only [nonzeros, List.mem_flatMap, List.mem_range, List.mem_map, List.mem_filter] at ht
  obtain ⟨c, hc, r, ⟨hr, _⟩, rfl⟩ := ht
  exact ⟨hr, hc⟩

theorem distinct_nonzeros (a : Dense) : Distinct a.nonzeros := by
  unfold Distinct nonzeros
  rw [List.pairwise_flatMap]
  constructor
  · intro c _
    rw [List.pairwise_map]
    exact (List.nodup_range.filter _).imp fun {r s} (h : r ≠ s) => Triplet.apart_of_row_ne h
  · refine List.nodup_range.imp fun hcd => ?_
    intro s hs t ht
    simp only [List.mem_map] at hs ht
    obtain ⟨_, _, rfl⟩ := hs
    obtain ⟨_, _, rfl⟩ := ht
    exact Triplet.apart_of_col_ne hcd

/-- The sparse copy of a dense matrix is well formed. -/
theorem wellFormed_toSparse (a : Dense) : (Mat.dense a).toSparse.WellFormed :=
  Sparse.wellFormed_ofTriplets (distinct_nonzeros a) fun _ ht => mem_nonzeros ht

end Dense

end ConvexQp
