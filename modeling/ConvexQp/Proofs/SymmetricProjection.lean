import Mathlib
import ConvexQp.Proofs.Conversion
/-! The symmetric projection `(A + Aᵀ) / 2`: the in-place loop over a dense matrix computes
`Dense.symmetrize`, and the projection through triplets of a sparse one is symmetric bit for bit. -/

namespace ConvexQp

open Float.Model Float.Model.UnpackedFloat

namespace Unpacked

theorem add_comm (u v : UnpackedFloat) :
    UnpackedFloat.add .binary64 u v = UnpackedFloat.add .binary64 v u := by
  cases u <;> cases v <;> simp only [UnpackedFloat.add]
  case infinity.infinity s t => cases s <;> cases t <;> rfl
  case zero.zero s t => cases s <;> cases t <;> rfl
  case finite.finite s m e hm t n f hn => rw [min_comm f e, Int.add_comm]

end Unpacked

namespace Float

theorem add_comm (x y : Float) : x + y = y + x := by
  rw [add_eq_ofModel, add_eq_ofModel, Unpacked.add_comm]

theorem sub_eq_ofModel (x y : Float) :
    x - y = Float.ofModel (Float.Model.pack (UnpackedFloat.sub .binary64 x.toModel.unpack y.toModel.unpack)) :=
  rfl

/-- A finite float minus itself is `0.0`: the mantissas cancel exactly. -/
theorem sub_self_of_isFinite {x : Float} (hx : x.isFinite = true) : x - x = 0.0 := by
  rw [isFinite_eq] at hx
  rw [sub_eq_ofModel]
  cases h : x.toModel.unpack with
  | zero s => cases s <;> rfl
  | finite s m e hm =>
    simp only [UnpackedFloat.sub, decreaseExponent, min_self, Int.sub_self]
    rfl
  | infinity s =>
    rw [h] at hx
    cases hx
  | notANumber =>
    rw [h] at hx
    cases hx

/-- An infinity or a NaN minus itself is NaN. -/
theorem sub_self_of_not_finite {x : Float} (hx : x.isFinite = false) : x - x = Binary64.quietNan := by
  rw [isFinite_eq] at hx
  apply eq_of_unpack_eq
  rw [sub_eq_ofModel, show Binary64.quietNan.toModel.unpack = .notANumber from rfl]
  cases h : x.toModel.unpack with
  | infinity s => cases s <;> exact unpack_ofModel_pack .notANumber
  | notANumber => exact unpack_ofModel_pack .notANumber
  | zero t =>
    rw [h] at hx
    cases hx
  | finite t m e hm =>
    rw [h] at hx
    cases hx

theorem nan_not_le (y : Float) : ¬Binary64.quietNan ≤ y := by
  show ¬(UnpackedFloat.le .notANumber y.toModel.unpack = true)
  simp [UnpackedFloat.le, UnpackedFloat.compare]

/-- The distance of a float to itself is within a tolerance `eps ≥ 0` exactly when it is finite. -/
theorem sub_self_abs_le_iff {x eps : Float} (heps : 0.0 ≤ eps) :
    (x - x).abs ≤ eps ↔ x.isFinite = true := by
  cases hx : x.isFinite with
  | true =>
    rw [sub_self_of_isFinite hx, show (0.0 : Float).abs = 0.0 by decide]
    exact iff_of_true heps rfl
  | false =>
    rw [sub_self_of_not_finite hx, show Binary64.quietNan.abs = Binary64.quietNan by decide]
    exact iff_of_false (nan_not_le eps) Bool.false_ne_true

end Float

/-! ### Dense projection -/

namespace Dense

variable {a : Dense}

@[simp] theorem rows_set (m : Dense) (r c : Nat) (v : Float) : (m.set r c v).rows = m.rows := rfl

@[simp] theorem cols_set (m : Dense) (r c : Nat) (v : Float) : (m.set r c v).cols = m.cols := rfl

theorem entry_set (m : Dense) {r c i j : Nat} (v : Float) (hi : i < m.rows) (hj : j < m.cols) :
    (m.set r c v).entry i j = if i = r ∧ j = c then v else m.entry i j :=
  entry_ofFn _ hi hj

theorem entry_symmetrize {r c : Nat} (hr : r < a.rows) (hc : c < a.cols) :
    a.symmetrize.entry r c =
      if r = c then a.entry r c
      else 0.5 * (a.entry (min r c) (max r c) + a.entry (max r c) (min r c)) :=
  entry_ofFn _ hr hc

/-- Both cells of a pair off the diagonal get half the sum of the pair. -/
theorem entry_symmetrize_of_lt {r c : Nat} (hrc : r < c) (hc : c < a.rows) (hc' : c < a.cols) :
    a.symmetrize.entry r c = 0.5 * (a.entry r c + a.entry c r) ∧
      a.symmetrize.entry c r = 0.5 * (a.entry r c + a.entry c r) := by
  rw [entry_symmetrize (by omega) hc', entry_symmetrize hc (by omega), if_neg (by omega),
    if_neg (by omega), min_eq_left hrc.le, max_eq_right hrc.le, min_eq_right hrc.le,
    max_eq_left hrc.le]
  exact ⟨rfl, rfl⟩

/-- The projection of a square matrix is symmetric bit for bit. -/
theorem entry_symmetrize_comm (ha : a.rows = a.cols) {r c : Nat} (hr : r < a.rows) (hc : c < a.rows) :
    a.symmetrize.entry r c = a.symmetrize.entry c r := by
  rw [entry_symmetrize hr (ha ▸ hc), entry_symmetrize hc (ha ▸ hr), min_comm, max_comm]
  by_cases hrc : r = c
  · rw [hrc]
  · rw [if_neg hrc, if_neg (Ne.symm hrc)]

/-- One step of the in-place projection: both cells of the pair at row `r` and column `c` get half
the sum of the values they hold. -/
def symmetrizePair (m : Dense) (r c : Nat) : Dense :=
  let v := 0.5 * (m.entry r c + m.entry c r)
  (m.set r c v).set c r v

/-- The symmetric projection as computed in place: for each column `c`, and each row `r < c` in
order, the pair at `(r, c)` and `(c, r)`. -/
def symmetrizeInPlace (a : Dense) : Dense :=
  (List.range a.rows).foldl (fun m c => (List.range c).foldl (fun m r => m.symmetrizePair r c) m) a

theorem entry_symmetrizePair (m : Dense) {r c i j : Nat} (hi : i < m.rows) (hj : j < m.cols) :
    (m.symmetrizePair r c).entry i j =
      if (i = r ∧ j = c) ∨ (i = c ∧ j = r) then 0.5 * (m.entry r c + m.entry c r)
      else m.entry i j := by
  set v := 0.5 * (m.entry r c + m.entry c r)
  show ((m.set r c v).set c r v).entry i j = _
  rw [entry_set (m.set r c v) v hi hj, entry_set m v hi hj]
  by_cases hlow : i = c ∧ j = r
  · simp [hlow]
  · by_cases hup : i = r ∧ j = c
    · simp [hup]
    · simp [hlow, hup]

/-- Whether the loop, standing at row `j` of column `k`, has set the cell at row `r` and column `c`:
the cell lies off the diagonal, and its pair's column is an earlier one, or column `k` with the
pair's row above `j`. -/
abbrev ReachedBefore (k j r c : Nat) : Prop :=
  (r < c ∧ (c < k ∨ c = k ∧ r < j)) ∨ (c < r ∧ (r < k ∨ r = k ∧ c < j))

/-- The matrix when the loop stands at row `j` of column `k`: the cells it has set hold the
projection, every other cell its first value. -/
def symmetrizedBefore (a : Dense) (k j : Nat) : Dense :=
  ofFn a.rows a.cols fun r c => if ReachedBefore k j r c then a.symmetrize.entry r c else a.entry r c

theorem entry_symmetrizedBefore {k j r c : Nat} (hr : r < a.rows) (hc : c < a.cols) :
    (a.symmetrizedBefore k j).entry r c =
      if ReachedBefore k j r c then a.symmetrize.entry r c else a.entry r c :=
  entry_ofFn _ hr hc

theorem symmetrizedBefore_zero : a.symmetrizedBefore 0 0 = a := by
  refine ext_entry rfl rfl fun r hr c hc => ?_
  have hr' : r < a.rows := hr
  have hc' : c < a.cols := hc
  rw [entry_symmetrizedBefore hr' hc', if_neg (by omega)]

/-- The step lemma of the loop: the pair at `(r, c)` is reached with both cells untouched, so it
gets the projection's value, and the loop moves one row down. -/
theorem symmetrizePair_symmetrizedBefore (ha : a.rows = a.cols) {r c : Nat} (hrc : r < c)
    (hc : c < a.cols) :
    (a.symmetrizedBefore c r).symmetrizePair r c = a.symmetrizedBefore c (r + 1) := by
  have hc' : c < a.rows := by omega
  have hr : r < a.rows := by omega
  have hr' : r < a.cols := by omega
  have hfirst : (a.symmetrizedBefore c r).entry r c = a.entry r c := by
    rw [entry_symmetrizedBefore hr hc, if_neg (by omega)]
  have hsecond : (a.symmetrizedBefore c r).entry c r = a.entry c r := by
    rw [entry_symmetrizedBefore hc' hr', if_neg (by omega)]
  obtain ⟨hup, hlow⟩ := entry_symmetrize_of_lt hrc hc' hc
  refine ext_entry rfl rfl fun i hi j hj => ?_
  have hi' : i < a.rows := hi
  have hj' : j < a.cols := hj
  rw [entry_symmetrizePair (a.symmetrizedBefore c r) hi' hj', hfirst, hsecond, entry_symmetrizedBefore hi' hj',
    entry_symmetrizedBefore hi' hj']
  by_cases hpair : (i = r ∧ j = c) ∨ (i = c ∧ j = r)
  · rw [if_pos hpair, if_pos (by omega)]
    rcases hpair with ⟨rfl, rfl⟩ | ⟨rfl, rfl⟩
    · exact hup.symm
    · exact hlow.symm
  · rw [if_neg hpair]
    by_cases hreach : ReachedBefore c r i j
    · rw [if_pos hreach, if_pos (by omega)]
    · rw [if_neg hreach, if_neg (by omega)]

/-- The run of the inner loop over the rows above the diagonal of column `c`. -/
theorem foldl_symmetrizePair (ha : a.rows = a.cols) {c : Nat} (hc : c < a.cols) :
    ∀ j ≤ c, (List.range j).foldl (fun m r => m.symmetrizePair r c) (a.symmetrizedBefore c 0) =
      a.symmetrizedBefore c j
  | 0, _ => rfl
  | j + 1, hj => by
    rw [List.range_succ, List.foldl_append, foldl_symmetrizePair ha hc j (by omega), List.foldl_cons,
      List.foldl_nil, symmetrizePair_symmetrizedBefore ha (by omega) hc]

/-- Standing past the last row of column `c` is standing at the top of column `c + 1`. -/
theorem symmetrizedBefore_next_column (c : Nat) :
    a.symmetrizedBefore c c = a.symmetrizedBefore (c + 1) 0 := by
  unfold symmetrizedBefore
  congr 1
  funext r c'
  congr 1
  exact propext (by omega)

/-- The run of the outer loop over the first `k` columns. -/
theorem foldl_columns (ha : a.rows = a.cols) :
    ∀ k ≤ a.cols, (List.range k).foldl
      (fun m c => (List.range c).foldl (fun m r => m.symmetrizePair r c) m) a = a.symmetrizedBefore k 0
  | 0, _ => symmetrizedBefore_zero.symm
  | k + 1, hk => by
    rw [List.range_succ, List.foldl_append, foldl_columns ha k (by omega), List.foldl_cons,
      List.foldl_nil, foldl_symmetrizePair ha (by omega) k le_rfl, symmetrizedBefore_next_column]

/-- Once every column is done, every cell off the diagonal has been set. -/
theorem symmetrizedBefore_last (ha : a.rows = a.cols) : a.symmetrizedBefore a.rows 0 = a.symmetrize := by
  refine ext_entry rfl rfl fun r hr c hc => ?_
  have hr' : r < a.rows := hr
  have hc' : c < a.cols := hc
  rw [entry_symmetrizedBefore hr' hc']
  by_cases hrc : r = c
  · rw [if_neg (by omega), entry_symmetrize hr' hc', if_pos hrc]
  · rw [if_pos (by omega)]

theorem symmetrizeInPlace_eq (ha : a.rows = a.cols) : a.symmetrizeInPlace = a.symmetrize := by
  rw [symmetrizeInPlace, foldl_columns ha a.rows ha.le, symmetrizedBefore_last ha]

/-- The projection passes the symmetry test of a tolerance `eps ≥ 0` exactly when its entries off
the diagonal are finite. -/
theorem isSymmetricWithin_symmetrize_iff (ha : a.rows = a.cols) {eps : Float} (heps : 0.0 ≤ eps) :
    a.symmetrize.isSymmetricWithin eps = true ↔
      ∀ r < a.rows, ∀ c < a.rows, r ≠ c → (a.symmetrize.entry r c).isFinite = true := by
  simp only [isSymmetricWithin, rows_symmetrize, cols_symmetrize, ha, beq_self_eq_true, Bool.true_and,
    List.all_eq_true, List.mem_range, decide_eq_true_eq]
  constructor
  · intro h r hr c hc hrc
    have hcomm := entry_symmetrize_comm ha (show r < a.rows by omega) (show c < a.rows by omega)
    rcases Nat.lt_or_gt_of_ne hrc with hlt | hgt
    · have hpair := h c hc r hlt
      rw [← hcomm, Float.sub_self_abs_le_iff heps] at hpair
      exact hpair
    · have hpair := h r hr c hgt
      rw [hcomm, Float.sub_self_abs_le_iff heps] at hpair
      rw [hcomm]
      exact hpair
  · intro h c hc r hrc
    have hcomm := entry_symmetrize_comm ha (show r < a.rows by omega) (show c < a.rows by omega)
    rw [← hcomm, Float.sub_self_abs_le_iff heps]
    exact h r (by omega) c (by omega) (by omega)

end Dense

/-! ### Sparse projection -/

theorem storesAt_map_swap (ts : List Triplet) (r c : Nat) :
    storesAt (ts.map Triplet.swap) r c = storesAt ts c r := by
  simp only [storesAt, List.any_map, Function.comp_def, Triplet.swap, Bool.and_comm]

theorem storesAt_map_scaled (ts : List Triplet) (alpha : Float) (r c : Nat) :
    storesAt (ts.map (Sparse.Triplet.scaled alpha)) r c = storesAt ts r c := by
  simp only [storesAt, List.any_map, Function.comp_def, Sparse.Triplet.scaled]

/-- In a list at pairwise different positions, at most the one triplet stored at a position stands
there. -/
theorem atPosition_of_distinct {ts : List Triplet} (hd : Distinct ts) (r c : Nat) :
    atPosition ts r c = if storesAt ts r c then [⟨r, c, valueAt ts r c⟩] else [] := by
  induction ts with
  | nil => rfl
  | cons t ts ih =>
    obtain ⟨ht, hts⟩ := List.pairwise_cons.1 hd
    rw [storesAt_cons, valueAt_cons]
    by_cases hpos : t.row = r ∧ t.col = c
    · have hrest : storesAt ts r c = false := by
        rw [Bool.eq_false_iff]
        intro hs
        obtain ⟨u, hu, hur, huc⟩ := storesAt_iff.1 hs
        have := ht u hu
        simp [Triplet.Apart, Triplet.samePosition, hpos.1, hpos.2, hur, huc] at this
      have hkeep : atPosition (t :: ts) r c = t :: atPosition ts r c :=
        List.filter_cons_of_pos (by simp [hpos.1, hpos.2])
      rw [hkeep, ih hts, hrest, if_pos hpos]
      obtain ⟨row, col, v⟩ := t
      obtain ⟨rfl, rfl⟩ := hpos
      simp
    · have hskip : atPosition (t :: ts) r c = atPosition ts r c :=
        List.filter_cons_of_neg (by simpa using hpos)
      simp [hskip, ih hts, hpos]

/-- Two triplets summed in either order give the same value. -/
theorem runSum_of_perm_pair {run : List Triplet} {x y : Triplet} (h : run.Perm [x, y]) :
    runSum run = x.value + y.value := by
  obtain ⟨a, b, rfl⟩ : ∃ a b, run = [a, b] := by
    match run, h.length_eq with
    | [a, b], _ => exact ⟨a, b, rfl⟩
  have ha : a ∈ [x, y] := h.subset (List.mem_cons_self ..)
  simp only [List.mem_cons, List.not_mem_nil, or_false] at ha
  rcases ha with rfl | rfl
  · obtain rfl : b = y := List.singleton_perm_singleton.1 ((List.perm_cons a).1 h)
    rfl
  · obtain rfl : b = x := List.singleton_perm_singleton.1 ((List.perm_cons a).1 (h.trans (.swap a x [])))
    exact Float.add_comm _ _

namespace Sparse

variable {s : Sparse}

/-- The halves a projection assembles: each stored value halved at its position, and again at the
mirrored position. -/
theorem halves_perm (ts : List Triplet) :
    (ts.flatMap fun t =>
        let h := 0.5 * t.value
        [(⟨t.row, t.col, h⟩ : Triplet), ⟨t.col, t.row, h⟩]).Perm
      (ts.map (Triplet.scaled 0.5) ++ (ts.map Triplet.swap).map (Triplet.scaled 0.5)) := by
  induction ts with
  | nil => exact .nil
  | cons t ts ih =>
    simp only [List.flatMap_cons, List.map_cons, List.cons_append, List.nil_append]
    exact .cons _ ((ih.cons _).trans List.perm_middle.symm)

/-- The projection stores a value where the matrix or its transpose does. -/
theorem stores_symmetrize (r c : Nat) : s.symmetrize.stores r c = (s.stores r c || s.stores c r) := by
  rw [symmetrize, stores_ofTriplets_eq, storesAt_perm (halves_perm s.entries), storesAt, List.any_append,
    ← storesAt, ← storesAt, storesAt_map_scaled, storesAt_map_scaled, storesAt_map_swap]
  rfl

/-- An entry of the projection: the halves of the values stored at it and at the mirrored position,
summed. -/
theorem entry_symmetrize (hs : s.WellFormed) (r c : Nat) :
    s.symmetrize.entry r c =
      if s.stores r c && s.stores c r then 0.5 * s.entry r c + 0.5 * s.entry c r
      else if s.stores r c then 0.5 * s.entry r c
      else if s.stores c r then 0.5 * s.entry c r
      else 0.0 := by
  obtain ⟨run, hrun, hentry⟩ := exists_entry_ofTriplets s.rows s.cols (s.entries.flatMap fun t =>
    let h := 0.5 * t.value
    [(⟨t.row, t.col, h⟩ : Triplet), ⟨t.col, t.row, h⟩]) r c
  have hhalf := distinct_map_scaled 0.5 hs.distinct
  have hmirror := distinct_map_scaled 0.5 (distinct_map_swap hs.distinct)
  have hsplit : run.Perm
      ((if s.stores r c then [(⟨r, c, 0.5 * s.entry r c⟩ : Triplet)] else []) ++
        (if s.stores c r then [(⟨r, c, 0.5 * s.entry c r⟩ : Triplet)] else [])) := by
    refine hrun.trans ((atPosition_perm (halves_perm s.entries) r c).trans ?_)
    rw [atPosition, List.filter_append, ← atPosition, ← atPosition, atPosition_of_distinct hhalf,
      atPosition_of_distinct hmirror, storesAt_map_scaled, storesAt_map_scaled, storesAt_map_swap,
      valueAt_map_scaled, valueAt_map_scaled, storesAt_map_swap, valueAt_map_swap]
    cases hrc : s.stores r c <;> cases hcr : s.stores c r <;> simp_all [stores, entry]
  show (ofTriplets _ _ _).entry r c = _
  rw [hentry]
  cases hrc : s.stores r c <;> cases hcr : s.stores c r <;>
    simp only [hrc, hcr, if_true, if_false, Bool.false_eq_true, Bool.and_self, Bool.and_false,
      Bool.false_and, List.nil_append, List.append_nil, List.singleton_append, List.perm_nil,
      List.perm_singleton] at hsplit ⊢
  · rw [hsplit]
    rfl
  · rw [hsplit]
    rfl
  · rw [hsplit]
    rfl
  · rw [runSum_of_perm_pair hsplit]

/-- The projection is symmetric bit for bit. -/
theorem entry_symmetrize_comm (hs : s.WellFormed) (r c : Nat) :
    s.symmetrize.entry r c = s.symmetrize.entry c r := by
  rw [entry_symmetrize hs, entry_symmetrize hs]
  cases s.stores r c <;> cases s.stores c r <;> simp [Float.add_comm]

end Sparse

/-- A matrix of either storage has a symmetric projection exactly when it is square. -/
theorem Mat.symmetrize?_eq_none_iff (m : Mat) : m.symmetrize? = none ↔ m.rows ≠ m.cols := by
  cases m <;> simp [Mat.symmetrize?, Dense.symmetrize?, Sparse.symmetrize?, Mat.rows, Mat.cols]

/-- The symmetric projection: the in-place dense loop computes it, symmetric bit for bit and passing
a symmetry test exactly when finite off the diagonal; the sparse one stores the summed halves at
each pair, symmetric bit for bit; a matrix that is not square has none. -/
theorem symmetric_projection_exact (a : Dense) (ha : a.rows = a.cols) (eps : Float) (heps : 0.0 ≤ eps)
    (s : Sparse) (hs : s.WellFormed) (m : Mat) :
    a.symmetrizeInPlace = a.symmetrize ∧
      (∀ i < a.rows, a.symmetrize.entry i i = a.entry i i) ∧
      (∀ r c, r < c → c < a.rows →
        a.symmetrize.entry r c = 0.5 * (a.entry r c + a.entry c r) ∧
          a.symmetrize.entry c r = 0.5 * (a.entry r c + a.entry c r)) ∧
      (∀ r < a.rows, ∀ c < a.rows, a.symmetrize.entry r c = a.symmetrize.entry c r) ∧
      (a.symmetrize.isSymmetricWithin eps = true ↔
        ∀ r < a.rows, ∀ c < a.rows, r ≠ c → (a.symmetrize.entry r c).isFinite = true) ∧
      (∀ r c, s.symmetrize.stores r c = (s.stores r c || s.stores c r)) ∧
      (∀ r c, s.symmetrize.entry r c =
        if s.stores r c && s.stores c r then 0.5 * s.entry r c + 0.5 * s.entry c r
        else if s.stores r c then 0.5 * s.entry r c
        else if s.stores c r then 0.5 * s.entry c r
        else 0.0) ∧
      (∀ r c, s.symmetrize.entry r c = s.symmetrize.entry c r) ∧
      (m.symmetrize? = none ↔ m.rows ≠ m.cols) := by
  refine ⟨Dense.symmetrizeInPlace_eq ha, fun i hi => ?_, fun r c hrc hc => ?_,
    fun r hr c hc => Dense.entry_symmetrize_comm ha hr hc, Dense.isSymmetricWithin_symmetrize_iff ha heps,
    Sparse.stores_symmetrize, Sparse.entry_symmetrize hs, Sparse.entry_symmetrize_comm hs,
    m.symmetrize?_eq_none_iff⟩
  · rw [Dense.entry_symmetrize hi (ha ▸ hi), if_pos rfl]
  · exact Dense.entry_symmetrize_of_lt hrc hc (ha ▸ hc)

/-- A `2 × 2` dense matrix with `∞` above the diagonal projects, in place, to a matrix that fails the
symmetry test of tolerance `0.0`; a sparse matrix storing `1.0` above the diagonal and `3.0` below
right projects to `0.5` at both cells of the pair. -/
theorem symmetric_projection_exact_at_two :
    let a : Dense := Dense.ofFn 2 2 fun r c => if r < c then Float.inf else 1.0
    let s : Sparse := ⟨2, 2, [⟨0, 1, 1.0⟩, ⟨1, 1, 3.0⟩]⟩
    a.rows = a.cols ∧ (0.0 : Float) ≤ 0.0 ∧ s.WellFormed ∧
      a.symmetrizeInPlace.isSymmetricWithin 0.0 = false ∧
      s.symmetrize.entry 1 0 = 0.5 ∧ s.symmetrize.entry 0 1 = 0.5 := by
  intro a s
  have ha : a.rows = a.cols := rfl
  have heps : (0.0 : Float) ≤ 0.0 := by decide
  have hs : s.WellFormed := ⟨by decide, by unfold Distinct Triplet.Apart; decide⟩
  have h := symmetric_projection_exact a ha 0.0 heps s hs (.dense a)
  refine ⟨ha, heps, hs, ?_, ?_, ?_⟩
  · rw [h.1, Bool.eq_false_iff]
    intro hsym
    have hfin := (h.2.2.2.2.1.1 hsym) 0 (by decide) 1 (by decide) (by decide)
    rw [(h.2.2.1 0 1 (by decide) (by decide)).1] at hfin
    exact absurd hfin (by decide)
  · rw [h.2.2.2.2.2.2.1]
    decide
  · rw [h.2.2.2.2.2.2.1]
    decide

end ConvexQp
