import Mathlib
import ConvexQp.Proofs.Stacking
import ConvexQp.Proofs.FloatArithmetic
/-! The entries of a matrix of either storage, `0.0` where a sparse one stores nothing, and the
formula each operation gives for the entries of its result. -/

namespace ConvexQp

/-- Whether some triplet stands at row `r` and column `c`. -/
def storesAt (ts : List Triplet) (r c : Nat) : Bool :=
  ts.any fun t => t.row == r && t.col == c

/-- The value of the first triplet at row `r` and column `c`; `0.0` when there is none. -/
def valueAt (ts : List Triplet) (r c : Nat) : Float :=
  ((ts.find? fun t => t.row == r && t.col == c).map Triplet.value).getD 0.0

@[simp] theorem storesAt_nil (r c : Nat) : storesAt [] r c = false := rfl

@[simp] theorem valueAt_nil (r c : Nat) : valueAt [] r c = 0.0 := rfl

theorem storesAt_cons (t : Triplet) (ts : List Triplet) (r c : Nat) :
    storesAt (t :: ts) r c = (decide (t.row = r ∧ t.col = c) || storesAt ts r c) := by
  rw [storesAt, List.any_cons, Bool.decide_and]
  rfl

theorem valueAt_cons (t : Triplet) (ts : List Triplet) (r c : Nat) :
    valueAt (t :: ts) r c = if t.row = r ∧ t.col = c then t.value else valueAt ts r c := by
  by_cases h : t.row = r ∧ t.col = c
  · simp [valueAt, h]
  · have hf : (t.row == r && t.col == c) = false := by
      simpa using h
    simp only [valueAt, List.find?_cons, hf, h, if_false]

theorem storesAt_iff {ts : List Triplet} {r c : Nat} :
    storesAt ts r c = true ↔ ∃ t ∈ ts, t.row = r ∧ t.col = c := by
  simp [storesAt]

theorem valueAt_of_storesAt_eq_false {ts : List Triplet} {r c : Nat} (h : storesAt ts r c = false) :
    valueAt ts r c = 0.0 := by
  induction ts with
  | nil => rfl
  | cons t ts ih =>
    rw [storesAt_cons, Bool.or_eq_false_iff] at h
    rw [valueAt_cons, if_neg (by simpa using h.1), ih h.2]

theorem valueAt_append (ts us : List Triplet) (r c : Nat) :
    valueAt (ts ++ us) r c = if storesAt ts r c then valueAt ts r c else valueAt us r c := by
  induction ts with
  | nil => rfl
  | cons t ts ih =>
    rw [List.cons_append, valueAt_cons, valueAt_cons, storesAt_cons, ih]
    by_cases h : t.row = r ∧ t.col = c <;> simp [h]

/-- In a list of triplets at pairwise different positions, two triplets at one position are one. -/
theorem Distinct.eq_of_position {ts : List Triplet} (hd : Distinct ts) {s t : Triplet} (hs : s ∈ ts)
    (ht : t ∈ ts) (hr : s.row = t.row) (hc : s.col = t.col) : s = t := by
  induction ts with
  | nil => cases hs
  | cons u us ih =>
    obtain ⟨hu, hus⟩ := List.pairwise_cons.1 hd
    have hsame : ∀ v ∈ us, v.row = u.row → v.col = u.col → False := by
      intro v hv hvr hvc
      have := hu v hv
      simp [Triplet.Apart, Triplet.samePosition, hvr, hvc] at this
    rcases List.mem_cons.1 hs with rfl | hs' <;> rcases List.mem_cons.1 ht with rfl | ht'
    · rfl
    · exact (hsame t ht' hr.symm hc.symm).elim
    · exact (hsame s hs' hr hc).elim
    · exact ih hus hs' ht'

/-- The value at the position of a triplet of a list at pairwise different positions is its
value. -/
theorem valueAt_of_mem {ts : List Triplet} (hd : Distinct ts) {t : Triplet} (ht : t ∈ ts) :
    valueAt ts t.row t.col = t.value := by
  induction ts with
  | nil => cases ht
  | cons u us ih =>
    obtain ⟨-, hus⟩ := List.pairwise_cons.1 hd
    rw [valueAt_cons]
    by_cases hpos : u.row = t.row ∧ u.col = t.col
    · rw [if_pos hpos, hd.eq_of_position (List.mem_cons_self ..) ht hpos.1 hpos.2]
    · rw [if_neg hpos]
      rcases List.mem_cons.1 ht with rfl | ht
      · exact absurd ⟨rfl, rfl⟩ hpos
      · exact ih hus ht

/-- Triplets at pairwise different positions give every position the same value in any order. -/
theorem valueAt_perm {ts us : List Triplet} (hp : ts.Perm us) (hd : Distinct ts) (r c : Nat) :
    valueAt ts r c = valueAt us r c := by
  cases hs : storesAt ts r c with
  | true =>
    obtain ⟨t, ht, rfl, rfl⟩ := storesAt_iff.1 hs
    rw [valueAt_of_mem hd ht, valueAt_of_mem (hd.perm hp) (hp.mem_iff.1 ht)]
  | false =>
    have hus : storesAt us r c = false := by
      rw [← hs, storesAt, storesAt, hp.any_eq]
    rw [valueAt_of_storesAt_eq_false hs, valueAt_of_storesAt_eq_false hus]

theorem storesAt_perm {ts us : List Triplet} (hp : ts.Perm us) (r c : Nat) :
    storesAt ts r c = storesAt us r c := by
  rw [storesAt, storesAt, hp.any_eq]

/-! ### Moved, exchanged and scaled triplets -/

theorem valueAt_map_shift (ts : List Triplet) (dr dc r c : Nat) :
    valueAt (ts.map (Triplet.shift dr dc)) r c =
      if dr ≤ r ∧ dc ≤ c then valueAt ts (r - dr) (c - dc) else 0.0 := by
  induction ts with
  | nil => simp
  | cons t ts ih =>
    rw [List.map_cons, valueAt_cons, valueAt_cons, ih]
    simp only [Triplet.shift]
    by_cases hin : dr ≤ r ∧ dc ≤ c
    · have hiff : (t.row + dr = r ∧ t.col + dc = c) ↔ (t.row = r - dr ∧ t.col = c - dc) := by omega
      simp only [hiff, hin, and_self, if_true]
    · have hnot : ¬(t.row + dr = r ∧ t.col + dc = c) := by omega
      simp only [hnot, hin, if_false]

theorem storesAt_map_shift (ts : List Triplet) (dr dc r c : Nat) :
    storesAt (ts.map (Triplet.shift dr dc)) r c =
      (decide (dr ≤ r ∧ dc ≤ c) && storesAt ts (r - dr) (c - dc)) := by
  induction ts with
  | nil => simp
  | cons t ts ih =>
    rw [List.map_cons, storesAt_cons, storesAt_cons, ih]
    simp only [Triplet.shift]
    by_cases hin : dr ≤ r ∧ dc ≤ c
    · have hiff : (t.row + dr = r ∧ t.col + dc = c) ↔ (t.row = r - dr ∧ t.col = c - dc) := by omega
      simp [hiff, hin]
    · have hnot : ¬(t.row + dr = r ∧ t.col + dc = c) := by omega
      simp [hnot, hin]

theorem valueAt_map_swap (ts : List Triplet) (r c : Nat) :
    valueAt (ts.map Triplet.swap) r c = valueAt ts c r := by
  induction ts with
  | nil => rfl
  | cons t ts ih =>
    rw [List.map_cons, valueAt_cons, valueAt_cons, ih]
    simp only [Triplet.swap, and_comm]

theorem valueAt_map_scaled (ts : List Triplet) (alpha : Float) (r c : Nat) :
    valueAt (ts.map (Sparse.Triplet.scaled alpha)) r c =
      if storesAt ts r c then alpha * valueAt ts r c else 0.0 := by
  induction ts with
  | nil => rfl
  | cons t ts ih =>
    rw [List.map_cons, valueAt_cons, valueAt_cons, storesAt_cons, ih]
    by_cases h : t.row = r ∧ t.col = c <;> simp [Sparse.Triplet.scaled, h]

/-! ### Sparse matrices -/

namespace Sparse

/-- The value stored at row `r` and column `c`; `0.0` where nothing is stored. -/
def entry (a : Sparse) (r c : Nat) : Float := valueAt a.entries r c

/-- Whether a value is stored at row `r` and column `c`. -/
def stores (a : Sparse) (r c : Nat) : Bool := storesAt a.entries r c

theorem entry_of_stores_eq_false {a : Sparse} {r c : Nat} (h : a.stores r c = false) :
    a.entry r c = 0.0 :=
  valueAt_of_storesAt_eq_false h

/-- A well-formed matrix stores nothing outside its shape. -/
theorem stores_eq_false_of_outside {a : Sparse} (ha : a.WellFormed) {r c : Nat}
    (h : a.rows ≤ r ∨ a.cols ≤ c) : a.stores r c = false := by
  rw [stores, Bool.eq_false_iff]
  intro hs
  obtain ⟨t, ht, rfl, rfl⟩ := storesAt_iff.1 hs
  have := ha.inside t ht
  omega

theorem entry_ofTriplets {ts : List Triplet} (hd : Distinct ts) (rows cols r c : Nat) :
    (ofTriplets rows cols ts).entry r c = valueAt ts r c :=
  valueAt_perm (entries_ofTriplets_perm hd).symm hd r c |>.symm

theorem stores_ofTriplets {ts : List Triplet} (hd : Distinct ts) (rows cols r c : Nat) :
    (ofTriplets rows cols ts).stores r c = storesAt ts r c :=
  storesAt_perm (entries_ofTriplets_perm hd) r c

@[simp] theorem entry_zeros (rows cols r c : Nat) : (zeros rows cols).entry r c = 0.0 := rfl

@[simp] theorem stores_zeros (rows cols r c : Nat) : (zeros rows cols).stores r c = false := rfl

theorem stores_identity (n r c : Nat) : (identity n).stores r c = decide (r = c ∧ r < n) := by
  rw [show identity n = ofTriplets n n (diagonalOnes n) from rfl,
    stores_ofTriplets (distinct_diagonalOnes n)]
  apply Bool.eq_iff_iff.2
  rw [storesAt_iff, decide_eq_true_iff]
  constructor
  · rintro ⟨t, ht, rfl, rfl⟩
    obtain ⟨i, hi, rfl⟩ := List.mem_map.1 ht
    exact ⟨rfl, List.mem_range.1 hi⟩
  · rintro ⟨rfl, hr⟩
    exact ⟨⟨r, r, 1.0⟩, List.mem_map.2 ⟨r, List.mem_range.2 hr, rfl⟩, rfl, rfl⟩

theorem entry_identity (n r c : Nat) : (identity n).entry r c = if r = c ∧ r < n then 1.0 else 0.0 := by
  split
  · rename_i h
    obtain ⟨rfl, hr⟩ := h
    have hmem : (⟨r, r, 1.0⟩ : Triplet) ∈ diagonalOnes n := List.mem_map.2 ⟨r, List.mem_range.2 hr, rfl⟩
    rw [show identity n = ofTriplets n n (diagonalOnes n) from rfl,
      entry_ofTriplets (distinct_diagonalOnes n)]
    exact valueAt_of_mem (distinct_diagonalOnes n) hmem
  · rename_i h
    exact entry_of_stores_eq_false (by rw [stores_identity]; simpa using h)

/-- Scaling multiplies each stored value from the left and stores nothing new. -/
theorem entry_scale {a : Sparse} (ha : a.WellFormed) (alpha : Float) (r c : Nat) :
    (a.scale alpha).entry r c = if a.stores r c then alpha * a.entry r c else 0.0 := by
  have hd := distinct_map_scaled alpha ha.distinct
  rw [scale, show (a.entries.map fun t => { t with value := alpha * t.value }) =
    a.entries.map (Triplet.scaled alpha) from rfl, entry_ofTriplets hd, valueAt_map_scaled]
  rfl

theorem stores_scale {a : Sparse} (ha : a.WellFormed) (alpha : Float) (r c : Nat) :
    (a.scale alpha).stores r c = a.stores r c := by
  have hd := distinct_map_scaled alpha ha.distinct
  rw [scale, show (a.entries.map fun t => { t with value := alpha * t.value }) =
    a.entries.map (Triplet.scaled alpha) from rfl, stores_ofTriplets hd]
  simp only [storesAt, List.any_map, stores]
  rfl

theorem distinct_map_swap {ts : List Triplet} (hd : Distinct ts) : Distinct (ts.map Triplet.swap) := by
  unfold Distinct at *
  rw [List.pairwise_map]
  exact hd.imp fun h => by
    simpa only [Triplet.Apart, Triplet.samePosition, Triplet.swap, Bool.and_comm] using h

/-- The transpose exchanges row and column. -/
theorem entry_transpose {a : Sparse} (ha : a.WellFormed) (r c : Nat) :
    a.transpose.entry r c = a.entry c r := by
  rw [transpose, entry_ofTriplets (distinct_map_swap ha.distinct), valueAt_map_swap]
  rfl

end Sparse

/-! ### Dense matrices -/

namespace Dense

theorem index_mod {rows r : Nat} (c : Nat) (hr : r < rows) : (c * rows + r) % rows = r := by
  rw [Nat.add_comm, Nat.add_mul_mod_self_right, Nat.mod_eq_of_lt hr]

theorem index_div {rows r : Nat} (c : Nat) (hr : r < rows) : (c * rows + r) / rows = c := by
  rw [Nat.add_comm, Nat.add_mul_div_right _ _ (by omega), Nat.div_eq_of_lt hr, Nat.zero_add]

/-- Cells of a matrix with `rows` rows are stored at pairwise different places. -/
theorem index_eq_iff {rows r r' c c' : Nat} (hr : r < rows) (hr' : r' < rows) :
    c * rows + r = c' * rows + r' ↔ c = c' ∧ r = r' := by
  constructor
  · intro h
    constructor
    · rw [← index_div c hr, ← index_div c' hr', h]
    · rw [← index_mod c hr, ← index_mod c' hr', h]
  · rintro ⟨rfl, rfl⟩
    rfl

theorem index_lt {rows cols r c : Nat} (hr : r < rows) (hc : c < cols) : c * rows + r < rows * cols := by
  have : (c + 1) * rows ≤ cols * rows := Nat.mul_le_mul_right rows hc
  rw [Nat.succ_mul] at this
  rw [Nat.mul_comm rows cols]
  omega

theorem entry_scale (a : Dense) (alpha : Float) {r c : Nat} (hr : r < a.rows) (hc : c < a.cols) :
    (a.scale alpha).entry r c = a.entry r c * alpha := by
  have hi : c * a.rows + r < a.data.size := by rw [a.size_data]; exact index_lt hr hc
  simp [entry, scale, Array.getD_eq_getD_getElem?, hi]

theorem entry_transpose (a : Dense) {r c : Nat} (hr : r < a.cols) (hc : c < a.rows) :
    a.transpose.entry r c = a.entry c r :=
  entry_ofFn _ hr hc

/-- The columns of `b` follow those of `a` in the array, so column `a.cols + k` is column `k` of `b`. -/
theorem entry_hcat {a b : Dense} (h : a.rows = b.rows) {r c : Nat} (hr : r < a.rows) :
    (a.hcat b h).entry r c = if c < a.cols then a.entry r c else b.entry r (c - a.cols) := by
  by_cases hc : c < a.cols
  · have hi : c * a.rows + r < a.data.size := by rw [a.size_data]; exact index_lt hr hc
    simp [entry, hcat, hc, Array.getD_eq_getD_getElem?, Array.getElem?_append_left hi]
  · obtain ⟨k, rfl⟩ := Nat.exists_eq_add_of_le (Nat.le_of_not_lt hc)
    have hi : (a.cols + k) * a.rows + r = a.data.size + (k * b.rows + r) := by
      rw [a.size_data, Nat.add_mul, Nat.mul_comm a.cols, h, Nat.add_assoc]
    simp [entry, hcat, Array.getD_eq_getD_getElem?, hi, Array.getElem?_append_right]

theorem entry_blockDiag {a b : Dense} {r c : Nat} (hr : r < a.rows + b.rows) (hc : c < a.cols + b.cols) :
    (a.blockDiag b).entry r c =
      if r < a.rows ∧ c < a.cols then a.entry r c
      else if a.rows ≤ r ∧ a.cols ≤ c then b.entry (r - a.rows) (c - a.cols) else 0.0 :=
  entry_ofFn _ hr hc

theorem entry_identity {n r c : Nat} (hr : r < n) (hc : c < n) :
    (identity n).entry r c = if r = c then 1.0 else 0.0 :=
  entry_ofFn _ hr hc

theorem entry_zeros {rows cols r c : Nat} (hr : r < rows) (hc : c < cols) :
    (zeros rows cols).entry r c = 0.0 :=
  entry_ofFn _ hr hc

/-- Adding a value into one cell changes that cell only. -/
theorem entry_modify (a : Dense) (t : Triplet) (ht : t.row < a.rows) {r c : Nat} (hr : r < a.rows)
    (hc : c < a.cols) :
    (⟨a.rows, a.cols, a.data.modify (t.col * a.rows + t.row) (· + t.value),
      by simp [a.size_data]⟩ : Dense).entry r c =
      if t.row = r ∧ t.col = c then a.entry r c + t.value else a.entry r c := by
  have hi : c * a.rows + r < a.data.size := by rw [a.size_data]; exact index_lt hr hc
  simp only [entry, Array.getD_eq_getD_getElem?, Array.getElem?_modify]
  by_cases h : t.row = r ∧ t.col = c
  · obtain ⟨rfl, rfl⟩ := h
    simp [hi]
  · have hne : t.col * a.rows + t.row ≠ c * a.rows + r := by
      rw [Ne, index_eq_iff ht hr]
      omega
    simp [hne, h]

/-- Adding triplets at pairwise different positions, all inside the matrix, into its cells. -/
theorem entry_accumulate (a : Dense) {ts : List Triplet} (hd : Distinct ts)
    (hin : ∀ t ∈ ts, t.row < a.rows ∧ t.col < a.cols) {r c : Nat} (hr : r < a.rows) (hc : c < a.cols) :
    (a.accumulate ts).entry r c = if storesAt ts r c then a.entry r c + valueAt ts r c else a.entry r c := by
  induction ts generalizing a with
  | nil => rfl
  | cons t ts ih =>
    obtain ⟨ht, hts⟩ := List.pairwise_cons.1 hd
    let a' : Dense := ⟨a.rows, a.cols, a.data.modify (t.col * a.rows + t.row) (· + t.value),
      by simp [a.size_data]⟩
    have hstep : a.accumulate (t :: ts) = a'.accumulate ts := rfl
    have hin' : ∀ u ∈ ts, u.row < a'.rows ∧ u.col < a'.cols := fun u hu => hin u (List.mem_cons_of_mem _ hu)
    rw [hstep, ih a' hts hin' hr hc, entry_modify a t (hin t (List.mem_cons_self ..)).1 hr hc,
      storesAt_cons, valueAt_cons]
    by_cases hpos : t.row = r ∧ t.col = c
    · have hrest : storesAt ts r c = false := by
        rw [Bool.eq_false_iff]
        intro hs
        obtain ⟨u, hu, hur, huc⟩ := storesAt_iff.1 hs
        have := ht u hu
        simp [Triplet.Apart, Triplet.samePosition, hpos.1, hpos.2, hur, huc] at this
      simp [hpos, hrest]
    · simp [hpos]

end Dense

/-- The dense copy of a well-formed sparse matrix holds `0.0 + v` for each stored value `v` and
`0.0` elsewhere. -/
theorem Sparse.entry_toDense {a : Sparse} (ha : a.WellFormed) {r c : Nat} (hr : r < a.rows)
    (hc : c < a.cols) : a.toDense.entry r c = 0.0 + a.entry r c := by
  rw [toDense, Dense.entry_accumulate _ ha.distinct ha.inside hr hc, Dense.entry_zeros hr hc]
  split
  · rfl
  · rename_i h
    rw [Bool.not_eq_true] at h
    rw [entry, valueAt_of_storesAt_eq_false h]
    decide

namespace Dense

theorem mem_nonzeros_iff {a : Dense} {t : Triplet} :
    t ∈ a.nonzeros ↔ t.row < a.rows ∧ t.col < a.cols ∧ (a.entry t.row t.col != 0.0) = true ∧
      t.value = a.entry t.row t.col := by
  simp only [nonzeros, List.mem_flatMap, List.mem_range, List.mem_map, List.mem_filter]
  constructor
  · rintro ⟨c, hc, r, ⟨hr, hne⟩, rfl⟩
    exact ⟨hr, hc, hne, rfl⟩
  · rintro ⟨hr, hc, hne, hv⟩
    exact ⟨t.col, hc, t.row, ⟨hr, hne⟩, by rw [← hv]⟩

/-- The triplets of a dense matrix give each cell inside it its entry, or `0.0` for a zero. -/
theorem valueAt_nonzeros (a : Dense) {r c : Nat} (hr : r < a.rows) (hc : c < a.cols) :
    valueAt a.nonzeros r c = if (a.entry r c == 0.0) = true then 0.0 else a.entry r c := by
  split
  · rename_i hzero
    apply valueAt_of_storesAt_eq_false
    rw [Bool.eq_false_iff]
    intro hs
    obtain ⟨t, ht, rfl, rfl⟩ := storesAt_iff.1 hs
    have hne := (mem_nonzeros_iff.1 ht).2.2.1
    simp [bne, hzero] at hne
  · rename_i hnonzero
    have hmem : (⟨r, c, a.entry r c⟩ : Triplet) ∈ a.nonzeros :=
      mem_nonzeros_iff.2 ⟨hr, hc, by simpa [bne] using hnonzero, rfl⟩
    exact valueAt_of_mem (distinct_nonzeros a) hmem

end Dense

/-! ### Matrices of either storage -/

namespace Mat

/-- The entry at row `r` and column `c`: a dense matrix's entry, or the value a sparse matrix
stores there, `0.0` if it stores none. -/
def entry : Mat → Nat → Nat → Float
  | .dense a => a.entry
  | .sparse a => a.entry

@[simp] theorem entry_dense (a : Dense) : (Mat.dense a).entry = a.entry := rfl

@[simp] theorem entry_sparse (a : Sparse) : (Mat.sparse a).entry = a.entry := rfl

theorem joinTriplets_eq (rows cols : Nat) (a : Sparse) (o : Mat) (dr dc : Nat) :
    joinTriplets rows cols a o dr dc =
      Sparse.ofTriplets rows cols (a.entries ++ o.triplets.map (Triplet.shift dr dc)) := rfl

/-- The triplets of a well-formed sparse matrix and those of a well-formed matrix moved past its
last row or its last column stand at pairwise different positions. -/
theorem distinct_join {a : Sparse} {o : Mat} (ha : a.WellFormed) (ho : o.WellFormed) {dr dc : Nat}
    (hsep : a.rows ≤ dr ∨ a.cols ≤ dc) : Distinct (a.entries ++ o.triplets.map (Triplet.shift dr dc)) := by
  unfold Distinct
  rw [List.pairwise_append]
  refine ⟨ha.distinct, distinct_map_shift dr dc ho.distinct, ?_⟩
  intro s hs t ht
  obtain ⟨u, -, rfl⟩ := List.mem_map.1 ht
  have := ha.inside s hs
  rcases hsep with hsep | hsep
  · exact Triplet.apart_of_row_ne (by simp only [Triplet.shift]; omega)
  · exact Triplet.apart_of_col_ne (by simp only [Triplet.shift]; omega)

/-- The entry of the sparse matrix joined from `a` and a block moved by `dr` rows and `dc` columns:
what `a` stores, else the block's value at its own position. -/
theorem entry_joinTriplets {a : Sparse} {o : Mat} (ha : a.WellFormed) (ho : o.WellFormed) {dr dc : Nat}
    (hsep : a.rows ≤ dr ∨ a.cols ≤ dc) (rows cols r c : Nat) :
    (joinTriplets rows cols a o dr dc).entry r c =
      if a.stores r c then a.entry r c
      else if dr ≤ r ∧ dc ≤ c then valueAt o.triplets (r - dr) (c - dc) else 0.0 := by
  rw [joinTriplets_eq, Sparse.entry_ofTriplets (distinct_join ha ho hsep), valueAt_append,
    valueAt_map_shift]
  rfl

theorem entry_identity {n r c : Nat} (k : Storage) (hr : r < n) (hc : c < n) :
    (identity n k).entry r c = if r = c then 1.0 else 0.0 := by
  cases k with
  | dense => exact Dense.entry_identity hr hc
  | sparse =>
    rw [identity, entry_sparse, Sparse.entry_identity]
    simp [hr]

theorem entry_zeros {rows cols r c : Nat} (k : Storage) (hr : r < rows) (hc : c < cols) :
    (zeros rows cols k).entry r c = 0.0 := by
  cases k with
  | dense => exact Dense.entry_zeros hr hc
  | sparse => rfl

/-- `m` beside `o`, of one storage and one height: the entries of `m`, then those of `o`. -/
theorem entry_hcat {m o : Mat} (hm : m.WellFormed) (ho : o.WellFormed) (hs : o.storage = m.storage)
    (hrows : o.rows = m.rows) {r c : Nat} (hr : r < m.rows) (hc : c < m.cols + o.cols) :
    (m.hcat o).entry r c = if c < m.cols then m.entry r c else o.entry r (c - m.cols) := by
  cases m with
  | dense a =>
    cases o with
    | dense b => rw [dense_hcat hrows.symm]; exact Dense.entry_hcat _ hr
    | sparse b => cases hs
  | sparse a =>
    cases o with
    | dense b => cases hs
    | sparse b =>
      have ha : a.WellFormed := hm
      show (joinTriplets _ _ a (.sparse b) 0 a.cols).entry r c = _
      rw [entry_joinTriplets ha ho (.inr le_rfl)]
      by_cases hleft : c < a.cols
      · by_cases hst : a.stores r c
        · simp [hst, hleft]
        · simp [hst, hleft, Sparse.entry_of_stores_eq_false (Bool.eq_false_iff.2 hst)]
      · simp [Sparse.stores_eq_false_of_outside ha (.inr (Nat.le_of_not_lt hleft)), hleft,
          Nat.le_of_not_lt hleft]
        rfl

/-- The block-diagonal matrix of `m` and `o`, of one storage: the entries of `m` above left, those
of `o` below right, and `0.0` elsewhere. -/
theorem entry_blockDiag {m o : Mat} (hm : m.WellFormed) (ho : o.WellFormed) (hs : o.storage = m.storage)
    {r c : Nat} (hr : r < m.rows + o.rows) (hc : c < m.cols + o.cols) :
    (m.blockDiag o).entry r c =
      if r < m.rows ∧ c < m.cols then m.entry r c
      else if m.rows ≤ r ∧ m.cols ≤ c then o.entry (r - m.rows) (c - m.cols) else 0.0 := by
  cases m with
  | dense a =>
    cases o with
    | dense b => exact Dense.entry_blockDiag hr hc
    | sparse b => cases hs
  | sparse a =>
    cases o with
    | dense b => cases hs
    | sparse b =>
      have ha : a.WellFormed := hm
      show (joinTriplets _ _ a (.sparse b) a.rows a.cols).entry r c = _
      rw [entry_joinTriplets ha ho (.inl le_rfl)]
      by_cases hin : r < a.rows ∧ c < a.cols
      · by_cases hst : a.stores r c
        · simp [hst, hin]
        · have hout : ¬(a.rows ≤ r ∧ a.cols ≤ c) := by omega
          simp [hst, hin, hout, Sparse.entry_of_stores_eq_false (Bool.eq_false_iff.2 hst)]
      · have hst := Sparse.stores_eq_false_of_outside ha (show a.rows ≤ r ∨ a.cols ≤ c by omega)
        simp only [hst, hin, if_false, Bool.false_eq_true, rows_sparse, cols_sparse]
        rfl

theorem entry_scale_dense (a : Dense) (alpha : Float) {r c : Nat} (hr : r < a.rows) (hc : c < a.cols) :
    ((Mat.dense a).scale alpha).entry r c = a.entry r c * alpha :=
  Dense.entry_scale a alpha hr hc

theorem entry_scale_sparse {a : Sparse} (ha : a.WellFormed) (alpha : Float) (r c : Nat) :
    ((Mat.sparse a).scale alpha).entry r c = if a.stores r c then alpha * a.entry r c else 0.0 :=
  Sparse.entry_scale ha alpha r c

/-- The diagonal of a scaled identity holds the factor, in either storage. -/
theorem entry_scale_identity_self {n i : Nat} (k : Storage) (alpha : Float) (hi : i < n) :
    ((identity n k).scale alpha).entry i i = alpha := by
  cases k with
  | dense =>
    rw [identity, entry_scale_dense _ _ hi hi, Dense.entry_identity hi hi, if_pos rfl, Float.one_mul]
  | sparse =>
    rw [identity, entry_scale_sparse (Sparse.wellFormed_identity n), Sparse.stores_identity,
      Sparse.entry_identity]
    simp [hi, Float.mul_one]

/-- Off its diagonal, a dense scaled identity holds `0.0 * alpha`, and a sparse one stores nothing. -/
theorem entry_scale_identity_of_ne {n i j : Nat} (k : Storage) (alpha : Float) (hi : i < n) (hj : j < n)
    (hij : i ≠ j) :
    ((identity n k).scale alpha).entry i j = if k = .dense then 0.0 * alpha else 0.0 := by
  cases k with
  | dense =>
    rw [identity, entry_scale_dense _ _ hi hj, Dense.entry_identity hi hj, if_neg hij]
    rfl
  | sparse =>
    rw [identity, entry_scale_sparse (Sparse.wellFormed_identity n), Sparse.stores_identity]
    simp [hij]

end Mat

end ConvexQp
