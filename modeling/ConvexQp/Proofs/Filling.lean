import Mathlib
import ConvexQp.Proofs.Conversion
/-! Filling a dense matrix and reading it back: a fill visits the cells in storage order, call `k`
at place `k`, so reading a matrix and filling a new one the same way gives it back. -/

namespace ConvexQp

/-- Numbering the places of `n` blocks of `k` in order is numbering the blocks and, in each block,
its places: place `i` is place `i % k` of block `i / k`. -/
theorem map_range_mul_div_mod {α : Type} (n k : Nat) (g : Nat → Nat → α) :
    (List.range (n * k)).map (fun i => g (i / k) (i % k)) =
      (List.range n).flatMap fun q => (List.range k).map (g q) := by
  induction n with
  | zero => simp
  | succ n ih =>
    rw [Nat.succ_mul, List.range_add, List.map_append, ih, List.range_succ, List.flatMap_append,
      List.flatMap_singleton, List.map_map]
    congr 1
    refine List.map_congr_left fun j hj => ?_
    have hj : j < k := List.mem_range.1 hj
    have hdiv : (n * k + j) / k = n := by
      rw [Nat.mul_comm, Nat.mul_add_div (by omega), Nat.div_eq_of_lt hj, Nat.add_zero]
    have hmod : (n * k + j) % k = j := by
      rw [Nat.mul_comm, Nat.mul_add_mod, Nat.mod_eq_of_lt hj]
    simp only [Function.comp_apply, hdiv, hmod]

namespace Dense

/-! ### The order of the cells -/

/-- Call `k` of a fill is made for row `k % rows` of column `k / rows`. -/
theorem storageOrder_eq (rows cols : Nat) :
    storageOrder rows cols = (List.range (rows * cols)).map fun k => (k % rows, k / rows) := by
  rw [Nat.mul_comm]
  exact (map_range_mul_div_mod cols rows fun c r => (r, c)).symm

@[simp] theorem length_storageOrder (rows cols : Nat) :
    (storageOrder rows cols).length = rows * cols := by
  simp [storageOrder_eq]

/-- The cells of a fill are the cells of the matrix. -/
theorem mem_storageOrder {rows cols r c : Nat} :
    (r, c) ∈ storageOrder rows cols ↔ r < rows ∧ c < cols := by
  simp only [storageOrder, List.mem_flatMap, List.mem_range, List.mem_map, Prod.mk.injEq]
  constructor
  · rintro ⟨c', hc', r', hr', rfl, rfl⟩
    exact ⟨hr', hc'⟩
  · rintro ⟨hr, hc⟩
    exact ⟨c, hc, r, hr, rfl, rfl⟩

/-- No cell is visited twice. -/
theorem nodup_storageOrder (rows cols : Nat) : (storageOrder rows cols).Nodup := by
  rw [storageOrder_eq]
  refine List.nodup_range.map_on fun i _ j _ hij => ?_
  obtain ⟨hmod, hdiv⟩ := Prod.mk.inj hij
  rw [← Nat.div_add_mod i rows, ← Nat.div_add_mod j rows, hmod, hdiv]

/-- The cell of call `k` is stored at place `k`. -/
theorem place_storageOrder (rows k : Nat) : k / rows * rows + k % rows = k :=
  Nat.div_add_mod' k rows

/-! ### Stateful fills -/

/-- The calls of a stateful function over a list of cells in order, each given the state the call
before it left: the values they give, and the last state. -/
def calls {σ : Type} (f : σ → Nat → Nat → Float × σ) : σ → List (Nat × Nat) → List Float × σ
  | s, [] => ([], s)
  | s, cell :: rest =>
    let out := f s cell.1 cell.2
    let next := calls f out.2 rest
    (out.1 :: next.1, next.2)

@[simp] theorem length_calls {σ : Type} (f : σ → Nat → Nat → Float × σ) (s : σ) (cs : List (Nat × Nat)) :
    (calls f s cs).1.length = cs.length := by
  induction cs generalizing s with
  | nil => rfl
  | cons cell rest ih => simp [calls, ih]

@[simp] theorem rows_write (a : Dense) (r c : Nat) (v : Float) : (a.write r c v).rows = a.rows := rfl

@[simp] theorem cols_write (a : Dense) (r c : Nat) (v : Float) : (a.write r c v).cols = a.cols := rfl

theorem getElem?_data_write (a : Dense) (r c : Nat) (v : Float) (i : Nat) :
    (a.write r c v).data[i]? =
      if c * a.rows + r = i then (if i < a.data.size then some v else none) else a.data[i]? := by
  simp only [write, Array.getElem?_setIfInBounds]
  split <;> simp_all

/-- The run of a fill over cells stored at consecutive places `j, j + 1, …`: the successive calls
write their values at these places, in order, and every other place keeps its value. -/
theorem foldl_fillStep {σ : Type} (f : σ → Nat → Nat → Float × σ) :
    ∀ (cs : List (Nat × Nat)) (j : Nat) (m : Dense) (s : σ),
      cs.map (fun cell => cell.2 * m.rows + cell.1) = List.range' j cs.length →
      j + cs.length ≤ m.data.size →
      (cs.foldl (fillStep f) (m, s)).1.rows = m.rows ∧
      (cs.foldl (fillStep f) (m, s)).1.cols = m.cols ∧
      (cs.foldl (fillStep f) (m, s)).2 = (calls f s cs).2 ∧
      ∀ i, (cs.foldl (fillStep f) (m, s)).1.data[i]? =
        if j ≤ i ∧ i < j + cs.length then (calls f s cs).1[i - j]? else m.data[i]? := by
  intro cs
  induction cs with
  | nil => intro j m s _ _; simp [calls]
  | cons cell rest ih =>
    intro j m s hplaces hfit
    rw [List.length_cons, List.range'_succ, List.map_cons, List.cons.injEq] at hplaces
    obtain ⟨hcell, hrest⟩ := hplaces
    simp only [List.length_cons] at hfit
    let out := f s cell.1 cell.2
    let m' := m.write cell.1 cell.2 out.1
    have hsize : m'.data.size = m.data.size := by simp [m', write]
    obtain ⟨hrows, hcols, hstate, hdata⟩ := ih (j + 1) m' out.2 (by simpa [m'] using hrest)
      (by rw [hsize]; omega)
    refine ⟨hrows, hcols, hstate, fun i => ?_⟩
    rw [List.foldl_cons, show fillStep f (m, s) cell = (m', out.2) from rfl, hdata i,
      getElem?_data_write, hcell]
    simp only [calls, List.length_cons]
    by_cases hlow : i < j
    · simp [show ¬(j + 1 ≤ i) by omega, show j ≠ i by omega, show ¬(j ≤ i) by omega]
    · by_cases hj : i = j
      · subst hj
        simp [show i < m.data.size by omega, out]
      · have hidx : i - j = (i - (j + 1)) + 1 := by omega
        simp only [show j + 1 ≤ i by omega, show j ≤ i by omega, show j ≠ i from Ne.symm hj,
          true_and, if_false, hidx, List.getElem?_cons_succ]
        by_cases hhigh : i < j + 1 + rest.length
        · rw [if_pos hhigh, if_pos (by omega)]
        · rw [if_neg hhigh, if_neg (by omega)]

/-- A stateful fill stores the value of its `k`-th call at place `k` and ends in the state of its
last call. -/
theorem fillByState_eq_calls {σ : Type} (a : Dense) (f : σ → Nat → Nat → Float × σ) (s : σ) :
    (a.fillByState f s).1.data.toList = (calls f s (storageOrder a.rows a.cols)).1 ∧
      (a.fillByState f s).2 = (calls f s (storageOrder a.rows a.cols)).2 := by
  have hplaces : (storageOrder a.rows a.cols).map (fun cell => cell.2 * a.rows + cell.1) =
      List.range' 0 (storageOrder a.rows a.cols).length := by
    rw [length_storageOrder, storageOrder_eq, List.map_map, ← List.range_eq_range']
    conv_rhs => rw [← List.map_id (List.range (a.rows * a.cols))]
    exact List.map_congr_left fun k _ => place_storageOrder a.rows k
  obtain ⟨-, -, hstate, hdata⟩ := foldl_fillStep f _ 0 a s hplaces
    (by rw [length_storageOrder, a.size_data]; omega)
  refine ⟨List.ext_getElem? fun i => ?_, hstate⟩
  rw [Array.getElem?_toList]
  unfold fillByState
  rw [hdata i, length_storageOrder, Nat.sub_zero]
  split
  · rfl
  · rename_i hout
    have hbeyond : a.rows * a.cols ≤ i := by omega
    rw [Array.getElem?_eq_none (by rw [a.size_data]; exact hbeyond),
      List.getElem?_eq_none (by rw [length_calls, length_storageOrder]; exact hbeyond)]

/-! ### Fills from a list of values, and reading back -/

theorem getElem?_data_ofFn (rows cols : Nat) (f : Nat → Nat → Float) (i : Nat) :
    (ofFn rows cols f).data[i]? = if i < rows * cols then some (f (i % rows) (i / rows)) else none := by
  simp only [ofFn, Array.getElem?_ofFn]
  split <;> rfl

/-- Place `i` of a matrix with `rows` rows and `cols` columns, `i < rows * cols`, holds a cell of
it. -/
theorem cell_lt {rows cols i : Nat} (hi : i < rows * cols) : i % rows < rows ∧ i / rows < cols :=
  ⟨Nat.mod_lt i (Nat.pos_of_ne_zero fun h => by simp [h] at hi), Nat.div_lt_of_lt_mul hi⟩

/-- Filling a new matrix by columns stores the first values, as many as it has cells, then `0.0`
where the values run out. -/
theorem data_fillColMajor_zeros (rows cols : Nat) (xs : Array Float) :
    ((zeros rows cols).fillColMajor xs).data =
      xs.extract 0 (rows * cols) ++ Array.replicate (rows * cols - xs.size) 0.0 := by
  have hfront : (xs.extract 0 (rows * cols)).size = min (rows * cols) xs.size := by
    simp [Array.size_extract]
  refine Array.ext_getElem? fun i => ?_
  rw [fillColMajor, getElem?_data_ofFn, rows_zeros, cols_zeros]
  by_cases hi : i < rows * cols
  · obtain ⟨hr, hc⟩ := cell_lt hi
    rw [if_pos hi, place_storageOrder, entry_zeros hr hc, Array.getD_eq_getD_getElem?]
    by_cases hx : i < xs.size
    · rw [Array.getElem?_append_left (by omega), Array.getElem?_extract, if_pos (by omega),
        Nat.zero_add, Array.getElem?_eq_getElem hx, Option.getD_some]
    · rw [Array.getElem?_append_right (by omega), Array.getElem?_replicate, if_pos (by omega),
        Array.getElem?_eq_none (by omega), Option.getD_none]
  · rw [if_neg hi, Array.getElem?_eq_none]
    simp only [Array.size_append, hfront, Array.size_replicate]
    omega

/-- Filling a new matrix by rows puts value `r * cols + c` at row `r` and column `c`, and `0.0`
where the values run out. -/
theorem entry_fillRowMajor_zeros {rows cols r c : Nat} (xs : Array Float) (hr : r < rows)
    (hc : c < cols) : ((zeros rows cols).fillRowMajor xs).entry r c = xs.getD (r * cols + c) 0.0 := by
  rw [fillRowMajor, entry_ofFn _ (by simpa using hr) (by simpa using hc), entry_zeros hr hc, cols_zeros]

theorem getElem?_toRowMajor (a : Dense) (k : Nat) :
    a.toRowMajor[k]? = if k < a.rows * a.cols then some (a.entry (k / a.cols) (k % a.cols)) else none := by
  simp only [toRowMajor, Array.getElem?_ofFn]
  split <;> rfl

/-- Reading a matrix by rows lists its rows one after the other. -/
theorem toRowMajor_eq_flatMap_row (a : Dense) :
    a.toRowMajor.toList = (List.range a.rows).flatMap fun r => (a.row r).toList := by
  have hrow : ∀ r, (a.row r).toList = (List.range a.cols).map (a.entry r) := fun r =>
    List.ext_getElem (by simp [row]) fun j _ _ => by simp [row]
  have hall : a.toRowMajor.toList =
      (List.range (a.rows * a.cols)).map fun k => a.entry (k / a.cols) (k % a.cols) :=
    List.ext_getElem? fun k => by
      rw [Array.getElem?_toList, getElem?_toRowMajor, List.getElem?_map]
      by_cases hk : k < a.rows * a.cols
      · simp [hk]
      · simp [hk]
  rw [hall, map_range_mul_div_mod]
  simp only [hrow]

/-- Filling a new matrix of a matrix's shape by rows from its reading by rows gives it back. -/
theorem fillRowMajor_toRowMajor (a : Dense) : (zeros a.rows a.cols).fillRowMajor a.toRowMajor = a := by
  refine ext_entry rfl rfl fun r (hr : r < a.rows) c (hc : c < a.cols) => ?_
  have hk : r * a.cols + c < a.rows * a.cols := by
    rw [Nat.mul_comm a.rows]
    exact index_lt hc hr
  have hdiv : (r * a.cols + c) / a.cols = r := index_div r hc
  have hmod : (r * a.cols + c) % a.cols = c := index_mod r hc
  rw [entry_fillRowMajor_zeros _ hr hc, Array.getD_eq_getD_getElem?, getElem?_toRowMajor, if_pos hk,
    hdiv, hmod, Option.getD_some]

/-- Reading by rows a matrix filled by rows from as many values as it has cells gives them back. -/
theorem toRowMajor_fillRowMajor {rows cols : Nat} {xs : Array Float} (hxs : xs.size = rows * cols) :
    ((zeros rows cols).fillRowMajor xs).toRowMajor = xs := by
  refine Array.ext_getElem? fun k => ?_
  rw [getElem?_toRowMajor, rows_fillRowMajor, cols_fillRowMajor, rows_zeros, cols_zeros]
  by_cases hk : k < rows * cols
  · have hc : 0 < cols := Nat.pos_of_ne_zero fun h => by simp [h] at hk
    have hr : k / cols < rows := Nat.div_lt_of_lt_mul (by rwa [Nat.mul_comm] at hk)
    rw [if_pos hk, entry_fillRowMajor_zeros _ hr (Nat.mod_lt k hc), Nat.div_add_mod',
      Array.getD_eq_getD_getElem?, Array.getElem?_eq_getElem (hxs ▸ hk), Option.getD_some]
  · rw [if_neg hk, Array.getElem?_eq_none (by omega)]

/-- Filling a new matrix of a matrix's shape by columns from its storage gives it back. -/
theorem fillColMajor_data (a : Dense) : (zeros a.rows a.cols).fillColMajor a.data = a := by
  refine ext_entry rfl rfl fun r (hr : r < a.rows) c (hc : c < a.cols) => ?_
  have hi : c * a.rows + r < a.data.size := by
    rw [a.size_data]
    exact index_lt hr hc
  simp only [fillColMajor, rows_zeros, cols_zeros]
  rw [entry_ofFn _ hr hc, show a.entry r c = a.data.getD (c * a.rows + r) 0.0 from rfl]
  simp only [Array.getD_eq_getD_getElem?, Array.getElem?_eq_getElem hi, Option.getD_some]

/-- The storage of a matrix filled by columns from as many values as it has cells is those values. -/
theorem data_fillColMajor {rows cols : Nat} {xs : Array Float} (hxs : xs.size = rows * cols) :
    ((zeros rows cols).fillColMajor xs).data = xs := by
  rw [data_fillColMajor_zeros, ← hxs, Nat.sub_self, Array.extract_eq_self_iff.2 (.inr ⟨rfl, le_rfl⟩)]
  simp

end Dense

/-- Fills and reads of dense matrices: a fill by columns or rows stores the values given and `0.0`
past them, a stateful fill stores call `k` at place `k`, and reading then filling gives back. -/
theorem fills_round_trip (rows cols : Nat) (xs : Array Float) (a : Dense) {σ : Type}
    (f : σ → Nat → Nat → Float × σ) (s : σ) :
    ((Dense.zeros rows cols).fillColMajor xs).data =
        xs.extract 0 (rows * cols) ++ Array.replicate (rows * cols - xs.size) 0.0 ∧
      (∀ r < rows, ∀ c < cols,
        ((Dense.zeros rows cols).fillRowMajor xs).entry r c = xs.getD (r * cols + c) 0.0) ∧
      Dense.storageOrder a.rows a.cols =
        (List.range (a.rows * a.cols)).map (fun k => (k % a.rows, k / a.rows)) ∧
      (Dense.storageOrder a.rows a.cols).Nodup ∧
      (∀ r c, (r, c) ∈ Dense.storageOrder a.rows a.cols ↔ r < a.rows ∧ c < a.cols) ∧
      (a.fillByState f s).1.data.toList = (Dense.calls f s (Dense.storageOrder a.rows a.cols)).1 ∧
      (a.fillByState f s).2 = (Dense.calls f s (Dense.storageOrder a.rows a.cols)).2 ∧
      a.toRowMajor.toList = (List.range a.rows).flatMap (fun r => (a.row r).toList) ∧
      (Dense.zeros a.rows a.cols).fillRowMajor a.toRowMajor = a ∧
      (xs.size = rows * cols → ((Dense.zeros rows cols).fillRowMajor xs).toRowMajor = xs) ∧
      (Dense.zeros a.rows a.cols).fillColMajor a.data = a ∧
      (xs.size = rows * cols → ((Dense.zeros rows cols).fillColMajor xs).data = xs) :=
  ⟨Dense.data_fillColMajor_zeros rows cols xs,
    fun _ hr _ hc => Dense.entry_fillRowMajor_zeros xs hr hc,
    Dense.storageOrder_eq a.rows a.cols, Dense.nodup_storageOrder a.rows a.cols,
    fun _ _ => Dense.mem_storageOrder, (Dense.fillByState_eq_calls a f s).1,
    (Dense.fillByState_eq_calls a f s).2, Dense.toRowMajor_eq_flatMap_row a,
    Dense.fillRowMajor_toRowMajor a, Dense.toRowMajor_fillRowMajor, Dense.fillColMajor_data a,
    Dense.data_fillColMajor⟩

/-- The values `1, …, 6` filled by rows into a new `2 × 3` matrix read back by rows, and are stored
by columns as `1, 4, 2, 5, 3, 6`. -/
theorem fills_round_trip_at_two_by_three :
    let xs : Array Float := #[1.0, 2.0, 3.0, 4.0, 5.0, 6.0]
    xs.size = 2 * 3 ∧ ((Dense.zeros 2 3).fillRowMajor xs).toRowMajor = xs ∧
      ((Dense.zeros 2 3).fillRowMajor xs).data = #[1.0, 4.0, 2.0, 5.0, 3.0, 6.0] := by
  intro xs
  have hsize : xs.size = 2 * 3 := rfl
  have h := fills_round_trip 2 3 xs (Dense.zeros 2 3) (fun (x : Float) _ _ => (x, x + 1.0)) 0.0
  exact ⟨hsize, h.2.2.2.2.2.2.2.2.2.1 hsize, by decide +kernel⟩

end ConvexQp
