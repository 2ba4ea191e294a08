import Mathlib
import ConvexQp.Proofs.SortPermutation
/-! Sorting puts the array in order: each part of the method leaves the array alone outside its
slice (`Frame`) and the slice `Ordered` by the keys that `lt` compares. -/

namespace ConvexQp

namespace Quicksort

variable {α β : Type} [Inhabited α] [LinearOrder β]

/-! ### Slices -/

/-- The keys of the slice `[lo, hi)` ascend. -/
def Ordered (key : α → β) (a : Array α) (lo hi : Nat) : Prop :=
  ∀ i j, lo ≤ i → i < j → j < hi → key a[i]! ≤ key a[j]!

/-- `b` has the size of `a` and its elements outside the slice `[lo, hi)`. -/
structure Frame (a b : Array α) (lo hi : Nat) : Prop where
  size : b.size = a.size
  outside : ∀ i, i < lo ∨ hi ≤ i → b[i]! = a[i]!

variable {key : α → β} {a b c : Array α} {lo hi : Nat}

theorem Frame.refl (a : Array α) (lo hi : Nat) : Frame a a lo hi := ⟨rfl, fun _ _ => rfl⟩

theorem Frame.trans (hab : Frame a b lo hi) (hbc : Frame b c lo hi) : Frame a c lo hi :=
  ⟨hbc.size.trans hab.size, fun i hi => (hbc.outside i hi).trans (hab.outside i hi)⟩

theorem Frame.widen (h : Frame a b lo hi) {lo' hi' : Nat} (hlo : lo' ≤ lo) (hhi : hi ≤ hi') :
    Frame a b lo' hi' :=
  ⟨h.size, fun i hi => h.outside i (by omega)⟩

theorem frame_set! {i : Nat} (x : α) (hlo : lo ≤ i) (hih : i < hi) : Frame a (a.set! i x) lo hi :=
  ⟨Array.size_set! .., fun _ hj => Array.getElem!_set!_ne _ _ _ _ (by omega)⟩

theorem getElem!_swapIfInBounds {i j : Nat} (hia : i < a.size) (hja : j < a.size) (k : Nat) :
    (a.swapIfInBounds i j)[k]! = if k = i then a[j]! else if k = j then a[i]! else a[k]! := by
  by_cases hk : k < a.size
  · rw [getElem!_pos _ k (by simpa using hk), Array.getElem_swapIfInBounds]
    by_cases hki : k = i
    · subst hki
      simp [hja]
    · by_cases hkj : k = j
      · subst hkj
        simp [hia, hki]
      · simp [hki, hkj, hk]
  · have hki : k ≠ i := by omega
    have hkj : k ≠ j := by omega
    rw [getElem!_neg _ k (by simpa using hk), if_neg hki, if_neg hkj, getElem!_neg _ k hk]

theorem frame_swapIfInBounds {i j : Nat} (hi' : lo ≤ i ∧ i < hi) (hj' : lo ≤ j ∧ j < hi) :
    Frame a (a.swapIfInBounds i j) lo hi := by
  refine ⟨by simp, fun k hk => ?_⟩
  by_cases hsize : i < a.size ∧ j < a.size
  · rw [getElem!_swapIfInBounds hsize.1 hsize.2, if_neg (by omega), if_neg (by omega)]
  · have hsame : a.swapIfInBounds i j = a := by
      rw [Array.swapIfInBounds_def]
      split_ifs with h₁ h₂
      · exact absurd ⟨h₁, h₂⟩ hsize
      · rfl
      · rfl
    rw [hsame]

/-- The elements of a slice of a permutation that keeps everything outside the slice come from the
same slice. -/
theorem exists_of_perm_frame (hp : b.Perm a) (hf : Frame a b lo hi) (hhi : hi ≤ a.size) {i : Nat}
    (hloi : lo ≤ i) (hih : i < hi) : ∃ j, lo ≤ j ∧ j < hi ∧ b[i]! = a[j]! := by
  set L := a.toList
  set M := b.toList
  have hsize : b.size = a.size := hf.size
  have hsplit : ∀ l : List α, l = l.take lo ++ (l.take hi).drop lo ++ l.drop hi := by
    intro l
    have h := List.take_append_drop lo (l.take hi)
    rw [List.take_take, Nat.min_eq_left (by omega)] at h
    rw [h, List.take_append_drop]
  have hfront : M.take lo = L.take lo := by
    apply List.ext_getElem (by simp [L, M, hsize])
    intro k hk _
    simp only [List.getElem_take, L, M, Array.getElem_toList]
    have hk' : k < lo ∧ k < b.size := by simpa [M] using hk
    rw [← getElem!_pos b k hk'.2, ← getElem!_pos a k (by omega), hf.outside k (.inl hk'.1)]
  have hback : M.drop hi = L.drop hi := by
    apply List.ext_getElem (by simp [L, M, hsize])
    intro k hk _
    simp only [List.getElem_drop, L, M, Array.getElem_toList]
    have hk' : hi + k < b.size := by simp [M] at hk; omega
    rw [← getElem!_pos b _ hk', ← getElem!_pos a _ (by omega), hf.outside _ (.inr (by omega))]
  have hmid : ((M.take hi).drop lo).Perm ((L.take hi).drop lo) := by
    have hML : M.Perm L := Array.perm_iff_toList_perm.1 hp
    rw [hsplit M, hsplit L, hfront, hback, List.perm_append_right_iff, List.perm_append_left_iff]
      at hML
    exact hML
  have hmem : b[i]! ∈ (M.take hi).drop lo := by
    rw [List.mem_iff_getElem]
    refine ⟨i - lo, by simp [M]; omega, ?_⟩
    simp only [List.getElem_drop, List.getElem_take, M, Array.getElem_toList]
    rw [getElem!_pos b i (by omega)]
    congr 1
    omega
  obtain ⟨k, hk, hget⟩ := List.mem_iff_getElem.1 (hmid.mem_iff.1 hmem)
  have hk' : lo + k < hi := by simp [L] at hk; omega
  refine ⟨lo + k, by omega, hk', ?_⟩
  simp only [List.getElem_drop, List.getElem_take, L, Array.getElem_toList] at hget
  rw [← hget, getElem!_pos a _ (by omega)]

/-- Every element of a slice that a permutation rearranges without touching the rest satisfies what
all elements of the slice satisfied before. -/
theorem forall_of_perm_frame (hp : b.Perm a) (hf : Frame a b lo hi) (hhi : hi ≤ a.size)
    {P : α → Prop} (ha : ∀ j, lo ≤ j → j < hi → P a[j]!) : ∀ i, lo ≤ i → i < hi → P b[i]! := by
  intro i hloi hih
  obtain ⟨j, hlj, hjh, hij⟩ := exists_of_perm_frame hp hf hhi hloi hih
  rw [hij]
  exact ha j hlj hjh

theorem Ordered.congr (h : Ordered key a lo hi) (hab : ∀ i, lo ≤ i → i < hi → b[i]! = a[i]!) :
    Ordered key b lo hi := by
  intro i j hli hij hj
  rw [hab i hli (by omega), hab j (by omega) hj]
  exact h i j hli hij hj

theorem Ordered.mono (h : Ordered key a lo hi) {lo' hi' : Nat} (hlo : lo ≤ lo') (hhi : hi' ≤ hi) :
    Ordered key a lo' hi' :=
  fun i j hli hij hj => h i j (by omega) hij (by omega)

theorem ordered_of_le_one (a : Array α) (h : hi ≤ lo + 1) : Ordered key a lo hi := by
  intro i j hli hij hj
  omega

/-- Two ordered slices side by side, every key of the first at most every key of the second, make
one ordered slice. -/
theorem Ordered.append {m : Nat} (h₁ : Ordered key a lo m) (h₂ : Ordered key a m hi)
    (hle : ∀ i j, lo ≤ i → i < m → m ≤ j → j < hi → key a[i]! ≤ key a[j]!) :
    Ordered key a lo hi := by
  intro i j hli hij hj
  by_cases him : i < m
  · by_cases hjm : j < m
    · exact h₁ i j hli hij hjm
    · exact hle i j hli him (by omega) hj
  · exact h₂ i j (by omega) hij hj

/-- An ordered slice followed by an element whose key is at least every key of the slice. -/
theorem Ordered.push (h : Ordered key a lo hi) (hle : ∀ i, lo ≤ i → i < hi → key a[i]! ≤ key a[hi]!) :
    Ordered key a lo (hi + 1) :=
  h.append (ordered_of_le_one a le_rfl) fun i j hli him hmj hj => by
    rw [show j = hi by omega]
    exact hle i hli him

/-- A slice whose keys ascend from each element to the next is ordered. -/
theorem ordered_of_succ (h : ∀ i, lo ≤ i → i + 1 < hi → key a[i]! ≤ key a[i + 1]!) :
    Ordered key a lo hi := by
  intro i j hli hij hj
  induction j, hij using Nat.le_induction with
  | base => exact h i hli hj
  | succ j hij ih => exact (ih (by omega)).trans (h j (by omega) hj)

/-! ### Insertion sort -/

section Insertion

variable {lt : α → α → Bool}

/-- Sinking an element from the hole at `gap` into the ordered part `[lo, gap)` before it orders
`[lo, gap]` and leaves the rest alone. -/
theorem sink_ordered (hlt : ∀ x y, lt x y = decide (key x < key y)) (x : α) {gap : Nat}
    (a : Array α) (hlo : lo ≤ gap) (hgap : gap < a.size) (ha : Ordered key a lo gap) :
    Frame a (sink lt lo x a gap) lo (gap + 1) ∧ Ordered key (sink lt lo x a gap) lo (gap + 1) := by
  induction gap generalizing a with
  | zero => exact ⟨frame_set! x hlo (by omega), ordered_of_le_one _ (by omega)⟩
  | succ gap ih =>
    rw [sink]
    split
    · rename_i hshift
      simp only [Bool.and_eq_true, decide_eq_true_eq, hlt] at hshift
      obtain ⟨hlg, hxg⟩ := hshift
      set a' := a.set! (gap + 1) a[gap]!
      have hsize : a'.size = a.size := Array.size_set! ..
      have ha' : Ordered key a' lo gap :=
        (ha.mono le_rfl (by omega)).congr fun i _ hi => Array.getElem!_set!_ne _ _ _ _ (by omega)
      obtain ⟨hframe, hord⟩ := ih a' hlg (by omega) ha'
      set r := sink lt lo x a' gap
      have htop : r[gap + 1]! = a[gap]! := by
        rw [hframe.outside _ (.inr le_rfl), Array.getElem!_set!_self _ _ _ hgap]
      have hbelow : ∀ i, lo ≤ i → i < gap + 1 → key r[i]! ≤ key a[gap]! := by
        have hperm := sink_perm lt lo x a' (show gap < a'.size by omega)
        have hf : Frame (a'.set! gap x) r lo (gap + 1) :=
          ⟨hperm.size_eq, fun i hi => by
            rw [hframe.outside i hi, Array.getElem!_set!_ne a' gap i x (by omega)]⟩
        refine forall_of_perm_frame (P := fun e => key e ≤ key a[gap]!) hperm hf (by simp; omega)
          fun j hlj hjg => ?_
        by_cases hjx : j = gap
        · rw [hjx, Array.getElem!_set!_self _ _ _ (by omega)]
          exact le_of_lt hxg
        · rw [Array.getElem!_set!_ne _ _ _ _ (Ne.symm hjx), Array.getElem!_set!_ne _ _ _ _ (by omega)]
          exact ha j gap hlj (by omega) (by omega)
      refine ⟨(frame_set! _ (by omega) (by omega)).trans (hframe.widen le_rfl (by omega)), ?_⟩
      exact hord.push fun i hi hig => htop ▸ hbelow i hi hig
    · rename_i hstay
      refine ⟨frame_set! x (by omega) (by omega), ?_⟩
      have hrest : Ordered key (a.set! (gap + 1) x) lo (gap + 1) :=
        ha.congr fun i _ hi => Array.getElem!_set!_ne _ _ _ _ (by omega)
      refine hrest.push fun i hli hig => ?_
      rw [Array.getElem!_set!_self _ _ _ hgap, Array.getElem!_set!_ne _ _ _ _ (by omega)]
      have hlast : key a[gap]! ≤ key x := by
        simpa [hlt, show lo ≤ gap by omega] using hstay
      by_cases hig' : i = gap
      · exact hig' ▸ hlast
      · exact (ha i gap hli (by omega) (by omega)).trans hlast

theorem insertionSort_ordered (hlt : ∀ x y, lt x y = decide (key x < key y)) (a : Array α)
    (hhi : hi ≤ a.size) :
    Frame a (insertionSort lt a lo hi) lo hi ∧ Ordered key (insertionSort lt a lo hi) lo hi := by
  have hfold : ∀ len k (b : Array α), lo < k → k + len ≤ a.size → Frame a b lo k →
      Ordered key b lo k →
      Frame a ((List.range' k len).foldl (fun b i => sink lt lo b[i]! b i) b) lo (k + len) ∧
        Ordered key ((List.range' k len).foldl (fun b i => sink lt lo b[i]! b i) b) lo (k + len) := by
    intro len
    induction len with
    | zero => exact fun k b _ _ hf ho => ⟨hf, ho⟩
    | succ len ih =>
      intro k b hk hlen hf ho
      obtain ⟨hf', ho'⟩ := sink_ordered hlt b[k]! b (by omega) (by rw [hf.size]; omega) ho
      rw [List.range'_succ, List.foldl_cons, show k + (len + 1) = k + 1 + len by omega]
      exact ih (k + 1) _ (by omega) (by omega) (hf.widen le_rfl (by omega) |>.trans hf') ho'
  unfold insertionSort
  by_cases hshort : hi ≤ lo + 1
  · rw [show hi - (lo + 1) = 0 by omega, List.range'_zero, List.foldl_nil]
    exact ⟨Frame.refl a lo hi, ordered_of_le_one a hshort⟩
  · have h := hfold (hi - (lo + 1)) (lo + 1) a (by omega) (by omega) (Frame.refl a lo _)
      (ordered_of_le_one a le_rfl)
    rwa [show lo + 1 + (hi - (lo + 1)) = hi by omega] at h

end Insertion

/-! ### Heapsort -/

section Heap

variable {lt : α → α → Bool}

/-- The `len` elements from `lo` form a heap as far as the parents from node `top` on go: no child's
key is above its parent's, the parent of node `c > 0` being node `(c - 1) / 2`. -/
def IsHeap (key : α → β) (a : Array α) (lo len top : Nat) : Prop :=
  ∀ c, 0 < c → c < len → top ≤ (c - 1) / 2 → key a[lo + c]! ≤ key a[lo + (c - 1) / 2]!

/-- The heap while the element at `node` sinks: every parent from `top` on other than `node` is at
least its children, and below `top` the children of `node` are at most the parent of `node`. -/
structure SiftInv (key : α → β) (a : Array α) (lo len top node : Nat) : Prop where
  others : ∀ c, 0 < c → c < len → top ≤ (c - 1) / 2 → (c - 1) / 2 ≠ node →
    key a[lo + c]! ≤ key a[lo + (c - 1) / 2]!
  below : node ≠ top → top ≤ (node - 1) / 2 ∧
    ∀ c, 0 < c → c < len → (c - 1) / 2 = node → key a[lo + c]! ≤ key a[lo + (node - 1) / 2]!

/-- The child that `siftDown` compares with `node`: the greater of its children. -/
theorem siftDown_child (hlt : ∀ x y, lt x y = decide (key x < key y)) (a : Array α) {lo len node : Nat}
    (h : 2 * node + 1 < len) (child : Nat)
    (hchild : child = if 2 * node + 2 < len && lt a[lo + 2 * node + 1]! a[lo + 2 * node + 2]! then
      2 * node + 2 else 2 * node + 1) :
    child < len ∧ 0 < child ∧ (child - 1) / 2 = node ∧
      ∀ c, 0 < c → c < len → (c - 1) / 2 = node → key a[lo + c]! ≤ key a[lo + child]! := by
  have hchildren : ∀ c, 0 < c → (c - 1) / 2 = node → c = 2 * node + 1 ∨ c = 2 * node + 2 := by
    intro c hc hpar
    omega
  by_cases hright : 2 * node + 2 < len ∧ key a[lo + 2 * node + 1]! < key a[lo + 2 * node + 2]!
  · have hc : child = 2 * node + 2 := by simp [hchild, hlt, hright]
    refine ⟨by omega, by omega, by omega, fun c hc0 hcl hpar => ?_⟩
    rcases hchildren c hc0 hpar with rfl | rfl
    · rw [hc]
      exact le_of_lt hright.2
    · rw [hc]
  · have hc : child = 2 * node + 1 := by
      simp only [hchild, hlt, Bool.and_eq_true, decide_eq_true_eq]
      rw [if_neg hright]
    refine ⟨by omega, by omega, by omega, fun c hc0 hcl hpar => ?_⟩
    rcases hchildren c hc0 hpar with rfl | rfl
    · rw [hc]
    · rw [hc]
      exact not_lt.1 fun h => hright ⟨hcl, h⟩

/-- Sinking the element at `node` restores the heap, touching only the heap. -/
theorem siftDown_heap (hlt : ∀ x y, lt x y = decide (key x < key y)) {lo len top : Nat}
    (a : Array α) (node : Nat) (hsize : lo + len ≤ a.size) (htop : top ≤ node)
    (hinv : SiftInv key a lo len top node) :
    IsHeap key (siftDown lt lo len a node) lo len top ∧
      Frame a (siftDown lt lo len a node) lo (lo + len) := by
  fun_induction siftDown lt lo len a node with
  | case1 a node hnode child hswap ih =>
    obtain ⟨hcl, hc0, hcpar, hmax⟩ := siftDown_child hlt a hnode child rfl
    simp only [hlt, decide_eq_true_eq] at hswap
    set a' := a.swapIfInBounds (lo + node) (lo + child)
    have hget := getElem!_swapIfInBounds (a := a) (i := lo + node) (j := lo + child) (by omega)
      (by omega)
    have hp : a'[lo + node]! = a[lo + child]! := by rw [hget, if_pos rfl]
    have hq : a'[lo + child]! = a[lo + node]! := by rw [hget, if_neg (by omega), if_pos rfl]
    have hother : ∀ k, k ≠ lo + node → k ≠ lo + child → a'[k]! = a[k]! := fun k h₁ h₂ => by
      rw [hget, if_neg h₁, if_neg h₂]
    have hinv' : SiftInv key a' lo len top child := by
      constructor
      · intro c hc0 hcl' htc hpc
        by_cases hpn : (c - 1) / 2 = node
        · rw [hpn, hp]
          by_cases hcc : c = child
          · rw [hcc, hq]
            exact le_of_lt hswap
          · rw [hother (lo + c) (by omega) (by omega)]
            exact hmax c hc0 hcl' hpn
        · rw [hother (lo + (c - 1) / 2) (by omega) (by omega)]
          by_cases hcn : c = node
          · subst hcn
            rw [hp]
            exact (hinv.below (by omega)).2 child hc0 hcl hcpar
          · rw [hother (lo + c) (by omega) (by omega)]
            exact hinv.others c hc0 hcl' htc hpn
      · intro _
        refine ⟨by omega, fun c hc0 hcl' hpc => ?_⟩
        rw [hcpar, hp, hother (lo + c) (by omega) (by omega), ← hpc]
        exact hinv.others c hc0 hcl' (by omega) (by omega)
    obtain ⟨hheap, hframe⟩ := ih (by simpa [a'] using hsize) (by omega) hinv'
    exact ⟨hheap, (frame_swapIfInBounds (by omega) (by omega)).trans hframe⟩
  | case2 a node hnode child hstay =>
    obtain ⟨hcl, hc0, hcpar, hmax⟩ := siftDown_child hlt a hnode child rfl
    simp only [hlt, decide_eq_true_eq, not_lt] at hstay
    refine ⟨fun c hc0 hcl' htc => ?_, Frame.refl a _ _⟩
    by_cases hpn : (c - 1) / 2 = node
    · rw [hpn]
      exact (hmax c hc0 hcl' hpn).trans hstay
    · exact hinv.others c hc0 hcl' htc hpn
  | case3 a node hnode =>
    refine ⟨fun c hc0 hcl htc => hinv.others c hc0 hcl htc (by omega), Frame.refl a _ _⟩

/-- The top of a heap holds a greatest key. -/
theorem IsHeap.le_top {lo len : Nat} (h : IsHeap key a lo len 0) :
    ∀ c, c < len → key a[lo + c]! ≤ key a[lo]! := by
  intro c
  induction c using Nat.strong_induction_on with
  | _ c ih =>
    intro hc
    rcases Nat.eq_zero_or_pos c with rfl | hpos
    · exact le_rfl
    · exact (h c hpos hc (Nat.zero_le _)).trans (ih _ (by omega) (by omega))

theorem heapsort_ordered (hlt : ∀ x y, lt x y = decide (key x < key y)) (a : Array α)
    (hlohi : lo ≤ hi) (hhi : hi ≤ a.size) :
    Frame a (heapsort lt a lo hi) lo hi ∧ Ordered key (heapsort lt a lo hi) lo hi := by
  set n := hi - lo with hn
  set f : Array α → Nat → Array α := fun a i =>
    if n ≤ i then siftDown lt lo n a (i - n) else siftDown lt lo i (a.swapIfInBounds lo (lo + i)) 0
  have hbuild : ∀ j, j ≤ n / 2 → ∀ b : Array α, Frame a b lo hi → IsHeap key b lo n j →
      Frame a (((List.range j).map (n + ·)).reverse.foldl f b) lo hi ∧
        IsHeap key (((List.range j).map (n + ·)).reverse.foldl f b) lo n 0 := by
    intro j
    induction j with
    | zero => exact fun _ b hf hb => ⟨hf, fun c hc0 hcl _ => hb c hc0 hcl (Nat.zero_le _)⟩
    | succ j ih =>
      intro hj b hf hb
      have hstep : f b (n + j) = siftDown lt lo n b j := by
        simp [f]
      have hinv : SiftInv key b lo n j j :=
        ⟨fun c hc0 hcl hjc hcj => hb c hc0 hcl (by omega), fun h => absurd rfl h⟩
      obtain ⟨hheap, hframe⟩ := siftDown_heap hlt b j (by rw [hf.size]; omega) le_rfl hinv
      rw [List.range_succ, List.map_append, List.reverse_append, List.map_singleton,
        List.reverse_singleton, List.singleton_append, List.foldl_cons, hstep]
      exact ih (by omega) _ (hf.trans (hframe.widen le_rfl (by omega)))
        fun c hc0 hcl hjc => hheap c hc0 hcl (by omega)
  have htake : ∀ i, i ≤ n → ∀ b : Array α, Frame a b lo hi → IsHeap key b lo i 0 →
      Ordered key b (lo + i) hi →
      (∀ x y, lo ≤ x → x < lo + i → lo + i ≤ y → y < hi → key b[x]! ≤ key b[y]!) →
      Frame a ((List.range i).reverse.foldl f b) lo hi ∧
        Ordered key ((List.range i).reverse.foldl f b) lo hi := by
    intro i
    induction i with
    | zero => exact fun _ b hf _ ho _ => ⟨hf, by simpa using ho⟩
    | succ i ih =>
      intro hin b hf hheap hord hcross
      have hsize : b.size = a.size := hf.size
      have hstep : f b i = siftDown lt lo i (b.swapIfInBounds lo (lo + i)) 0 := by
        simp [f, show ¬n ≤ i by omega]
      set sw := b.swapIfInBounds lo (lo + i)
      have hget : ∀ k, sw[k]! = if k = lo then b[lo + i]! else if k = lo + i then b[lo]! else b[k]! :=
        getElem!_swapIfInBounds (by omega) (by omega)
      have htop := hheap.le_top
      have hinv : SiftInv key sw lo i 0 0 := by
        refine ⟨fun k hk0 hki _ hpk => ?_, fun h => absurd rfl h⟩
        rw [hget, hget, if_neg (by omega), if_neg (by omega), if_neg (by omega), if_neg (by omega)]
        exact hheap k hk0 (by omega) (Nat.zero_le _)
      obtain ⟨hheap', hframe⟩ := siftDown_heap hlt sw 0 (by simp [sw]; omega) le_rfl hinv
      set r := siftDown lt lo i sw 0
      have hr : ∀ k, lo + i ≤ k → r[k]! = sw[k]! := fun k hk => hframe.outside k (.inr hk)
      have hsmall : ∀ x, lo ≤ x → x < lo + i →
          key r[x]! ≤ key b[lo]! ∧ ∀ y, lo + i + 1 ≤ y → y < hi → key r[x]! ≤ key b[y]! := by
        refine forall_of_perm_frame (P := fun e => key e ≤ key b[lo]! ∧
          ∀ y, lo + i + 1 ≤ y → y < hi → key e ≤ key b[y]!) (siftDown_perm lt lo i sw 0) hframe
          (by simp [sw]; omega) fun x hlx hxi => ?_
        have hold : ∃ x', lo ≤ x' ∧ x' < lo + i + 1 ∧ sw[x]! = b[x']! := by
          by_cases hxlo : x = lo
          · exact ⟨lo + i, by omega, by omega, by rw [hget, if_pos hxlo]⟩
          · exact ⟨x, hlx, by omega, by rw [hget, if_neg hxlo, if_neg (by omega)]⟩
        obtain ⟨x', hlx', hx'i, hcx⟩ := hold
        rw [hcx]
        have hx'top := htop (x' - lo) (by omega)
        rw [Nat.add_sub_cancel' hlx'] at hx'top
        refine ⟨hx'top, fun y hy hyh => ?_⟩
        exact hcross x' y hlx' hx'i (by omega) hyh
      have hnewtop : r[lo + i]! = b[lo]! := by
        rw [hr _ le_rfl, hget]
        by_cases hi0 : i = 0
        · subst hi0
          simp
        · rw [if_neg (by omega), if_pos rfl]
      have hord' : Ordered key r (lo + i) hi := by
        have htail : Ordered key r (lo + i + 1) hi :=
          (hord.congr fun k hk _ => by rw [hr k (by omega), hget, if_neg (by omega),
            if_neg (by omega)])
        refine (ordered_of_le_one r le_rfl).append htail fun x y hx hxi hy hyh => ?_
        rw [show x = lo + i by omega, hnewtop, hr y (by omega), hget, if_neg (by omega),
          if_neg (by omega)]
        exact hcross lo y le_rfl (by omega) (by omega) hyh
      have hcross' : ∀ x y, lo ≤ x → x < lo + i → lo + i ≤ y → y < hi → key r[x]! ≤ key r[y]! := by
        intro x y hlx hxi hy hyh
        by_cases hyi : y = lo + i
        · rw [hyi, hnewtop]
          exact (hsmall x hlx hxi).1
        · rw [hr y (by omega), hget, if_neg (by omega), if_neg hyi]
          exact (hsmall x hlx hxi).2 y (by omega) hyh
      have hframe' : Frame a r lo hi :=
        (hf.trans (frame_swapIfInBounds (by omega) (by omega))).trans (hframe.widen le_rfl (by omega))
      rw [List.range_succ, List.reverse_append, List.reverse_singleton, List.singleton_append,
        List.foldl_cons, hstep]
      exact ih (by omega) r hframe' hheap' hord' hcross'
  show Frame a ((List.range (n + n / 2)).reverse.foldl f a) lo hi ∧
    Ordered key ((List.range (n + n / 2)).reverse.foldl f a) lo hi
  rw [List.range_add, List.reverse_append, List.foldl_append]
  obtain ⟨hf, hheap⟩ := hbuild (n / 2) le_rfl a (Frame.refl a lo hi)
    fun c hc0 hcl hnc => by omega
  exact htake n le_rfl _ hf hheap (ordered_of_le_one _ (by omega)) fun x y _ hx hy hyh => by omega

end Heap

/-! ### Partition -/

section Partition

variable (lt : α → α → Bool)

/-- The scan of the slice from `base` before it takes the element at `r`: the hole is just before
`r`, the elements below the pivot fill `[base, base + below)`, the others `[base + below, gap)`, and
nothing has moved outside `[base, gap)`. -/
structure ScanSplit (lt : α → α → Bool) (pivot : α) (orig : Array α) (base : Nat)
    (s : Array α × Nat × Nat) (r : Nat) : Prop where
  gap : s.2.1 + 1 = r
  left : base + s.2.2 ≤ s.2.1
  below : ∀ i, base ≤ i → i < base + s.2.2 → lt s.1[i]! pivot = true
  above : ∀ i, base + s.2.2 ≤ i → i < s.2.1 → lt s.1[i]! pivot = false
  frame : Frame orig s.1 base s.2.1

/-- One step of the scan: the first element not below the pivot moves into the hole, and `e` takes
its place, joining the part below the pivot when it is below. -/
theorem scanStep_split (pivot : α) {orig : Array α} {base : Nat} {s : Array α × Nat × Nat} {r : Nat}
    (hs : ScanSplit lt pivot orig base s r) (e : α) (hr : r ≤ orig.size) :
    ScanSplit lt pivot orig base (scanStep lt pivot base s e r) (r + 1) := by
  obtain ⟨a, gap, below⟩ := s
  obtain ⟨hgap, hleft, hbelow, habove, hframe⟩ := hs
  simp only at hgap hleft hbelow habove hframe
  have hsize : a.size = orig.size := hframe.size
  set left := base + below
  have hget : ∀ i, ((a.set! gap a[left]!).set! left e)[i]! =
      if i = left then e else if i = gap then a[left]! else a[i]! := by
    intro i
    by_cases hil : i = left
    · rw [if_pos hil, hil, Array.getElem!_set!_self _ _ _ (by simp; omega)]
    · rw [if_neg hil, Array.getElem!_set!_ne _ _ _ _ (Ne.symm hil)]
      by_cases hig : i = gap
      · rw [if_pos hig, hig, Array.getElem!_set!_self _ _ _ (by omega)]
      · rw [if_neg hig, Array.getElem!_set!_ne _ _ _ _ (Ne.symm hig)]
  set b := (a.set! gap a[left]!).set! left e
  have hframe' : Frame orig b base r := by
    refine ⟨by simp [b, hsize], fun i hi => ?_⟩
    rw [hget, if_neg (by omega), if_neg (by omega)]
    exact hframe.outside i (by omega)
  cases he : lt e pivot with
  | true =>
    have hstep : scanStep lt pivot base (a, gap, below) e r = (b, r, below + 1) := by
      simp [scanStep, he, b, left]
    rw [hstep]
    refine ⟨rfl, by dsimp only; omega, fun i hbi hib => ?_, fun i hbi hir => ?_, hframe'⟩
    · dsimp only at hib ⊢
      rw [hget]
      by_cases hil : i = left
      · rw [if_pos hil, he]
      · rw [if_neg hil, if_neg (by omega)]
        exact hbelow i hbi (by omega)
    · dsimp only at hbi hir ⊢
      rw [hget, if_neg (by omega)]
      by_cases hig : i = gap
      · rw [if_pos hig]
        exact habove left le_rfl (by omega)
      · rw [if_neg hig]
        exact habove i (by omega) (by omega)
  | false =>
    have hstep : scanStep lt pivot base (a, gap, below) e r = (b, r, below) := by
      simp [scanStep, he, b, left]
    rw [hstep]
    refine ⟨rfl, by dsimp only; omega, fun i hbi hib => ?_, fun i hbi hir => ?_, hframe'⟩
    · dsimp only at hib ⊢
      rw [hget, if_neg (by omega), if_neg (by omega)]
      exact hbelow i hbi hib
    · dsimp only at hbi hir ⊢
      rw [hget]
      by_cases hil : i = left
      · rw [if_pos hil, he]
      · rw [if_neg hil]
        by_cases hig : i = gap
        · rw [if_pos hig]
          exact habove left le_rfl (by omega)
        · rw [if_neg hig]
          exact habove i (by omega) (by omega)

theorem scanSplit_fold (pivot : α) (orig : Array α) (base len : Nat) :
    ∀ (k : Nat) (s : Array α × Nat × Nat), k + len ≤ orig.size →
      ScanSplit lt pivot orig base s k →
      ScanSplit lt pivot orig base ((List.range' k len).foldl
        (fun s r => scanStep lt pivot base s s.1[r]! r) s) (k + len) := by
  induction len with
  | zero => exact fun k s _ hs => hs
  | succ len ih =>
    intro k s hk hs
    rw [List.range'_succ, List.foldl_cons, show k + (len + 1) = k + 1 + len by omega]
    exact ih (k + 1) _ (by omega) (scanStep_split lt pivot hs _ (by omega))

/-- The scan leaves the elements below the pivot first in the slice, the others after them. -/
theorem scan_split (pivot : α) (a : Array α) (base : Nat) {hi : Nat} (hhi : hi ≤ a.size) :
    base + (scan lt pivot a base hi).2 ≤ max base hi ∧
      (∀ i, base ≤ i → i < base + (scan lt pivot a base hi).2 →
        lt (scan lt pivot a base hi).1[i]! pivot = true) ∧
      (∀ i, base + (scan lt pivot a base hi).2 ≤ i → i < hi →
        lt (scan lt pivot a base hi).1[i]! pivot = false) ∧
      Frame a (scan lt pivot a base hi).1 base hi := by
  by_cases hbase : base < hi
  · set S := (List.range' (base + 1) (hi - (base + 1))).foldl
      (fun s r => scanStep lt pivot base s s.1[r]! r) (a, base, 0)
    have hscan : scan lt pivot a base hi =
        ((scanStep lt pivot base S a[base]! hi).1, (scanStep lt pivot base S a[base]! hi).2.2) := by
      rw [scan, if_pos hbase]
    have hstart : ScanSplit lt pivot a base (a, base, 0) (base + 1) :=
      ⟨rfl, by simp, fun i _ h => by simp at h; omega, fun i h₁ h₂ => by simp at h₁ h₂; omega,
        Frame.refl a _ _⟩
    have hloop : ScanSplit lt pivot a base S hi := by
      have h := scanSplit_fold lt pivot a base (hi - (base + 1)) (base + 1) _ (by omega) hstart
      rwa [show base + 1 + (hi - (base + 1)) = hi by omega] at h
    obtain ⟨hgap, hleft, hbelow, habove, hframe⟩ := scanStep_split lt pivot hloop a[base]! hhi
    rw [hscan]
    dsimp only
    have hend : (scanStep lt pivot base S a[base]! hi).2.1 = hi := by omega
    exact ⟨by omega, hbelow, fun i hi hih => habove i hi (by omega), by rwa [hend] at hframe⟩
  · have hscan : scan lt pivot a base hi = (a, 0) := by rw [scan, if_neg hbase]
    rw [hscan]
    exact ⟨by simp, fun i _ _ => by omega, fun i _ _ => by omega, Frame.refl a _ _⟩

/-- Partitioning around the element at offset `p` leaves the elements below it first, then the
pivot, then the others, all within the slice. -/
theorem partition_split (a : Array α) (lo hi p : Nat) (hlo : lo < hi) (hhi : hi ≤ a.size)
    (hp : lo + p < hi) :
    (partition lt a lo hi p).2 ≤ hi - lo - 1 ∧
      (partition lt a lo hi p).1[lo + (partition lt a lo hi p).2]! = a[lo + p]! ∧
      (∀ i, lo ≤ i → i < lo + (partition lt a lo hi p).2 →
        lt (partition lt a lo hi p).1[i]! a[lo + p]! = true) ∧
      (∀ i, lo + (partition lt a lo hi p).2 < i → i < hi →
        lt (partition lt a lo hi p).1[i]! a[lo + p]! = false) ∧
      Frame a (partition lt a lo hi p).1 lo hi := by
  set a₁ := a.swapIfInBounds lo (lo + p)
  have hpivot : a₁[lo]! = a[lo + p]! := by
    rw [getElem!_swapIfInBounds (by omega) (by omega), if_pos rfl]
  have hf₁ : Frame a a₁ lo hi := frame_swapIfInBounds (by omega) (by omega)
  obtain ⟨hk, hbelow, habove, hframe⟩ := scan_split lt a₁[lo]! a₁ (lo + 1)
    (show hi ≤ a₁.size by rw [hf₁.size]; exact hhi)
  set sc := (scan lt a₁[lo]! a₁ (lo + 1) hi).1
  set k := (scan lt a₁[lo]! a₁ (lo + 1) hi).2
  have hres : partition lt a lo hi p = (sc.swapIfInBounds lo (lo + k), k) := rfl
  have hcsize : sc.size = a.size := hframe.size.trans hf₁.size
  have hget := getElem!_swapIfInBounds (a := sc) (i := lo) (j := lo + k) (by omega) (by omega)
  rw [hres, ← hpivot]
  dsimp only
  refine ⟨by omega, ?_, fun i hli hik => ?_, fun i hki hih => ?_, ?_⟩
  · have hc : sc[lo]! = a₁[lo]! := hframe.outside lo (.inl (by omega))
    rw [hget]
    by_cases hk0 : k = 0
    · simp [hk0, hc]
    · rw [if_neg (by omega), if_pos rfl, hc]
  · rw [hget]
    by_cases hil : i = lo
    · rw [if_pos hil]
      exact hbelow (lo + k) (by omega) (by omega)
    · rw [if_neg hil, if_neg (by omega)]
      exact hbelow i (by omega) (by omega)
  · rw [hget, if_neg (by omega), if_neg (by omega)]
    exact habove i (by omega) hih
  · exact hf₁.trans ((hframe.widen (by omega) le_rfl).trans
      (frame_swapIfInBounds (by omega) (by omega)))

end Partition

/-! ### Quicksort and the whole sort -/

theorem median3_cases (lt : α → α → Bool) (a : Array α) (i j k : Nat) :
    median3 lt a i j k = i ∨ median3 lt a i j k = j ∨ median3 lt a i j k = k := by
  simp only [median3]
  split
  · split
    · exact .inr (.inr rfl)
    · exact .inr (.inl rfl)
  · exact .inl rfl

/-- The recursive median of three lies within the regions it is taken from. -/
theorem median3Rec_le (lt : α → α → Bool) (a : Array α) (i j k n : Nat) :
    median3Rec lt a i j k n ≤ max i (max j k) + (n - 1) := by
  fun_induction median3Rec lt a i j k n with
  | case1 i j k n h m ih₁ ih₂ ih₃ =>
    have hm : 1 ≤ m ∧ 8 * m ≤ n := by simp only [m]; omega
    rcases median3_cases lt a (median3Rec lt a i (i + m * 4) (i + m * 7) m)
      (median3Rec lt a j (j + m * 4) (j + m * 7) m) (median3Rec lt a k (k + m * 4) (k + m * 7) m)
      with h | h | h <;> omega
  | case2 i j k n h => rcases median3_cases lt a i j k with h | h | h <;> omega

/-- The pivot lies inside the slice. -/
theorem choosePivot_lt (lt : α → α → Bool) (a : Array α) (h : 32 < hi - lo) :
    choosePivot lt a lo hi < hi - lo := by
  unfold choosePivot
  dsimp only
  split
  · rcases median3_cases lt a lo (lo + (hi - lo) / 8 * 4) (lo + (hi - lo) / 8 * 7) with h | h | h <;>
      omega
  · have := median3Rec_le lt a lo (lo + (hi - lo) / 8 * 4) (lo + (hi - lo) / 8 * 7) ((hi - lo) / 8)
    omega

section Quick

variable {lt : α → α → Bool}

/-- Quicksort orders the slice. When the slice lies on the upper side of an earlier pivot `q`, no key
in it is below the key of `q`. -/
theorem quicksort_ordered (hlt : ∀ x y, lt x y = decide (key x < key y)) (a : Array α)
    (ancestor : Option α) (limit : Nat) (hhi : hi ≤ a.size)
    (hanc : ∀ q, ancestor = some q → ∀ i, lo ≤ i → i < hi → key q ≤ key a[i]!) :
    Frame a (quicksort lt a lo hi ancestor limit) lo hi ∧
      Ordered key (quicksort lt a lo hi ancestor limit) lo hi := by
  fun_induction quicksort lt a lo hi ancestor limit with
  | case1 a lo hi anc limit hsmall => exact insertionSort_ordered hlt a hhi
  | case2 a lo hi anc hbig => exact heapsort_ordered hlt a (by omega) hhi
  | case3 a lo hi anc hbig limit p least hleast s k ih =>
    have hp : p < hi - lo := choosePivot_lt lt a (by omega)
    obtain ⟨q, rfl, hpq⟩ : ∃ q, anc = some q ∧ key a[lo + p]! ≤ key q := by
      cases anc with
      | none => exact absurd hleast (by simp [least])
      | some q =>
        refine ⟨q, rfl, ?_⟩
        simpa [least, hlt] using hleast
    obtain ⟨hk, hpiv, hbelow, habove, hframe⟩ :=
      partition_split (fun x y => !lt y x) a lo hi p (by omega) hhi (by omega)
    have hperm := partition_perm (fun x y => !lt y x) a lo p hhi
    have hs : partition (fun x y => !lt y x) a lo hi p = s := rfl
    rw [hs] at hk hpiv hbelow habove hframe hperm
    have hkk : k = s.2 := Nat.min_eq_left hk
    clear_value k s p
    have hfrom := forall_of_perm_frame (P := fun e => key q ≤ key e) hperm hframe hhi (hanc q rfl)
    obtain ⟨hframe', hord⟩ := ih (by rw [hframe.size]; exact hhi) (by simp)
    set r := quicksort lt s.1 (lo + k + 1) hi none limit
    have hr : ∀ i, i < lo + k + 1 → r[i]! = s.1[i]! := fun i hi => hframe'.outside i (.inl hi)
    have hlow : ∀ i, lo ≤ i → i < lo + k + 1 → key r[i]! = key a[lo + p]! := by
      intro i hli hik
      rw [hr i hik]
      by_cases hik' : i = lo + k
      · rw [hik', hkk, hpiv]
      · have hle : key s.1[i]! ≤ key a[lo + p]! := by
          have hik'' : i < lo + s.2 := by omega
          have hb := hbelow i hli hik''
          simp only [hlt, Bool.not_eq_true', decide_eq_false_iff_not, not_lt] at hb
          exact hb
        exact le_antisymm hle (hpq.trans (hfrom i hli (by omega)))
    have hhigh : ∀ j, lo + k + 1 ≤ j → j < hi → key a[lo + p]! < key r[j]! :=
      forall_of_perm_frame (P := fun e => key a[lo + p]! < key e)
        (quicksort_perm lt s.1 none limit (by rw [hframe.size]; exact hhi)) hframe'
        (by rw [hframe.size]; exact hhi) fun j hkj hjh => by
          simpa [hlt] using habove j (by omega) hjh
    refine ⟨hframe.trans (hframe'.widen (by omega) le_rfl), ?_⟩
    refine Ordered.append (m := lo + k + 1) (fun i j hli hij hj => ?_) hord
      fun i j hli hik hkj hjh => ?_
    · rw [hlow i hli (by omega), hlow j (by omega) hj]
    · rw [hlow i hli hik]
      exact le_of_lt (hhigh j hkj hjh)
  | case4 a lo hi anc hbig limit p least hleast s k left ihLeft _ ihRight =>
    have hp : p < hi - lo := choosePivot_lt lt a (by omega)
    obtain ⟨hk, hpiv, hbelow, habove, hframe⟩ := partition_split lt a lo hi p (by omega) hhi (by omega)
    have hperm := partition_perm lt a lo p hhi
    have hs : partition lt a lo hi p = s := rfl
    rw [hs] at hk hpiv hbelow habove hframe hperm
    have hkk : k = s.2 := Nat.min_eq_left hk
    have hsize : s.1.size = a.size := hframe.size
    obtain ⟨hframeL, hordL⟩ := ihLeft (by omega) fun q hq i hli hik =>
      forall_of_perm_frame (P := fun e => key q ≤ key e) hperm hframe hhi (hanc q hq) i hli (by omega)
    have hL : ∀ i, lo + k ≤ i → left[i]! = s.1[i]! := fun i hi => hframeL.outside i (.inr hi)
    have hsizeL : left.size = a.size := hframeL.size.trans hsize
    obtain ⟨hframeR, hordR⟩ := ihRight (by omega) fun q hq j hkj hjh => by
      cases hq
      rw [hL j (by omega), hkk, hpiv]
      simpa [hlt] using habove j (by omega) hjh
    set r := quicksort lt left (lo + k + 1) hi (some s.1[lo + k]!) limit
    have hr : ∀ i, i < lo + k + 1 → r[i]! = left[i]! := fun i hi => hframeR.outside i (.inl hi)
    have hpivot : r[lo + k]! = a[lo + p]! := by rw [hr _ (by omega), hL _ le_rfl, hkk, hpiv]
    have hsmall : ∀ i, lo ≤ i → i < lo + k → key r[i]! < key a[lo + p]! := by
      intro i hli hik
      rw [hr i (by omega)]
      refine forall_of_perm_frame (P := fun e => key e < key a[lo + p]!)
        (quicksort_perm lt s.1 anc limit (by omega)) hframeL (by omega) (fun j hlj hjk => ?_) i hli hik
      simpa [hlt] using hbelow j hlj (by omega)
    have hlarge : ∀ j, lo + k + 1 ≤ j → j < hi → key a[lo + p]! ≤ key r[j]! := by
      refine forall_of_perm_frame (P := fun e => key a[lo + p]! ≤ key e)
        (quicksort_perm lt left (some s.1[lo + k]!) limit (by omega)) hframeR (by omega)
        fun j hkj hjh => ?_
      rw [hL j (by omega)]
      simpa [hlt] using habove j (by omega) hjh
    refine ⟨hframe.trans ((hframeL.widen le_rfl (by omega)).trans (hframeR.widen (by omega) le_rfl)),
      ?_⟩
    have hleft : Ordered key r lo (lo + k + 1) := by
      refine (hordL.congr fun i hli hik => hr i (by omega)).push fun i hli hik => ?_
      rw [hpivot]
      exact le_of_lt (hsmall i hli hik)
    refine hleft.append hordR fun i j hli hik hkj hjh => ?_
    have hi : key r[i]! ≤ key a[lo + p]! := by
      by_cases hik' : i = lo + k
      · rw [hik', hpivot]
      · exact le_of_lt (hsmall i hli (by omega))
    exact hi.trans (hlarge j hkj hjh)

/-- An array of at least two elements that is one run: each element's comparison with the one before
it is the same, `lt` throughout for a descending run and never for an ascending one. -/
theorem leadingRun_whole (lt : α → α → Bool) (a : Array α) (h2 : 2 ≤ a.size)
    (hrun : (leadingRun lt a).1 = a.size) :
    ∀ i, 0 < i → i < a.size → lt a[i]! a[i - 1]! = (leadingRun lt a).2 := by
  intro i hi0 hin
  unfold leadingRun at hrun ⊢
  dsimp only at hrun ⊢
  set pred := fun i => if lt a[1]! a[0]! then lt a[i]! a[i - 1]! else !lt a[i]! a[i - 1]!
  set rest := (List.range' 2 (a.size - 2)).takeWhile pred
  have hall : rest = List.range' 2 (a.size - 2) :=
    (List.takeWhile_prefix pred).eq_of_length (by simp [rest] at hrun ⊢; omega)
  by_cases hi1 : i = 1
  · subst hi1
    rfl
  · have hmem : i ∈ rest := by
      rw [hall, List.mem_range'_1]
      omega
    have hp := List.mem_takeWhile_imp hmem
    simp only [pred] at hp
    split at hp <;> simp_all

theorem sort_ordered (hlt : ∀ x y, lt x y = decide (key x < key y)) (a : Array α) :
    Ordered key (sort lt a) 0 a.size := by
  unfold sort
  dsimp only
  split
  · exact (insertionSort_ordered hlt a le_rfl).2
  · rename_i hbig
    split
    · rename_i hrun
      have hcmp := leadingRun_whole lt a (by omega) hrun
      split
      · rename_i hdesc
        refine ordered_of_succ fun i _ hi => ?_
        rw [getElem!_pos _ i (by simp; omega), getElem!_pos _ (i + 1) (by simp; omega),
          Array.getElem_reverse, Array.getElem_reverse]
        have h := hcmp (a.size - 1 - i) (by omega) (by omega)
        rw [hdesc, hlt, decide_eq_true_eq, getElem!_pos _ _ (by omega),
          getElem!_pos _ _ (by omega)] at h
        have hidx : a.size - 1 - i - 1 = a.size - 1 - (i + 1) := by omega
        simp only [hidx] at h
        exact le_of_lt h
      · rename_i hasc
        refine ordered_of_succ fun i _ hi => ?_
        have h := hcmp (i + 1) (by omega) hi
        rw [Bool.not_eq_true] at hasc
        rw [hasc, hlt, decide_eq_false_iff_not, not_lt] at h
        simpa using h
    · exact (quicksort_ordered hlt a none _ le_rfl (by simp)).2

end Quick

end Quicksort

end ConvexQp
