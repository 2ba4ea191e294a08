import Mathlib
import ConvexQp.Sort.Quicksort
/-! Sorting only moves elements: `Quicksort.sort` returns a permutation of its array, whatever the
order, every step being a swap, a reversal or a move into a hole. -/

namespace ConvexQp

namespace Quicksort

variable {α : Type}

theorem swapIfInBounds_perm (a : Array α) (i j : Nat) : (a.swapIfInBounds i j).Perm a := by
  unfold Array.swapIfInBounds
  split
  · split
    · exact Array.swap_perm _ _
    · exact .rfl
  · exact .rfl

/-- A fold whose every step permutes the array permutes it. -/
theorem foldl_perm {β : Type} (l : List β) (f : Array α → β → Array α) {n : Nat}
    (hf : ∀ b x, x ∈ l → b.size = n → (f b x).Perm b) (a : Array α) (ha : a.size = n) :
    (l.foldl f a).Perm a := by
  induction l generalizing a with
  | nil => exact .rfl
  | cons x l ih =>
    have hstep : (f a x).Perm a := hf a x (by simp) ha
    have hrest := ih (fun b y hy hb => hf b y (by simp [hy]) hb) (f a x)
      (hstep.size_eq.trans ha)
    exact hrest.trans hstep

variable [Inhabited α]

theorem set!_getElem!_self (a : Array α) (i : Nat) : a.set! i a[i]! = a := by
  by_cases hi : i < a.size
  · simp [Array.setIfInBounds, hi]
  · exact Array.setIfInBounds_eq_of_size_le (by omega)

/-- Shifting the element at `v` into the hole at `u` moves the hole to `v`: with the lifted `x`
written into the hole, the two arrays differ by a swap. -/
theorem set!_shift_perm (a : Array α) {u v : Nat} (x : α) (hu : u < a.size) (hv : v < a.size) :
    ((a.set! u a[v]!).set! v x).Perm (a.set! u x) := by
  by_cases huv : u = v
  · subst huv
    simp
  · have hswap : (a.set! u x).swapIfInBounds u v = (a.set! u a[v]!).set! v x := by
      apply Array.ext
      · simp
      · intro i hi _
        simp only [Array.set!_eq_setIfInBounds, Array.size_swapIfInBounds,
          Array.size_setIfInBounds] at hi
        simp only [Array.getElem_swapIfInBounds, Array.set!_eq_setIfInBounds,
          Array.size_setIfInBounds, getElem!_pos a v hv]
        grind
    rw [← hswap]
    exact swapIfInBounds_perm _ _ _

/-- Sinking `x` from the hole at `gap` gives the array with `x` written into the hole, rearranged. -/
theorem sink_perm (lt : α → α → Bool) (lo : Nat) (x : α) (a : Array α) {gap : Nat}
    (hgap : gap < a.size) : (sink lt lo x a gap).Perm (a.set! gap x) := by
  induction gap generalizing a with
  | zero => simp [sink]
  | succ gap ih =>
    rw [sink]
    split
    · have hshift := set!_shift_perm a x hgap (show gap < a.size by omega)
      exact (ih (a.set! (gap + 1) a[gap]!) (by simp; omega)).trans hshift
    · exact .rfl

theorem insertionSort_perm (lt : α → α → Bool) (a : Array α) {lo hi : Nat} (hhi : hi ≤ a.size) :
    (insertionSort lt a lo hi).Perm a := by
  unfold insertionSort
  refine foldl_perm _ _ (fun b i hi' hb => ?_) a rfl
  have hi'' : i < b.size := by
    rw [List.mem_range'_1] at hi'
    omega
  have hsink := sink_perm lt lo b[i]! b hi''
  rwa [set!_getElem!_self] at hsink

/-! ### The partition scan -/

/-- The state of the scan before it takes the element at `r`: the hole is just before `r`, the part
below the pivot ends at or before the hole, and with the lifted element in the hole the array is a
permutation of the original. -/
def ScanInv (orig : Array α) (base : Nat) (lifted : α) (s : Array α × Nat × Nat) (r : Nat) : Prop :=
  s.2.1 + 1 = r ∧ base + s.2.2 ≤ s.2.1 ∧ (s.1.set! s.2.1 lifted).Perm orig

/-- One step of the scan moves two elements into the holes left by the step before: with the lifted
element written into the hole, the array before and after differ by two shifts. -/
theorem scanStep_perm (lt : α → α → Bool) (pivot : α) (base : Nat) (a : Array α) (gap below : Nat)
    (e : α) (r : Nat) (lifted : α) (hleft : base + below ≤ gap) (hgap : gap < a.size)
    (hr : gap < r) (hrs : r < a.size) (he : e = a[r]!) :
    ((scanStep lt pivot base (a, gap, below) e r).1.set! r lifted).Perm (a.set! gap lifted) := by
  let b := a.set! gap a[base + below]!
  have hbr : b[r]! = e := by
    simp only [b, he, Array.set!_eq_setIfInBounds]
    rw [getElem!_pos _ r (by simp; omega), getElem!_pos a r hrs, Array.getElem_setIfInBounds_ne]
    omega
  have hfirst := set!_shift_perm b lifted (u := base + below) (v := r) (by simp [b]; omega)
    (by simp [b]; omega)
  rw [hbr] at hfirst
  exact hfirst.trans (set!_shift_perm a lifted hgap (by omega))

/-- The last step puts the lifted element back: the array is the one with it in the hole, up to
one shift. -/
theorem scanStep_last_perm (lt : α → α → Bool) (pivot : α) (base : Nat) (a : Array α)
    (gap below : Nat) (lifted : α) (r : Nat) (hleft : base + below ≤ gap) (hgap : gap < a.size) :
    (scanStep lt pivot base (a, gap, below) lifted r).1.Perm (a.set! gap lifted) :=
  set!_shift_perm a lifted hgap (by omega)

theorem scanInv_fold (lt : α → α → Bool) (pivot : α) (orig : Array α) (base : Nat) (lifted : α)
    (len : Nat) : ∀ (k : Nat) (s : Array α × Nat × Nat), k + len ≤ orig.size →
      ScanInv orig base lifted s k →
      ScanInv orig base lifted ((List.range' k len).foldl
        (fun s r => scanStep lt pivot base s s.1[r]! r) s) (k + len) := by
  induction len with
  | zero => intro k s _ hs; exact hs
  | succ len ih =>
    intro k ⟨a, gap, below⟩ hk ⟨hgap, hleft, hperm⟩
    simp only at hgap hleft hperm
    have hsize : a.size = orig.size := by simpa using hperm.size_eq
    have hstep := scanStep_perm lt pivot base a gap below a[k]! k lifted hleft (by omega) (by omega)
      (by omega) rfl
    rw [List.range'_succ, List.foldl_cons, show k + (len + 1) = k + 1 + len by omega]
    refine ih (k + 1) _ (by omega) ⟨rfl, ?_, hstep.trans hperm⟩
    simp only [scanStep]
    split <;> omega

theorem scan_perm (lt : α → α → Bool) (pivot : α) (a : Array α) (base : Nat) {hi : Nat}
    (hhi : hi ≤ a.size) : (scan lt pivot a base hi).1.Perm a := by
  unfold scan
  split
  · rename_i hbase
    have hstart : ScanInv a base a[base]! (a, base, 0) (base + 1) :=
      ⟨rfl, by simp, by rw [set!_getElem!_self]⟩
    obtain ⟨hgap, hleft, hperm⟩ := scanInv_fold lt pivot a base a[base]! (hi - (base + 1))
      (base + 1) _ (by omega) hstart
    have hsize := hperm.size_eq
    simp only [Array.set!_eq_setIfInBounds, Array.size_setIfInBounds] at hsize
    exact (scanStep_last_perm lt pivot base _ _ _ _ hi hleft (by omega)).trans hperm
  · exact .rfl

theorem partition_perm (lt : α → α → Bool) (a : Array α) (lo : Nat) {hi : Nat} (p : Nat)
    (hhi : hi ≤ a.size) : (partition lt a lo hi p).1.Perm a := by
  have hswap := swapIfInBounds_perm a lo (lo + p)
  have hscan := scan_perm lt (a.swapIfInBounds lo (lo + p))[lo]! (a.swapIfInBounds lo (lo + p))
    (lo + 1) (by simpa using hhi)
  exact (swapIfInBounds_perm _ _ _).trans (hscan.trans hswap)

/-! ### Heapsort -/

theorem siftDown_perm (lt : α → α → Bool) (lo len : Nat) (a : Array α) (node : Nat) :
    (siftDown lt lo len a node).Perm a := by
  fun_induction siftDown lt lo len a node with
  | case1 a node _ child _ ih => exact ih.trans (swapIfInBounds_perm _ _ _)
  | case2 => exact .rfl
  | case3 => exact .rfl

theorem heapsort_perm (lt : α → α → Bool) (a : Array α) (lo hi : Nat) :
    (heapsort lt a lo hi).Perm a := by
  unfold heapsort
  refine foldl_perm _ _ (fun b i _ _ => ?_) a rfl
  split
  · exact siftDown_perm _ _ _ _ _
  · exact (siftDown_perm _ _ _ _ _).trans (swapIfInBounds_perm _ _ _)

/-! ### Quicksort and the whole sort -/

theorem quicksort_perm (lt : α → α → Bool) (a : Array α) {lo hi : Nat} (ancestor : Option α)
    (limit : Nat) (hhi : hi ≤ a.size) : (quicksort lt a lo hi ancestor limit).Perm a := by
  fun_induction quicksort lt a lo hi ancestor limit with
  | case1 a lo hi _ _ _ => exact insertionSort_perm lt a hhi
  | case2 a lo hi _ _ => exact heapsort_perm lt a lo hi
  | case3 a lo hi _ _ _ p _ _ s _ ih =>
    have hs := partition_perm (fun x y => !lt y x) a lo p hhi
    exact (ih (by rw [hs.size_eq]; exact hhi)).trans hs
  | case4 a lo hi _ _ _ p _ _ s k _ ihLeft _ ihRight =>
    have hs := partition_perm lt a lo p hhi
    have hk : k ≤ hi - lo - 1 := Nat.min_le_right _ _
    have hleft := ihLeft (by rw [hs.size_eq]; omega)
    exact (ihRight (by rw [hleft.size_eq, hs.size_eq]; exact hhi)).trans (hleft.trans hs)

omit [Inhabited α] in
theorem reverse_perm (a : Array α) : a.reverse.Perm a := by
  rw [Array.perm_iff_toList_perm, Array.toList_reverse]
  exact List.reverse_perm _

/-- Sorting returns a permutation of the array: no element is lost, added or repeated. -/
theorem sort_perm (lt : α → α → Bool) (a : Array α) : (sort lt a).Perm a := by
  unfold sort
  dsimp only
  split
  · exact insertionSort_perm lt a (Nat.le_refl _)
  · split
    · split
      · exact reverse_perm a
      · exact .rfl
    · exact quicksort_perm lt a none _ (Nat.le_refl _)

end Quicksort

end ConvexQp
