/-! An unstable sort of arrays by a strict weak order: insertion up to 20 elements, a single run
kept or reversed, else quicksort with median-of-three pivots and a heapsort fallback. -/

namespace ConvexQp

namespace Quicksort

variable {α : Type} [Inhabited α]

/-- Puts `x` into the hole at `gap`, first moving each element of `[lo, gap)` that `x` is below one
place to the right, from the hole down. -/
def sink (lt : α → α → Bool) (lo : Nat) (x : α) (a : Array α) : (gap : Nat) → Array α
  | 0 => a.set! 0 x
  | gap + 1 =>
    if lo ≤ gap && lt x a[gap]! then sink lt lo x (a.set! (gap + 1) a[gap]!) gap
    else a.set! (gap + 1) x

/-- Insertion sort of the slice `[lo, hi)`: each element in turn sinks into the sorted part before
it, passing only elements it is below, so equal elements keep their order. -/
def insertionSort (lt : α → α → Bool) (a : Array α) (lo hi : Nat) : Array α :=
  (List.range' (lo + 1) (hi - (lo + 1))).foldl (fun a i => sink lt lo a[i]! a i) a

/-- The index of the median of the elements at `i`, `j` and `k`: the first of them when it lies
between the other two, else the one of the other two nearer to it. -/
def median3 (lt : α → α → Bool) (a : Array α) (i j k : Nat) : Nat :=
  let x := lt a[i]! a[j]!
  let y := lt a[i]! a[k]!
  if x == y then (if lt a[j]! a[k]! != x then k else j) else i

/-- The median of three taken from the regions of `n` elements at `i`, `j` and `k`; from `n = 8`
on, each of the three is the median of three of its own region, taken the same way. -/
def median3Rec (lt : α → α → Bool) (a : Array α) (i j k n : Nat) : Nat :=
  if 8 ≤ n then
    let m := n / 8
    median3 lt a (median3Rec lt a i (i + m * 4) (i + m * 7) m)
      (median3Rec lt a j (j + m * 4) (j + m * 7) m) (median3Rec lt a k (k + m * 4) (k + m * 7) m)
  else median3 lt a i j k
termination_by n
decreasing_by all_goals omega

/-- The offset of the pivot of the slice `[lo, hi)`, of at least 8 elements: a median of three
from the start, the middle and seven eighths of the slice, recursive from 64 elements on. -/
def choosePivot (lt : α → α → Bool) (a : Array α) (lo hi : Nat) : Nat :=
  let n := hi - lo
  let m := n / 8
  let i := lo
  let j := lo + m * 4
  let k := lo + m * 7
  (if n < 64 then median3 lt a i j k else median3Rec lt a i j k m) - lo

/-- One step of the cyclic scan: the element `e`, which stood at `r`, goes to the end of the part
below the pivot, the element there goes into the hole, and `r` becomes the hole; the part below
grows when `e` is below the pivot. -/
def scanStep (lt : α → α → Bool) (pivot : α) (base : Nat) (s : Array α × Nat × Nat) (e : α)
    (r : Nat) : Array α × Nat × Nat :=
  let (a, gap, below) := s
  let left := base + below
  let a := a.set! gap a[left]!
  (a.set! left e, r, if lt e pivot then below + 1 else below)

/-- The cyclic scan of the slice `[base, hi)` against `pivot`: the first element is lifted out,
leaving a hole, each later element takes a step in order, and the lifted element takes the last.
Returns the slice with the elements below the pivot first, and their number. -/
def scan (lt : α → α → Bool) (pivot : α) (a : Array α) (base hi : Nat) : Array α × Nat :=
  if base < hi then
    let lifted := a[base]!
    let s := (List.range' (base + 1) (hi - (base + 1))).foldl
      (fun s r => scanStep lt pivot base s s.1[r]! r) (a, base, 0)
    let s := scanStep lt pivot base s lifted hi
    (s.1, s.2.2)
  else (a, 0)

/-- Partitions the slice `[lo, hi)` around the element at offset `p`: the pivot is swapped to the
front, the rest is scanned, and the pivot is swapped to its place after the elements below it.
Returns the array and the number of elements below the pivot, which is the pivot's offset. -/
def partition (lt : α → α → Bool) (a : Array α) (lo hi p : Nat) : Array α × Nat :=
  let a := a.swapIfInBounds lo (lo + p)
  let s := scan lt a[lo]! a (lo + 1) hi
  (s.1.swapIfInBounds lo (lo + s.2), s.2)

/-- Moves the element at `node` of the heap in the slice of `len` elements from `lo` down, each time
swapping it with the greater child (the right one only when the left is below it), until no child is
above it. -/
def siftDown (lt : α → α → Bool) (lo len : Nat) (a : Array α) (node : Nat) : Array α :=
  if _h : 2 * node + 1 < len then
    let child := if 2 * node + 2 < len && lt a[lo + 2 * node + 1]! a[lo + 2 * node + 2]! then
      2 * node + 2 else 2 * node + 1
    if lt a[lo + node]! a[lo + child]! then
      siftDown lt lo len (a.swapIfInBounds (lo + node) (lo + child)) child
    else a
  else a
termination_by len - node
decreasing_by all_goals (split <;> omega)

/-- Heapsort of the slice `[lo, hi)`: a count `i` runs down from `n + n / 2`; above `n` it builds
the heap by sifting node `i - n`, below it swaps the top to place `i` and sifts the rest. -/
def heapsort (lt : α → α → Bool) (a : Array α) (lo hi : Nat) : Array α :=
  let n := hi - lo
  (List.range (n + n / 2)).reverse.foldl (fun a i =>
    if n ≤ i then siftDown lt lo n a (i - n)
    else siftDown lt lo i (a.swapIfInBounds lo (lo + i)) 0) a

/-- Quicksort of the slice `[lo, hi)` with `limit` levels of partitions left; `ancestor` is the pivot
of the partition that left this slice on its upper side, if any. The count of elements below a pivot
is never more than the other elements of the slice. -/
def quicksort (lt : α → α → Bool) (a : Array α) (lo hi : Nat) (ancestor : Option α) (limit : Nat) :
    Array α :=
  if _h : hi - lo ≤ 32 then insertionSort lt a lo hi
  else
    match limit with
    | 0 => heapsort lt a lo hi
    | limit + 1 =>
      let p := choosePivot lt a lo hi
      let least := match ancestor with
        | some q => !lt q a[lo + p]!
        | none => false
      if least then
        let s := partition (fun x y => !lt y x) a lo hi p
        let k := min s.2 (hi - lo - 1)
        quicksort lt s.1 (lo + k + 1) hi none limit
      else
        let s := partition lt a lo hi p
        let k := min s.2 (hi - lo - 1)
        let left := quicksort lt s.1 lo (lo + k) ancestor limit
        quicksort lt left (lo + k + 1) hi (some s.1[lo + k]!) limit
termination_by hi - lo
decreasing_by all_goals omega

/-- The length of the run at the start of an array of at least two elements, and whether it is
strictly descending: a run continues while each element is below the one before it (descending)
or not below it (ascending), as the first two elements decide. -/
def leadingRun (lt : α → α → Bool) (a : Array α) : Nat × Bool :=
  let descending := lt a[1]! a[0]!
  let rest := (List.range' 2 (a.size - 2)).takeWhile fun i =>
    if descending then lt a[i]! a[i - 1]! else !lt a[i]! a[i - 1]!
  (rest.length + 2, descending)

/-- The array sorted by `lt`, with equal elements placed as the module header describes. -/
def sort (lt : α → α → Bool) (a : Array α) : Array α :=
  let n := a.size
  if n ≤ 20 then insertionSort lt a 0 n
  else
    let run := leadingRun lt a
    if run.1 = n then (if run.2 then a.reverse else a)
    else quicksort lt a 0 n none (2 * Nat.log2 n)

end Quicksort

end ConvexQp
