import Mathlib.Data.List.Sort

/-!
# Rust's unstable slice sort

Model of `slice::sort_unstable_by` of the Rust 1.91 standard library
(`core::slice::sort::unstable`, with `shared/pivot.rs`, `shared/smallsort.rs`
and `unstable/heapsort.rs`), for a comparison `is_less`. A slice is a list, an
index into it a natural number, and a recursive call on a sub-slice sorts that
part of the list in place, so it is the list's `take`/`drop` part put back
between the others.

Up to 20 elements the slice is insertion-sorted. Above, `ipnsort` keeps an
existing non-descending run over the whole slice (reversing it when it is
strictly descending), and otherwise runs a quicksort with a recursion limit of
`2 * ilog2(len | 1)` partitions: median-of-three pivots, a branchless Lomuto
partition with a cyclic permutation, a small sort at most `threshold` elements,
and heapsort when the limit is used up. The threshold depends on the element
type (32 for a `Copy` type of up to 64 bytes); the small sort used then,
`small_sort_general`, is a stable sort, and a stable sort's output is determined
by its input, so it is modelled by the insertion sort.
-/

namespace UnstableSort

variable {α : Type*} [Inhabited α]

/-- `v.swap(i, j)`. -/
def swapAt (v : List α) (i j : ℕ) : List α :=
  (v.set i (v.getD j default)).set j (v.getD i default)

/-! ## Insertion sort -/

section Insertion

variable (isLess : α → α → Bool)

/-- `insert_tail`, on the sorted prefix read from its end: the new element
moves left past every element it is less than. -/
def insertTail (x : α) : List α → List α
  | [] => [x]
  | y :: ys => if isLess x y then y :: insertTail x ys else x :: y :: ys

/-- `insertion_sort_shift_left(v, 1, is_less)`: `insert_tail` of each element
into the sorted prefix before it. -/
def insertionSortShiftLeft (v : List α) : List α :=
  (v.foldl (fun revSorted x => insertTail isLess x revSorted) []).reverse

end Insertion

/-! ## Runs and pivots -/

section Pivot

variable (isLess : α → α → Bool)

/-- The loop of `find_existing_run` after its first two elements: how many
more elements continue the run, strictly descending or non-descending. -/
def runLength (strictlyDescending : Bool) : α → List α → ℕ
  | _, [] => 0
  | prev, x :: rest =>
    if (if strictlyDescending then isLess x prev else !isLess x prev) then
      runLength strictlyDescending x rest + 1
    else 0

/-- `find_existing_run`: the length of the run at the start of the slice, and
whether it is strictly descending. -/
def findExistingRun : List α → ℕ × Bool
  | a :: b :: rest =>
    (runLength isLess (isLess b a) b rest + 2, isLess b a)
  | v => (v.length, false)

/-- `median3` on the elements at `a`, `b` and `c`: the index of the median. -/
def median3 (v : List α) (a b c : ℕ) : ℕ :=
  let x := isLess (v.getD a default) (v.getD b default)
  let y := isLess (v.getD a default) (v.getD c default)
  if x = y then
    let z := isLess (v.getD b default) (v.getD c default)
    if xor z x then c else b
  else a

/-- `median3_rec`: the pseudo-median of the regions of `n` elements at `a`,
`b` and `c`. -/
def median3Rec (v : List α) (a b c n : ℕ) : ℕ :=
  if h : n * 8 ≥ 64 then
    let n8 := n / 8
    have : n8 < n := Nat.div_lt_self (by omega) (by decide)
    median3 isLess v (median3Rec v a (a + n8 * 4) (a + n8 * 7) n8)
      (median3Rec v b (b + n8 * 4) (b + n8 * 7) n8) (median3Rec v c (c + n8 * 4) (c + n8 * 7) n8)
  else median3 isLess v a b c
termination_by n

/-- `choose_pivot`: the median of the elements at eighths 0, 4 and 7, or below
64 elements the recursive pseudo-median of those eighths. -/
def choosePivot (v : List α) : ℕ :=
  let lenDiv8 := v.length / 8
  if v.length < 64 then median3 isLess v 0 (lenDiv8 * 4) (lenDiv8 * 7)
  else median3Rec isLess v 0 (lenDiv8 * 4) (lenDiv8 * 7) lenDiv8

end Pivot

/-! ## Partition -/

/-- The state of `partition_lomuto_branchless_cyclic`: the slice, `num_lt` and
the position of the gap. -/
structure PartitionState (α : Type*) where
  arr : List α
  numLt : ℕ
  gap : ℕ

section Partition

variable (isLess : α → α → Bool)

/-- `loop_body` on the element `right` read at position `rightPos`: the element
at `num_lt` fills the gap, `right` takes its place and leaves the gap behind,
and `num_lt` grows when `right` is less than the pivot. -/
def loopBody (pivot : α) (st : PartitionState α) (right : α) (rightPos : ℕ) : PartitionState α :=
  { arr := (st.arr.set st.gap (st.arr.getD st.numLt default)).set st.numLt right,
    numLt := st.numLt + if isLess right pivot then 1 else 0,
    gap := rightPos }

/-- `partition_lomuto_branchless_cyclic`: the first element is saved, the loop
body runs for the positions `1..len`, and a last time on the saved element.
Returns the slice and the number of elements less than the pivot. -/
def partitionLomutoBranchlessCyclic (v : List α) (pivot : α) : List α × ℕ :=
  match v with
  | [] => ([], 0)
  | saved :: _ =>
    let st := (List.range' 1 (v.length - 1)).foldl
      (fun st rightPos => loopBody isLess pivot st (st.arr.getD rightPos default) rightPos) ⟨v, 0, 0⟩
    let st := loopBody isLess pivot st saved st.gap
    (st.arr, st.numLt)

/-- `partition`: the pivot goes to the front, the rest is partitioned around
it, and the pivot is swapped between the two parts. -/
def partition (v : List α) (pivotPos : ℕ) : List α × ℕ :=
  match swapAt v 0 pivotPos with
  | [] => ([], 0)
  | pivot :: rest =>
    let (rest, numLt) := partitionLomutoBranchlessCyclic isLess rest pivot
    (swapAt (pivot :: rest) 0 numLt, numLt)

end Partition

/-! ## Heapsort -/

section Heap

variable (isLess : α → α → Bool)

/-- `sift_down` on the first `len` elements from `node`, at most `fuel` steps
down: the node swaps with its greater child while it is less than it. -/
def siftDown (len : ℕ) (v : List α) (node : ℕ) : ℕ → List α
  | 0 => v
  | fuel + 1 =>
    if 2 * node + 1 < len then
      let child := if 2 * node + 2 < len ∧ isLess (v.getD (2 * node + 1) default) (v.getD (2 * node + 2) default)
        then 2 * node + 2 else 2 * node + 1
      if isLess (v.getD node default) (v.getD child default) then
        siftDown len (swapAt v node child) child fuel
      else v
    else v

/-- `heapsort`: `i` runs down from `len + len / 2`; above `len` it sifts the
node `i - len` down to build the heap, below it swaps the maximum to `i` and
sifts the root of the first `i` elements. Each sift takes at most `len` steps. -/
def heapsort (v : List α) : List α :=
  (List.range (v.length + v.length / 2)).reverse.foldl
    (fun w i =>
      if i ≥ v.length then siftDown isLess v.length w (i - v.length) v.length
      else siftDown isLess i (swapAt w 0 i) 0 v.length) v

end Heap

/-! ## Quicksort and the entry points -/

section Quick

variable (isLess : α → α → Bool) (threshold : ℕ)

/-- `quicksort(v, ancestor_pivot, limit, is_less)`. The loop that continues on
the right part is a recursive call with the pivot as its ancestor. When the
pivot is not above the ancestor pivot, it is the smallest element: the slice is
partitioned into the elements not above it and the rest, and only the rest is
sorted further. -/
def quicksort (v : List α) (ancestorPivot : Option α) : ℕ → List α
  | 0 => if v.length ≤ threshold then insertionSortShiftLeft isLess v else heapsort isLess v
  | limit + 1 =>
    if v.length ≤ threshold then insertionSortShiftLeft isLess v
    else
      let pivotPos := choosePivot isLess v
      if ancestorPivot.any (fun ap => !isLess ap (v.getD pivotPos default)) then
        let (w, numLt) := partition (fun a b => !isLess b a) v pivotPos
        w.take (numLt + 1) ++ quicksort (w.drop (numLt + 1)) none limit
      else
        let (w, numLt) := partition isLess v pivotPos
        quicksort (w.take numLt) ancestorPivot limit ++
          w.getD numLt default :: quicksort (w.drop (numLt + 1)) (some (w.getD numLt default)) limit

/-- `ilog2`, by halving at most `n` times. -/
def ilog2 (n : ℕ) : ℕ :=
  go n n
where
  go : ℕ → ℕ → ℕ
    | 0, _ => 0
    | fuel + 1, m => if m < 2 then 0 else go fuel (m / 2) + 1

/-- `ipnsort`. -/
def ipnsort (v : List α) : List α :=
  let (runLen, wasReversed) := findExistingRun isLess v
  if runLen = v.length then (if wasReversed then v.reverse else v)
  else quicksort isLess threshold v none (2 * ilog2 (v.length ||| 1))

/-- `sort::unstable::sort`: slices below two elements are sorted, up to 20 are
insertion-sorted, and longer ones go to `ipnsort`. -/
def sort (v : List α) : List α :=
  if v.length < 2 then v
  else if v.length ≤ 20 then insertionSortShiftLeft isLess v
  else ipnsort isLess threshold v

end Quick

omit [Inhabited α] in
/-- The comparison `sort_unstable_by_key(f)` sorts with: `f(a).lt(&f(b))`. -/
def keyLess {κ : Type*} [LT κ] [DecidableLT κ] (key : α → κ) (a b : α) : Bool :=
  decide (key a < key b)

section KeyLess

variable {κ : Type*} [LinearOrder κ] (key : α → κ)

omit [Inhabited α] in
@[simp] theorem keyLess_eq_true {a b : α} : keyLess key a b = true ↔ key a < key b := by
  simp [keyLess]

omit [Inhabited α] in
@[simp] theorem keyLess_eq_false {a b : α} : keyLess key a b = false ↔ key b ≤ key a := by
  simp [keyLess]

end KeyLess

end UnstableSort
