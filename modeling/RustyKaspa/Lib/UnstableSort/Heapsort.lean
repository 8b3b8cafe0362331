import RustyKaspa.Lib.UnstableSort.Partition

/-!
# The heapsort fallback

`heapsort` (`core::slice::sort::unstable::heapsort`) sorts the slice when the
quicksort has used up its recursion limit. Each turn of its loop swaps two
elements of the slice or sifts a node down, so for any comparison the result is
a permutation of the slice (`heapsort_perm`).

For the comparison of keys, the loop keeps a max-heap. The turns above `len`
build it from the last parent up to the root (`HeapFrom`, `heapFrom_build`);
the turns below `len` swap the root behind the heap and sift the new root down,
with the part behind the heap sorted and no element of the heap above it
(`SortPhase`, `sortPhase_step`). A sift starts from a node whose children may be
above it, and `SiftInv` is the heap order with the edges below that node exempt.

Main results:

* `heapsort_perm`: `heapsort` permutes the slice.
* `heapsort_sorted`: with `keyLess key`, the result is sorted by key.
-/

namespace UnstableSort

variable {α : Type*} [Inhabited α]

/-- The child that `sift_down` compares `node` with: the right child when it is
among the first `len` elements and the left one is less than it. -/
def greaterChild (isLess : α → α → Bool) (len : ℕ) (v : List α) (node : ℕ) : ℕ :=
  if 2 * node + 2 < len ∧ isLess (v.getD (2 * node + 1) default) (v.getD (2 * node + 2) default)
  then 2 * node + 2 else 2 * node + 1

/-- One turn of the loop of `heapsort` on a slice of `len` elements: from `len`
on it sifts down the node `i - len`, below `len` it swaps the root to `i` and
sifts the new root down in the first `i` elements. -/
def heapsortStep (isLess : α → α → Bool) (len : ℕ) (w : List α) (i : ℕ) : List α :=
  if i ≥ len then siftDown isLess len w (i - len) len else siftDown isLess i (swapAt w 0 i) 0 len

/-! ## Permutation -/

section Perm

variable (isLess : α → α → Bool)

theorem siftDown_succ (len : ℕ) (v : List α) (node fuel : ℕ) :
    siftDown isLess len v node (fuel + 1) =
      if 2 * node + 1 < len then
        if isLess (v.getD node default) (v.getD (greaterChild isLess len v node) default) then
          siftDown isLess len (swapAt v node (greaterChild isLess len v node)) (greaterChild isLess len v node) fuel
        else v
      else v := rfl

theorem heapsort_eq (v : List α) :
    heapsort isLess v = (List.range (v.length + v.length / 2)).reverse.foldl (heapsortStep isLess v.length) v :=
  rfl

theorem node_lt_greaterChild (len : ℕ) (v : List α) (node : ℕ) : node < greaterChild isLess len v node := by
  unfold greaterChild
  split <;> omega

theorem greaterChild_lt {len node : ℕ} (v : List α) (h : 2 * node + 1 < len) : greaterChild isLess len v node < len := by
  unfold greaterChild
  split <;> omega

theorem parent_greaterChild (len : ℕ) (v : List α) (node : ℕ) : (greaterChild isLess len v node - 1) / 2 = node := by
  unfold greaterChild
  split <;> omega

/-- `sift_down` permutes the slice. -/
theorem siftDown_perm {len : ℕ} {v : List α} (hlen : len ≤ v.length) (node fuel : ℕ) :
    (siftDown isLess len v node fuel).Perm v := by
  induction fuel generalizing v node with
  | zero => exact List.Perm.refl v
  | succ fuel ih =>
    rw [siftDown_succ]
    split_ifs with hchild hless
    · have hnode := node_lt_greaterChild isLess len v node
      have hlt := greaterChild_lt isLess v hchild
      have hswap := swapAt_perm (show node < v.length by omega) (show greaterChild isLess len v node < v.length by omega)
      exact (ih (by rw [length_swapAt]; exact hlen) _).trans hswap
    · exact List.Perm.refl v
    · exact List.Perm.refl v

/-- `sift_down` leaves the elements from `len` on. -/
theorem drop_siftDown (len : ℕ) (v : List α) (node fuel : ℕ) :
    (siftDown isLess len v node fuel).drop len = v.drop len := by
  induction fuel generalizing v node with
  | zero => rfl
  | succ fuel ih =>
    rw [siftDown_succ]
    split_ifs with hchild hless
    · have hnode := node_lt_greaterChild isLess len v node
      have hlt := greaterChild_lt isLess v hchild
      rw [ih, drop_swapAt (by omega) hlt]
    · rfl
    · rfl

/-- `sift_down` permutes the first `len` elements. -/
theorem take_siftDown_perm {len : ℕ} {v : List α} (hlen : len ≤ v.length) (node fuel : ℕ) :
    ((siftDown isLess len v node fuel).take len).Perm (v.take len) := by
  have hsplit : (siftDown isLess len v node fuel).take len ++ v.drop len = siftDown isLess len v node fuel := by
    rw [← drop_siftDown isLess len v node fuel, List.take_append_drop]
  refine (List.perm_append_right_iff (v.drop len)).mp ?_
  rw [hsplit, List.take_append_drop]
  exact siftDown_perm isLess hlen node fuel

theorem heapsortStep_perm {len : ℕ} {w : List α} (hw : w.length = len) (i : ℕ) :
    (heapsortStep isLess len w i).Perm w := by
  unfold heapsortStep
  split_ifs with hi
  · exact siftDown_perm isLess hw.ge _ _
  · have hswap := swapAt_perm (show 0 < w.length by omega) (show i < w.length by omega)
    exact (siftDown_perm isLess (by rw [length_swapAt]; omega) _ _).trans hswap

theorem foldl_heapsortStep_perm {len : ℕ} (is : List ℕ) {w : List α} (hw : w.length = len) :
    (is.foldl (heapsortStep isLess len) w).Perm w := by
  induction is generalizing w with
  | nil => exact List.Perm.refl w
  | cons i is ih =>
    have hstep := heapsortStep_perm isLess hw i
    exact (ih (hstep.length_eq.trans hw)).trans hstep

theorem heapsort_perm (v : List α) : (heapsort isLess v).Perm v :=
  foldl_heapsortStep_perm isLess _ rfl

end Perm

/-! ## The heap order -/

section Heap

variable {κ : Type*} [LinearOrder κ] (key : α → κ)

/-- The heap order on the first `len` elements below the parents from `lo` on:
no child's key is above its parent's. -/
def HeapFrom (v : List α) (len lo : ℕ) : Prop :=
  ∀ c, 0 < c → c < len → lo ≤ (c - 1) / 2 → key (v.getD c default) ≤ key (v.getD ((c - 1) / 2) default)

/-- The order while a sift from `lo` is at `node`: the heap order except on the
edges below `node`, whose children are not above the parent of `node`. -/
structure SiftInv (v : List α) (len lo node : ℕ) : Prop where
  except : ∀ c, 0 < c → c < len → lo ≤ (c - 1) / 2 → (c - 1) / 2 ≠ node →
    key (v.getD c default) ≤ key (v.getD ((c - 1) / 2) default)
  grand : 0 < node → lo ≤ (node - 1) / 2 → ∀ c, 0 < c → c < len → (c - 1) / 2 = node →
    key (v.getD c default) ≤ key (v.getD ((node - 1) / 2) default)

/-- No child of `node` is above the one `sift_down` picks. -/
theorem le_greaterChild {len : ℕ} {v : List α} {node c : ℕ} (hc : 0 < c) (hclen : c < len)
    (hpar : (c - 1) / 2 = node) :
    key (v.getD c default) ≤ key (v.getD (greaterChild (keyLess key) len v node) default) := by
  have hcases : c = 2 * node + 1 ∨ c = 2 * node + 2 := by omega
  unfold greaterChild
  split_ifs with hright
  · rcases hcases with rfl | rfl
    · exact le_of_lt ((keyLess_eq_true key).mp hright.2)
    · exact le_rfl
  · rcases hcases with rfl | rfl
    · exact le_rfl
    · have hnot : keyLess key (v.getD (2 * node + 1) default) (v.getD (2 * node + 2) default) = false :=
        Bool.eq_false_iff.mpr fun h => hright ⟨hclen, h⟩
      exact (keyLess_eq_false key).mp hnot

/-- Swapping `node` with its greater child when that child is above it moves
the exemption down to the child. -/
theorem SiftInv.swap {v : List α} {len lo node : ℕ} (inv : SiftInv key v len lo node) (hlo : lo ≤ node)
    (hchild : 2 * node + 1 < len) (hlen : len ≤ v.length)
    (hless : key (v.getD node default) < key (v.getD (greaterChild (keyLess key) len v node) default)) :
    SiftInv key (swapAt v node (greaterChild (keyLess key) len v node)) len lo
      (greaterChild (keyLess key) len v node) := by
  have hnc := node_lt_greaterChild (keyLess key) len v node
  have hcl := greaterChild_lt (keyLess key) v hchild
  have hpc := parent_greaterChild (keyLess key) len v node
  have hmax : ∀ c, 0 < c → c < len → (c - 1) / 2 = node →
      key (v.getD c default) ≤ key (v.getD (greaterChild (keyLess key) len v node) default) :=
    fun c hc hclen hpar => le_greaterChild key hc hclen hpar
  generalize greaterChild (keyLess key) len v node = child at hnc hcl hpc hless hmax ⊢
  have hwn : (swapAt v node child).getD node default = v.getD child default := getD_swapAt_left (by omega)
  have hwc : (swapAt v node child).getD child default = v.getD node default := getD_swapAt_right (by omega)
  constructor
  · intro c hc hclen hlop hpne
    by_cases hcn : c = node
    · -- the child's key moves up to `node`, under the parent of `node`
      subst hcn
      rw [hwn, getD_swapAt_of_ne (by omega) (by omega)]
      exact inv.grand hc hlop child (by omega) hcl hpc
    by_cases hcc : c = child
    · subst hcc
      rw [hpc, hwc, hwn]
      exact le_of_lt hless
    rw [getD_swapAt_of_ne hcn hcc]
    by_cases hpn : (c - 1) / 2 = node
    · -- a sibling of the child, under the child's key
      rw [hpn, hwn]
      exact hmax c hc hclen hpn
    · rw [getD_swapAt_of_ne hpn hpne]
      exact inv.except c hc hclen hlop hpn
  · intro _ _ c hc hclen hpar
    rw [hpc, hwn, getD_swapAt_of_ne (by omega) (by omega)]
    have hle := inv.except c hc hclen (by omega) (by omega)
    rwa [hpar] at hle

/-- A sift that stops at `node` leaves the heap order. -/
theorem SiftInv.heapFrom {v : List α} {len lo node : ℕ} (inv : SiftInv key v len lo node)
    (hstop : ∀ c, 0 < c → c < len → (c - 1) / 2 = node → key (v.getD c default) ≤ key (v.getD node default)) :
    HeapFrom key v len lo := by
  intro c hc hclen hlop
  by_cases hpn : (c - 1) / 2 = node
  · rw [hpn]
    exact hstop c hc hclen hpn
  · exact inv.except c hc hclen hlop hpn

/-- `sift_down` from `node`, with fuel for every level below it, restores the heap order. -/
theorem heapFrom_siftDown {v : List α} {len lo node fuel : ℕ} (inv : SiftInv key v len lo node) (hlo : lo ≤ node)
    (hfuel : len ≤ node + fuel) (hlen : len ≤ v.length) :
    HeapFrom key (siftDown (keyLess key) len v node fuel) len lo := by
  induction fuel generalizing v node with
  | zero =>
    -- no child of `node` is among the first `len` elements
    exact inv.heapFrom key fun c _ hclen hpar => absurd hclen (by omega)
  | succ fuel ih =>
    rw [siftDown_succ]
    have hnc := node_lt_greaterChild (keyLess key) len v node
    split_ifs with hchild hless
    · apply ih (inv.swap key hlo hchild hlen ((keyLess_eq_true key).mp hless)) (by omega) (by omega)
      rw [length_swapAt]
      exact hlen
    · apply inv.heapFrom key
      intro c hc hclen hpar
      exact (le_greaterChild key hc hclen hpar).trans ((keyLess_eq_false key).mp (Bool.eq_false_iff.mpr hless))
    · exact inv.heapFrom key fun c _ hclen hpar => absurd hclen (by omega)

/-- No element of a heap is above its root. -/
theorem le_root_of_heapFrom {v : List α} {len : ℕ} (h : HeapFrom key v len 0) :
    ∀ c, c < len → key (v.getD c default) ≤ key (v.getD 0 default) := by
  intro c
  induction c using Nat.strong_induction_on with
  | _ c ih =>
    intro hc
    rcases Nat.eq_zero_or_pos c with rfl | hpos
    · exact le_rfl
    · exact (h c hpos hc (Nat.zero_le _)).trans (ih _ (by omega) (by omega))

theorem le_root_of_mem_take {v : List α} {len : ℕ} (h : HeapFrom key v len 0) {x : α} (hx : x ∈ v.take len) :
    key x ≤ key (v.getD 0 default) := by
  obtain ⟨i, hi, rfl⟩ := List.mem_iff_getElem.mp hx
  have hi' : i < len ∧ i < v.length := by simpa using hi
  have hle := le_root_of_heapFrom key h i hi'.1
  rw [List.getElem_take]
  rwa [List.getD_eq_getElem?_getD, List.getElem?_eq_getElem hi'.2, Option.getD_some] at hle

end Heap

/-! ## Sortedness -/

section Sorted

variable {κ : Type*} [LinearOrder κ] (key : α → κ)

/-- Below the last parent there is nothing to order. -/
theorem heapFrom_half (v : List α) (len : ℕ) : HeapFrom key v len (len / 2) := by
  intro c hc hclen hlop
  exact absurd hclen (by omega)

theorem siftInv_of_heapFrom {v : List α} {len node : ℕ} (h : HeapFrom key v len (node + 1)) :
    SiftInv key v len node node where
  except c hc hclen _ hpne := h c hc hclen (by omega)
  grand hpos hlop := absurd hlop (by omega)

/-- A turn of the build phase adds the node `i - len` to the heap. -/
theorem heapFrom_heapsortStep_build {w : List α} {len node : ℕ} (hw : w.length = len)
    (h : HeapFrom key w len (node + 1)) :
    HeapFrom key (heapsortStep (keyLess key) len w (len + node)) len node := by
  rw [heapsortStep, if_pos (by omega), Nat.add_sub_cancel_left]
  exact heapFrom_siftDown key (siftInv_of_heapFrom key h) le_rfl (by omega) hw.ge

/-- The build phase, run over the nodes below `m`. -/
theorem heapFrom_build {len : ℕ} (m : ℕ) {w : List α} (hw : w.length = len) (h : HeapFrom key w len m) :
    HeapFrom key ((List.range' len m).reverse.foldl (heapsortStep (keyLess key) len) w) len 0 := by
  induction m generalizing w with
  | zero => simpa using h
  | succ m ih =>
    rw [List.range'_concat, Nat.one_mul, List.reverse_append, List.reverse_singleton, List.singleton_append,
      List.foldl_cons]
    exact ih ((heapsortStep_perm _ hw _).length_eq.trans hw) (heapFrom_heapsortStep_build key hw h)

/-- The sort phase with a heap of `m` elements left: the heap in front, the
elements behind it sorted, and no element of the heap above them. -/
structure SortPhase (w : List α) (m : ℕ) : Prop where
  heap : HeapFrom key w m 0
  sorted : (w.drop m).Pairwise fun a b => key a ≤ key b
  le : ∀ x ∈ w.take m, ∀ y ∈ w.drop m, key x ≤ key y

theorem getD_zero_mem_take {w : List α} (hw : 0 < w.length) (m : ℕ) : w.getD 0 default ∈ w.take (m + 1) := by
  cases w with
  | nil => exact absurd hw (by simp)
  | cons a w => simp

/-- Swapping the root to `m` puts it in front of the elements behind the heap. -/
theorem drop_swapAt_zero {w : List α} {m : ℕ} (hm : m < w.length) :
    (swapAt w 0 m).drop m = w.getD 0 default :: w.drop (m + 1) := by
  have hm' : m < (swapAt w 0 m).length := by simpa using hm
  have hroot := getD_swapAt_right (i := 0) hm
  rw [List.getD_eq_getElem?_getD, List.getElem?_eq_getElem hm', Option.getD_some] at hroot
  rw [List.drop_eq_getElem_cons hm', hroot, drop_swapAt (by omega) (by omega)]

theorem mem_take_of_mem_take_swapAt {w : List α} {m : ℕ} (hm : m < w.length) {x : α}
    (hx : x ∈ (swapAt w 0 m).take m) : x ∈ w.take (m + 1) := by
  have hsub := (List.take_sublist_take_left (show m ≤ m + 1 by omega)).subset hx
  rw [take_swapAt (by omega) (by omega)] at hsub
  exact (swapAt_perm (by simp; omega) (by simp; omega)).subset hsub

/-- A turn of the sort phase moves the root behind the heap. -/
theorem sortPhase_step {w : List α} {m : ℕ} (hm : m < w.length) (h : SortPhase key w (m + 1)) :
    SortPhase key (heapsortStep (keyLess key) w.length w m) m := by
  rw [heapsortStep, if_neg (by omega)]
  have hdrop : (siftDown (keyLess key) m (swapAt w 0 m) 0 w.length).drop m = w.getD 0 default :: w.drop (m + 1) := by
    rw [drop_siftDown, drop_swapAt_zero hm]
  have hroot : ∀ x ∈ w.take (m + 1), key x ≤ key (w.getD 0 default) := fun x hx => le_root_of_mem_take key h.heap hx
  have hrootMem := getD_zero_mem_take (show 0 < w.length by omega) m
  have hinv : SiftInv key (swapAt w 0 m) m 0 0 := by
    constructor
    · intro c hc hclen _ hpne
      rw [getD_swapAt_of_ne (by omega) (by omega), getD_swapAt_of_ne hpne (by omega)]
      exact h.heap c hc (by omega) (Nat.zero_le _)
    · intro hpos
      exact absurd hpos (Nat.lt_irrefl 0)
  refine ⟨heapFrom_siftDown key hinv le_rfl (by omega) (by simp; omega), ?_, ?_⟩
  · rw [hdrop, List.pairwise_cons]
    exact ⟨fun y hy => h.le _ hrootMem y hy, h.sorted⟩
  · rw [hdrop]
    intro x hx y hy
    have hxw : x ∈ w.take (m + 1) :=
      mem_take_of_mem_take_swapAt hm ((take_siftDown_perm _ (by simp; omega) 0 w.length).subset hx)
    rcases List.mem_cons.mp hy with rfl | hy
    · exact hroot x hxw
    · exact h.le x hxw y hy

/-- The sort phase, run from a heap of `m` elements. -/
theorem sorted_sortPhase (m : ℕ) {len : ℕ} {w : List α} (hw : w.length = len) (hm : m ≤ len)
    (h : SortPhase key w m) :
    ((List.range m).reverse.foldl (heapsortStep (keyLess key) len) w).Pairwise fun a b => key a ≤ key b := by
  induction m generalizing w with
  | zero => simpa using h.sorted
  | succ m ih =>
    rw [List.range_succ, List.reverse_append, List.reverse_singleton, List.singleton_append, List.foldl_cons]
    subst hw
    exact ih ((heapsortStep_perm _ rfl _).length_eq) (by omega) (sortPhase_step key (by omega) h)

/-- With the comparison of keys, `heapsort` sorts by key. -/
theorem heapsort_sorted (v : List α) : (heapsort (keyLess key) v).Pairwise fun a b => key a ≤ key b := by
  rw [heapsort_eq, List.range_add, ← List.range'_eq_map_range, List.reverse_append, List.foldl_append]
  have hheap := heapFrom_build key (v.length / 2) rfl (heapFrom_half key v v.length)
  generalize hw : (List.range' v.length (v.length / 2)).reverse.foldl (heapsortStep (keyLess key) v.length) v = w
    at hheap
  have hlen : w.length = v.length := by
    rw [← hw]
    exact (foldl_heapsortStep_perm _ _ rfl).length_eq
  apply sorted_sortPhase key v.length hlen le_rfl
  refine ⟨hheap, ?_, ?_⟩
  · rw [← hlen, List.drop_length]
    exact List.Pairwise.nil
  · intro x _ y hy
    rw [← hlen, List.drop_length] at hy
    exact absurd hy List.not_mem_nil

end Sorted

end UnstableSort
