import RustyKaspa.Lib.UnstableSort.Heapsort
import Mathlib.Data.List.Chain

/-!
# The unstable sort sorts

The parts of `sort::unstable::sort` put together. For any comparison each part
permutes the slice: the insertion sort is Mathlib's insertion sort on the
reversed slice (`insertionSortShiftLeft_eq`), a run is kept or reversed, and the
quicksort recurses on the two sides of a partition (`quicksort_perm`).

For the comparison of keys the result is sorted (`sort_sorted`). The quicksort
is proved by induction on its recursion limit with the ancestor pivot below
every element of the slice (`quicksort_sorted`): when the pivot is not above it,
the elements not above the pivot all have the pivot's key.

A slice of at most `threshold` elements that is not a single run is only ever
insertion-sorted, and the insertion sort keeps the order of equal keys; a
strictly descending run has no equal keys. Such a slice keeps the order of each
key (`sort_stable_of_length_le`). Any stable sort by key returns the same list
as the insertion sort (`eq_insertionSortShiftLeft_of_stable`), which is why the
stable small sort of the standard library is modelled by it.

Main results:

* `sort_perm`: `sort` permutes the slice.
* `sort_sorted`: with `keyLess key`, the result is sorted by key.
* `sort_stable_of_length_le`: with `keyLess key`, a slice of at most
  `threshold` elements keeps the input order of the elements of each key.
-/

namespace UnstableSort

variable {α : Type*} [Inhabited α]

/-! ## Permutation -/

section Perm

variable (isLess : α → α → Bool) (threshold : ℕ)

omit [Inhabited α] in
/-- `insert_tail` is the ordered insertion for "not less" into the sorted
prefix read from its end. -/
theorem insertTail_eq_orderedInsert (x : α) (l : List α) :
    insertTail isLess x l = l.orderedInsert (fun a b => isLess a b = false) x := by
  induction l with
  | nil => rfl
  | cons y ys ih =>
    by_cases h : isLess x y
    · simp [insertTail, h, ih]
    · simp [insertTail, h]

omit [Inhabited α] in
theorem insertionSortShiftLeft_eq (v : List α) :
    insertionSortShiftLeft isLess v = (v.reverse.insertionSort fun a b => isLess a b = false).reverse := by
  rw [insertionSortShiftLeft, List.foldl_eq_foldr_reverse]
  simp only [insertTail_eq_orderedInsert]
  rfl

omit [Inhabited α] in
theorem insertionSortShiftLeft_perm (v : List α) : (insertionSortShiftLeft isLess v).Perm v := by
  rw [insertionSortShiftLeft_eq]
  exact (List.reverse_perm _).trans ((List.perm_insertionSort _ _).trans (List.reverse_perm v))

/-- `median3` picks one of its three positions. -/
theorem median3_eq (v : List α) (a b c : ℕ) :
    median3 isLess v a b c = a ∨ median3 isLess v a b c = b ∨ median3 isLess v a b c = c := by
  unfold median3
  dsimp only
  split_ifs <;> simp

theorem median3Rec_lt (v : List α) (n : ℕ) :
    ∀ {a b c : ℕ}, a ≤ b → b ≤ c → 0 < n → median3Rec isLess v a b c n < c + n := by
  induction n using Nat.strong_induction_on with
  | _ n ih =>
    intro a b c hab hbc hn
    rw [median3Rec]
    split_ifs with hlarge
    · -- each region of `n / 8` elements starts at most `7 * (n / 8)` after its corner
      have h8 : 0 < n / 8 := by omega
      have hlt : n / 8 < n := by omega
      have ha := ih (n / 8) hlt (a := a) (b := a + n / 8 * 4) (c := a + n / 8 * 7) (by omega) (by omega) h8
      have hb := ih (n / 8) hlt (a := b) (b := b + n / 8 * 4) (c := b + n / 8 * 7) (by omega) (by omega) h8
      have hc := ih (n / 8) hlt (a := c) (b := c + n / 8 * 4) (c := c + n / 8 * 7) (by omega) (by omega) h8
      rcases median3_eq isLess v (median3Rec isLess v a (a + n / 8 * 4) (a + n / 8 * 7) (n / 8))
          (median3Rec isLess v b (b + n / 8 * 4) (b + n / 8 * 7) (n / 8))
          (median3Rec isLess v c (c + n / 8 * 4) (c + n / 8 * 7) (n / 8)) with h | h | h <;>
        rw [h] <;> omega
    · rcases median3_eq isLess v a b c with h | h | h <;> rw [h] <;> omega

/-- `choose_pivot` picks a position in the slice. -/
theorem choosePivot_lt {v : List α} (hv : 0 < v.length) : choosePivot isLess v < v.length := by
  unfold choosePivot
  dsimp only
  split_ifs with hsmall
  · rcases median3_eq isLess v 0 (v.length / 8 * 4) (v.length / 8 * 7) with h | h | h <;> rw [h] <;> omega
  · have hlt := median3Rec_lt isLess v (v.length / 8) (a := 0) (b := v.length / 8 * 4) (c := v.length / 8 * 7)
      (by omega) (by omega) (by omega)
    omega

omit [Inhabited α] in
/-- The three parts of a partitioned slice. -/
@[simp] theorem take_length_append_cons (lt ge : List α) (p : α) : (lt ++ p :: ge).take lt.length = lt := by
  simp

omit [Inhabited α] in
@[simp] theorem take_length_succ_append_cons (lt ge : List α) (p : α) :
    (lt ++ p :: ge).take (lt.length + 1) = lt ++ [p] := by
  simp [List.take_append]

omit [Inhabited α] in
@[simp] theorem drop_length_succ_append_cons (lt ge : List α) (p : α) :
    (lt ++ p :: ge).drop (lt.length + 1) = ge := by
  simp [List.drop_append]

@[simp] theorem getD_length_append_cons (lt ge : List α) (p : α) :
    (lt ++ p :: ge).getD lt.length default = p := by
  simp

/-- A slice longer than the small-sort threshold is partitioned at the pivot
`choose_pivot` picks. -/
theorem partition_choosePivot (isLess' : α → α → Bool) {v : List α} (hlarge : ¬v.length ≤ threshold) :
    ∃ lt ge, (lt ++ v.getD (choosePivot isLess v) default :: ge).Perm v ∧
      (∀ x ∈ lt, isLess' x (v.getD (choosePivot isLess v) default)) ∧
      (∀ x ∈ ge, isLess' x (v.getD (choosePivot isLess v) default) = false) ∧
      partition isLess' v (choosePivot isLess v) = (lt ++ v.getD (choosePivot isLess v) default :: ge, lt.length) :=
  partition_eq isLess' (choosePivot_lt isLess (by omega))

theorem quicksort_perm (limit : ℕ) : ∀ (v : List α) (ancestorPivot : Option α),
    (quicksort isLess threshold v ancestorPivot limit).Perm v := by
  induction limit with
  | zero =>
    intro v ancestorPivot
    rw [quicksort]
    split_ifs
    · exact insertionSortShiftLeft_perm isLess v
    · exact heapsort_perm isLess v
  | succ limit ih =>
    intro v ancestorPivot
    rw [quicksort]
    dsimp only
    split_ifs with hsmall hequal
    · exact insertionSortShiftLeft_perm isLess v
    · obtain ⟨lt, ge, hperm, -, -, hpart⟩ := partition_choosePivot isLess threshold (fun a b => !isLess b a) hsmall
      simp only [hpart, take_length_succ_append_cons, drop_length_succ_append_cons]
      rw [List.append_assoc, List.singleton_append]
      exact (((ih ge none).cons _).append_left lt).trans hperm
    · obtain ⟨lt, ge, hperm, -, -, hpart⟩ := partition_choosePivot isLess threshold isLess hsmall
      simp only [hpart, take_length_append_cons, drop_length_succ_append_cons, getD_length_append_cons]
      exact ((ih lt ancestorPivot).append ((ih ge _).cons _)).trans hperm

theorem ipnsort_perm (v : List α) : (ipnsort isLess threshold v).Perm v := by
  unfold ipnsort
  rcases findExistingRun isLess v with ⟨runLen, wasReversed⟩
  dsimp only
  split_ifs with hrun hrev
  · exact List.reverse_perm v
  · exact List.Perm.refl v
  · exact quicksort_perm isLess threshold _ v none

/-- `sort::unstable::sort` permutes the slice. -/
theorem sort_perm (v : List α) : (sort isLess threshold v).Perm v := by
  unfold sort
  split_ifs
  · exact List.Perm.refl v
  · exact insertionSortShiftLeft_perm isLess v
  · exact ipnsort_perm isLess threshold v

omit [Inhabited α] in
theorem isChain_of_runLength_eq {sd : Bool} {prev : α} {rest : List α}
    (h : runLength isLess sd prev rest = rest.length) :
    (prev :: rest).IsChain fun a b => (if sd then isLess b a else !isLess b a) = true := by
  induction rest generalizing prev with
  | nil => exact List.IsChain.singleton prev
  | cons x rest ih =>
    by_cases hx : (if sd then isLess x prev else !isLess x prev) = true
    · rw [runLength, if_pos hx] at h
      exact List.IsChain.cons_cons hx (ih (by simpa using h))
    · rw [runLength, if_neg hx] at h
      simp at h

omit [Inhabited α] in
/-- A run that covers the slice is a chain: strictly descending when the
first two elements are, non-descending otherwise. -/
theorem isChain_of_findExistingRun {v : List α} (hrun : (findExistingRun isLess v).1 = v.length) :
    v.IsChain fun a b => (if (findExistingRun isLess v).2 then isLess b a else !isLess b a) = true := by
  rcases v with _ | ⟨a, _ | ⟨b, rest⟩⟩
  · exact List.IsChain.nil
  · exact List.IsChain.singleton a
  · simp only [findExistingRun, List.length_cons, Nat.add_right_cancel_iff] at hrun ⊢
    refine List.IsChain.cons_cons (by by_cases h : isLess b a <;> simp [h]) ?_
    exact isChain_of_runLength_eq isLess hrun

end Perm

/-! ## Sortedness -/

section Sorted

variable {κ : Type*} [LinearOrder κ] (key : α → κ) (threshold : ℕ)

omit [Inhabited α] in
theorem insertionSortShiftLeft_sorted (v : List α) :
    (insertionSortShiftLeft (keyLess key) v).Pairwise fun a b => key a ≤ key b := by
  rw [insertionSortShiftLeft_eq, List.pairwise_reverse]
  -- "not less" is a total preorder on keys
  have : Std.Total fun a b : α => keyLess key a b = false :=
    ⟨fun a b => by simpa only [keyLess_eq_false] using le_total (key b) (key a)⟩
  have : IsTrans α fun a b : α => keyLess key a b = false :=
    ⟨fun a b c hab hbc => by simp only [keyLess_eq_false] at *; exact hbc.trans hab⟩
  exact (List.pairwise_insertionSort _ v.reverse).imp fun hab => (keyLess_eq_false key).mp hab

omit [Inhabited α] in
/-- The insertion sort keeps the order of the elements of each key. -/
theorem insertionSortShiftLeft_stable (v : List α) (k : κ) :
    (insertionSortShiftLeft (keyLess key) v).filter (fun y => key y = k) = v.filter fun x => key x = k := by
  rw [insertionSortShiftLeft_eq, List.filter_reverse]
  -- the elements of key `k` are pairwise "not less", so they stay a sublist of the sorted list
  have hpair : (v.reverse.filter fun x => key x = k).Pairwise fun a b => keyLess key a b = false := by
    refine List.pairwise_of_forall_mem_list fun a ha b hb => ?_
    have hak : key a = k := by simpa using (List.mem_filter.mp ha).2
    have hbk : key b = k := by simpa using (List.mem_filter.mp hb).2
    rw [keyLess_eq_false, hak, hbk]
  have hsub := (List.sublist_insertionSort hpair List.filter_sublist).filter fun x => decide (key x = k)
  simp only [List.filter_filter, Bool.and_self] at hsub
  have hlen := ((List.perm_insertionSort (fun a b => keyLess key a b = false) v.reverse).filter
    fun x => decide (key x = k)).length_eq
  rw [← hsub.eq_of_length hlen.symm, List.filter_reverse, List.reverse_reverse]

omit [Inhabited α] in
/-- Two lists sorted by key that hold the same elements of each key, in the
same order, are equal. -/
theorem eq_of_sorted_of_filter_eq {ys zs : List α} (hys : ys.Pairwise fun a b => key a ≤ key b)
    (hzs : zs.Pairwise fun a b => key a ≤ key b)
    (h : ∀ k, ys.filter (fun y => key y = k) = zs.filter fun z => key z = k) : ys = zs := by
  induction ys generalizing zs with
  | nil =>
    cases zs with
    | nil => rfl
    | cons z zs => simpa using (h (key z)).symm
  | cons y ys ih =>
    cases zs with
    | nil => simpa using h (key y)
    | cons z zs =>
      -- each head has the least key of its list, and the two lists have the same keys
      have hzy : key y ≤ key z := by
        have hz : z ∈ (y :: ys).filter (fun x => key x = key z) := by
          rw [h (key z)]
          simp
        rcases List.mem_cons.mp (List.mem_filter.mp hz).1 with rfl | hz'
        · exact le_rfl
        · exact (List.pairwise_cons.mp hys).1 z hz'
      have hyz : key z ≤ key y := by
        have hy : y ∈ (z :: zs).filter (fun x => key x = key y) := by
          rw [← h (key y)]
          simp
        rcases List.mem_cons.mp (List.mem_filter.mp hy).1 with rfl | hy'
        · exact le_rfl
        · exact (List.pairwise_cons.mp hzs).1 y hy'
      have hhead : y = z := by
        have hfirst := h (key y)
        rw [List.filter_cons_of_pos (by simp), List.filter_cons_of_pos (by simp [le_antisymm hzy hyz])] at hfirst
        exact (List.cons.inj hfirst).1
      subst hhead
      refine congrArg (y :: ·) (ih (List.pairwise_cons.mp hys).2 (List.pairwise_cons.mp hzs).2 fun k => ?_)
      have hk := h k
      by_cases hyk : key y = k
      · rw [List.filter_cons_of_pos (by simpa using hyk), List.filter_cons_of_pos (by simpa using hyk)] at hk
        exact (List.cons.inj hk).2
      · rwa [List.filter_cons_of_neg (by simpa using hyk), List.filter_cons_of_neg (by simpa using hyk)] at hk

omit [Inhabited α] in
/-- A stable sort by key returns what the insertion sort returns: the stable
small sort of the standard library and `insertion_sort_shift_left` agree. -/
theorem eq_insertionSortShiftLeft_of_stable {xs ys : List α} (hsorted : ys.Pairwise fun a b => key a ≤ key b)
    (hstable : ∀ k, ys.filter (fun y => key y = k) = xs.filter fun x => key x = k) :
    ys = insertionSortShiftLeft (keyLess key) xs :=
  eq_of_sorted_of_filter_eq key hsorted (insertionSortShiftLeft_sorted key xs) fun k =>
    (hstable k).trans (insertionSortShiftLeft_stable key xs k).symm

omit [Inhabited α] in
theorem sorted_of_isChain_not_less {l : List α} (h : l.IsChain fun a b => (!keyLess key b a) = true) :
    l.Pairwise fun a b => key a ≤ key b := by
  have hmap : (l.map key).IsChain (· ≤ ·) := (List.isChain_map key).mpr (h.imp fun a b hab => by simpa using hab)
  exact List.pairwise_map.mp (List.isChain_iff_pairwise.mp hmap)

omit [Inhabited α] in
theorem pairwise_reverse_lt_of_isChain_less {l : List α} (h : l.IsChain fun a b => keyLess key b a = true) :
    l.reverse.Pairwise fun a b => key a < key b := by
  have hrev : (l.reverse.map key).IsChain (· < ·) :=
    (List.isChain_map key).mpr (List.isChain_reverse.mpr (h.imp fun a b hab => by simpa using hab))
  exact List.pairwise_map.mp (List.isChain_iff_pairwise.mp hrev)

omit [Inhabited α] in
theorem sorted_reverse_of_isChain_less {l : List α} (h : l.IsChain fun a b => keyLess key b a = true) :
    l.reverse.Pairwise fun a b => key a ≤ key b :=
  (pairwise_reverse_lt_of_isChain_less key h).imp le_of_lt

omit [Inhabited α] in
/-- The two sides of a pivot, each sorted, with the pivot between them. -/
theorem sorted_append_cons {lo hi : List α} {p : α} (hlo : lo.Pairwise fun a b => key a ≤ key b)
    (hhi : hi.Pairwise fun a b => key a ≤ key b) (hlop : ∀ x ∈ lo, key x ≤ key p) (hphi : ∀ y ∈ hi, key p ≤ key y) :
    (lo ++ p :: hi).Pairwise fun a b => key a ≤ key b := by
  refine List.pairwise_append.mpr ⟨hlo, List.pairwise_cons.mpr ⟨hphi, hhi⟩, ?_⟩
  intro x hx y hy
  rcases List.mem_cons.mp hy with rfl | hy
  · exact hlop x hx
  · exact (hlop x hx).trans (hphi y hy)

/-- The quicksort sorts a slice whose ancestor pivot is below all its elements. -/
theorem quicksort_sorted (limit : ℕ) : ∀ (v : List α) (ancestorPivot : Option α),
    (∀ a ∈ ancestorPivot, ∀ x ∈ v, key a ≤ key x) →
      (quicksort (keyLess key) threshold v ancestorPivot limit).Pairwise fun a b => key a ≤ key b := by
  induction limit with
  | zero =>
    intro v ancestorPivot _
    rw [quicksort]
    split_ifs
    · exact insertionSortShiftLeft_sorted key v
    · exact heapsort_sorted key v
  | succ limit ih =>
    intro v ancestorPivot hanc
    rw [quicksort]
    dsimp only
    split_ifs with hsmall hequal
    · exact insertionSortShiftLeft_sorted key v
    · -- the pivot is not above the ancestor pivot, which is below everything
      obtain ⟨a, rfl, hpa⟩ := (Option.any_eq_true _ _).mp hequal
      generalize hp : v.getD (choosePivot (keyLess key) v) default = p at hpa
      obtain ⟨lt, ge, hperm, hlt, hge, hpart⟩ :=
        partition_choosePivot (keyLess key) threshold (fun a b => !keyLess key b a) hsmall
      rw [hp] at hperm hlt hge hpart
      simp only [hpart, take_length_succ_append_cons, drop_length_succ_append_cons]
      rw [List.append_assoc, List.singleton_append]
      have hpa' : key p ≤ key a := by simpa using hpa
      have hltp : ∀ x ∈ lt, key x ≤ key p := fun x hx => by simpa using hlt x hx
      -- so the lower part holds the pivot's key only
      have hsame : ∀ x ∈ lt, key x = key p := fun x hx =>
        le_antisymm (hltp x hx) (hpa'.trans (hanc a rfl x (hperm.subset (List.mem_append_left _ hx))))
      have hgep : ∀ y ∈ quicksort (keyLess key) threshold ge none limit, key p ≤ key y := fun y hy => by
        have hpy : key p < key y := by
          simpa using hge y ((quicksort_perm (keyLess key) threshold limit ge none).subset hy)
        exact hpy.le
      apply sorted_append_cons key _ (ih ge none (by simp)) hltp hgep
      exact List.pairwise_of_forall_mem_list fun x hx y hy => by rw [hsame x hx, hsame y hy]
    · obtain ⟨lt, ge, hperm, hlt, hge, hpart⟩ := partition_choosePivot (keyLess key) threshold (keyLess key) hsmall
      generalize v.getD (choosePivot (keyLess key) v) default = p at hperm hlt hge hpart
      simp only [hpart, take_length_append_cons, drop_length_succ_append_cons, getD_length_append_cons]
      have hltp : ∀ x ∈ quicksort (keyLess key) threshold lt ancestorPivot limit, key x ≤ key p := fun x hx =>
        ((keyLess_eq_true key).mp (hlt x ((quicksort_perm (keyLess key) threshold limit lt _).subset hx))).le
      have hgep : ∀ y ∈ quicksort (keyLess key) threshold ge (some p) limit, key p ≤ key y := fun y hy =>
        (keyLess_eq_false key).mp (hge y ((quicksort_perm (keyLess key) threshold limit ge _).subset hy))
      have hleft := ih lt ancestorPivot fun a ha x hx => hanc a ha x (hperm.subset (List.mem_append_left _ hx))
      have hright := ih ge (some p) fun a ha x hx => by
        rw [← Option.mem_some_iff.mp ha]
        exact (keyLess_eq_false key).mp (hge x hx)
      exact sorted_append_cons key hleft hright hltp hgep

theorem ipnsort_sorted (v : List α) : (ipnsort (keyLess key) threshold v).Pairwise fun a b => key a ≤ key b := by
  have hchain := isChain_of_findExistingRun (keyLess key) (v := v)
  unfold ipnsort
  rcases hrun : findExistingRun (keyLess key) v with ⟨runLen, wasReversed⟩
  rw [hrun] at hchain
  dsimp only at hchain ⊢
  split_ifs with hrun hrev
  · exact sorted_reverse_of_isChain_less key (by simpa [hrev] using hchain hrun)
  · exact sorted_of_isChain_not_less key (by simpa [hrev] using hchain hrun)
  · exact quicksort_sorted key threshold _ v none (by simp)

/-- With the comparison of keys, `sort::unstable::sort` sorts by key. -/
theorem sort_sorted (v : List α) : (sort (keyLess key) threshold v).Pairwise fun a b => key a ≤ key b := by
  unfold sort
  split_ifs with hshort hsmall
  · rcases v with _ | ⟨a, _ | ⟨b, rest⟩⟩
    · exact List.Pairwise.nil
    · exact List.pairwise_singleton _ a
    · exact absurd hshort (by simp)
  · exact insertionSortShiftLeft_sorted key v
  · exact ipnsort_sorted key threshold v

/-! ## Sorted slices -/

omit [Inhabited α] in
theorem insertionSortShiftLeft_of_sorted {v : List α} (h : v.Pairwise fun a b => key a ≤ key b) :
    insertionSortShiftLeft (keyLess key) v = v := by
  have hrev : v.reverse.Pairwise fun a b => keyLess key a b = false := by
    rw [List.pairwise_reverse]
    exact h.imp fun hab => (keyLess_eq_false key).mpr hab
  rw [insertionSortShiftLeft_eq, List.Pairwise.insertionSort_eq hrev, List.reverse_reverse]

omit [Inhabited α] in
/-- On a sorted slice the non-descending run goes to its end. -/
theorem runLength_of_sorted {prev : α} {rest : List α} (h : (prev :: rest).Pairwise fun a b => key a ≤ key b) :
    runLength (keyLess key) false prev rest = rest.length := by
  induction rest generalizing prev with
  | nil => rfl
  | cons x rest ih =>
    have hx : (!keyLess key x prev) = true := by
      simpa using (List.pairwise_cons.mp h).1 x List.mem_cons_self
    rw [runLength, if_pos (by simpa using hx), ih (List.pairwise_cons.mp h).2, List.length_cons]

omit [Inhabited α] in
theorem findExistingRun_of_sorted {v : List α} (h : v.Pairwise fun a b => key a ≤ key b) :
    findExistingRun (keyLess key) v = (v.length, false) := by
  rcases v with _ | ⟨a, _ | ⟨b, rest⟩⟩
  · rfl
  · rfl
  · have hba : keyLess key b a = false := (keyLess_eq_false key).mpr ((List.pairwise_cons.mp h).1 b List.mem_cons_self)
    simp only [findExistingRun, hba, runLength_of_sorted key (List.pairwise_cons.mp h).2, List.length_cons]

/-- A sorted slice is left as it is. -/
theorem sort_of_sorted {v : List α} (h : v.Pairwise fun a b => key a ≤ key b) : sort (keyLess key) threshold v = v := by
  unfold sort
  split_ifs with hshort hsmall
  · rfl
  · exact insertionSortShiftLeft_of_sorted key h
  · simp only [ipnsort, findExistingRun_of_sorted key h, if_true, Bool.false_eq_true, if_false]

/-! ## Short slices -/

/-- A slice of at most `threshold` elements goes straight to the small sort. -/
theorem quicksort_of_length_le {v : List α} (hv : v.length ≤ threshold) (ancestorPivot : Option α) (limit : ℕ) :
    quicksort (keyLess key) threshold v ancestorPivot limit = insertionSortShiftLeft (keyLess key) v := by
  cases limit with
  | zero => rw [quicksort, if_pos hv]
  | succ limit => rw [quicksort, if_pos hv]

omit [Inhabited α] in
/-- A strictly descending slice has at most one element of each key. -/
theorem filter_reverse_of_isChain_less {l : List α} (h : l.IsChain fun a b => keyLess key b a = true) (k : κ) :
    l.reverse.filter (fun x => key x = k) = l.filter fun x => key x = k := by
  have hpair : (l.filter fun x => key x = k).Pairwise fun a b => key b < key a := by
    rw [← List.pairwise_reverse, ← List.filter_reverse]
    exact (pairwise_reverse_lt_of_isChain_less key h).sublist List.filter_sublist
  have hkeys : ∀ x ∈ l.filter (fun x => key x = k), key x = k := fun x hx => by
    simpa using (List.mem_filter.mp hx).2
  rw [List.filter_reverse]
  generalize l.filter (fun x => key x = k) = M at hpair hkeys
  rcases M with _ | ⟨x, _ | ⟨y, M⟩⟩
  · rfl
  · rfl
  · have hlt := List.rel_of_pairwise_cons hpair List.mem_cons_self
    rw [hkeys x List.mem_cons_self, hkeys y (List.mem_cons_of_mem _ List.mem_cons_self)] at hlt
    exact absurd hlt (lt_irrefl k)

/-- A slice of at most `threshold` elements keeps the input order of the
elements of each key. -/
theorem sort_stable_of_length_le {v : List α} (hv : v.length ≤ threshold) (k : κ) :
    (sort (keyLess key) threshold v).filter (fun y => key y = k) = v.filter fun x => key x = k := by
  have hchain := isChain_of_findExistingRun (keyLess key) (v := v)
  unfold sort
  split_ifs with hshort hsmall
  · rfl
  · exact insertionSortShiftLeft_stable key v k
  · unfold ipnsort
    rcases hrun : findExistingRun (keyLess key) v with ⟨runLen, wasReversed⟩
    rw [hrun] at hchain
    dsimp only at hchain ⊢
    split_ifs with hrun hrev
    · exact filter_reverse_of_isChain_less key (by simpa [hrev] using hchain hrun) k
    · rfl
    · rw [quicksort_of_length_le key threshold hv]
      exact insertionSortShiftLeft_stable key v k

end Sorted

end UnstableSort
