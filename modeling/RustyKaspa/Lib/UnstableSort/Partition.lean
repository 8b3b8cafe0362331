import RustyKaspa.Lib.UnstableSort
import Mathlib.Data.List.GetD
import Mathlib.Data.List.Rotate

/-!
# The partition of the unstable sort

What `partition_lomuto_branchless_cyclic` and `partition` compute, for any
comparison. After the loop body has run on the elements `done` after the saved
one, the slice holds the elements of `done` less than the pivot, in their order,
then the others in some order, then the gap, then the elements still to come
(`LoopInv`, `loopInv_foldl`). The last turn puts the saved element right after
the lower part (`partitionLomutoBranchlessCyclic_eq`).

`partition` swaps the pivot to the front, partitions the rest, and swaps the
pivot with the last element of the lower part (`partition_eq`): the result is a
permutation of the slice with the pivot at `num_lt`, the elements less than it
before, and the others after. The lower part is moved by that last swap, so the
partition does not keep the order of equal elements.
-/

namespace UnstableSort

variable {α : Type*} [Inhabited α]

/-! ## Swaps -/

@[simp] theorem length_swapAt (v : List α) (i j : ℕ) : (swapAt v i j).length = v.length := by
  simp [swapAt]

theorem swapAt_self (v : List α) (i : ℕ) : swapAt v i i = v := by
  unfold swapAt
  rcases Nat.lt_or_ge i v.length with hi | hi
  · rw [List.getD_eq_getElem?_getD, List.getElem?_eq_getElem hi, Option.getD_some, List.set_getElem_self,
      List.set_getElem_self]
  · rw [List.set_eq_of_length_le hi, List.set_eq_of_length_le hi]

/-- Swapping the elements at the ends of a middle part. -/
theorem swapAt_append (A B C : List α) (x y : α) :
    swapAt (A ++ x :: (B ++ y :: C)) A.length (A.length + B.length + 1) = A ++ y :: (B ++ x :: C) := by
  have hy : (A ++ x :: (B ++ y :: C)).getD (A.length + B.length + 1) default = y := by
    rw [List.getD_append_right _ _ _ _ (by omega), show A.length + B.length + 1 - A.length = B.length + 1 by omega,
      List.getD_cons_succ, List.getD_append_right _ _ _ _ le_rfl, Nat.sub_self, List.getD_cons_zero]
  rw [swapAt, hy, List.getD_append_right _ _ _ _ le_rfl, Nat.sub_self, List.getD_cons_zero,
    List.set_append_right _ _ le_rfl, Nat.sub_self, List.set_cons_zero,
    List.set_append_right _ _ (by omega), show A.length + B.length + 1 - A.length = B.length + 1 by omega,
    List.set_cons_succ, List.set_append_right _ _ le_rfl, Nat.sub_self, List.set_cons_zero]

theorem getD_swapAt_of_ne {v : List α} {i j k : ℕ} (hi : k ≠ i) (hj : k ≠ j) :
    (swapAt v i j).getD k default = v.getD k default := by
  simp [swapAt, List.getD_eq_getElem?_getD, Ne.symm hi, Ne.symm hj]

theorem getD_swapAt_right {v : List α} {i j : ℕ} (hj : j < v.length) :
    (swapAt v i j).getD j default = v.getD i default := by
  simp [swapAt, List.getD_eq_getElem?_getD, hj]

/-- A swap of two positions before `n` leaves the elements from `n` on. -/
theorem drop_swapAt {v : List α} {i j n : ℕ} (hi : i < n) (hj : j < n) :
    (swapAt v i j).drop n = v.drop n := by
  rw [swapAt, List.drop_set_of_lt hj, List.drop_set_of_lt hi]

/-- A swap of two positions before `n` is a swap in the first `n` elements. -/
theorem take_swapAt {v : List α} {i j n : ℕ} (hi : i < n) (hj : j < n) :
    (swapAt v i j).take n = swapAt (v.take n) i j := by
  simp [swapAt, List.take_set, List.getD_eq_getElem?_getD, hi, hj]

omit [Inhabited α] in
/-- Two positions `i < j` inside a list cut it around the elements they hold. -/
theorem exists_split_of_lt {v : List α} {i j : ℕ} (hij : i < j) (hj : j < v.length) :
    ∃ A x B y C, v = A ++ x :: (B ++ y :: C) ∧ A.length = i ∧ A.length + B.length + 1 = j := by
  have hi : i < v.length := by omega
  have hk : j - (i + 1) < (v.drop (i + 1)).length := by simp; omega
  refine ⟨v.take i, v[i], (v.drop (i + 1)).take (j - (i + 1)), (v.drop (i + 1))[j - (i + 1)],
    (v.drop (i + 1)).drop (j - (i + 1) + 1), ?_, by simp; omega, by simp; omega⟩
  rw [← List.drop_eq_getElem_cons hk, List.take_append_drop, ← List.drop_eq_getElem_cons hi,
    List.take_append_drop]

theorem swapAt_comm (v : List α) (i j : ℕ) : swapAt v i j = swapAt v j i := by
  unfold swapAt
  rcases eq_or_ne i j with rfl | hij
  · rfl
  · exact List.set_comm _ _ hij

theorem getD_swapAt_left {v : List α} {i j : ℕ} (hi : i < v.length) :
    (swapAt v i j).getD i default = v.getD j default := by
  rw [swapAt_comm, getD_swapAt_right hi]

theorem swapAt_perm {v : List α} {i j : ℕ} (hi : i < v.length) (hj : j < v.length) : (swapAt v i j).Perm v := by
  -- it is enough to swap a position with a later one
  have hlt : ∀ {i j : ℕ}, i < j → j < v.length → (swapAt v i j).Perm v := by
    intro i j hij hj
    obtain ⟨A, x, B, y, C, rfl, rfl, rfl⟩ := exists_split_of_lt hij hj
    rw [swapAt_append]
    refine List.Perm.append_left A ?_
    have hy : (y :: (B ++ x :: C)).Perm (y :: x :: (B ++ C)) := List.Perm.cons y List.perm_middle
    have hx : (x :: (B ++ y :: C)).Perm (x :: y :: (B ++ C)) := List.Perm.cons x List.perm_middle
    exact hy.trans ((List.Perm.swap x y _).trans hx.symm)
  rcases Nat.lt_trichotomy i j with hij | rfl | hij
  · exact hlt hij hj
  · rw [swapAt_self]
  · rw [swapAt_comm]
    exact hlt hij hi

/-- Swapping the front with the last element of the part `lt` after it moves
that element to the front and leaves a permutation of `lt` before the old front. -/
theorem swapAt_zero_cons_append (p : α) (lt rest : List α) :
    ∃ lt', lt'.Perm lt ∧ swapAt (p :: (lt ++ rest)) 0 lt.length = lt' ++ p :: rest := by
  rcases List.eq_nil_or_concat' lt with rfl | ⟨init, y, rfl⟩
  · exact ⟨[], List.Perm.refl _, swapAt_self _ _⟩
  · refine ⟨y :: init, List.perm_append_singleton y init |>.symm, ?_⟩
    have h := swapAt_append [] init rest p y
    simp only [List.nil_append, List.length_nil, Nat.zero_add] at h
    simpa using h

omit [Inhabited α] in
/-- A list splits into the elements that satisfy `p` and a permutation of the others. -/
theorem length_filter_add_length_of_perm {p : α → Bool} {l ge : List α} (h : ge.Perm (l.filter fun x => !p x)) :
    (l.filter p).length + ge.length = l.length := by
  rw [h.length_eq, ← List.length_eq_length_filter_add]

/-! ## The loop of the cyclic partition -/

section Loop

variable (isLess : α → α → Bool) (pivot : α)

/-- The slice after the loop body has run on the elements `done` after the saved
one, with `todo` still to come: the elements of `done` less than the pivot in
their order, the others in some order, the gap, and `todo` untouched. -/
def LoopInv (done todo : List α) (st : PartitionState α) : Prop :=
  ∃ ge junk, ge.Perm (done.filter fun x => !isLess x pivot) ∧
    st.arr = done.filter (fun x => isLess x pivot) ++ ge ++ junk :: todo ∧
    st.numLt = (done.filter fun x => isLess x pivot).length ∧ st.gap = done.length

@[simp] theorem loopBody_numLt (st : PartitionState α) (right : α) (rightPos : ℕ) :
    (loopBody isLess pivot st right rightPos).numLt = st.numLt + if isLess right pivot then 1 else 0 := rfl

@[simp] theorem loopBody_gap (st : PartitionState α) (right : α) (rightPos : ℕ) :
    (loopBody isLess pivot st right rightPos).gap = rightPos := rfl

/-- One turn of the loop body when `num_lt` is the end of the lower part and the
gap the end of the upper part: `right` ends the lower part, and the upper part
turns by one. -/
theorem loopBody_arr {st : PartitionState α} {lt ge T : List α} {junk : α}
    (harr : st.arr = lt ++ ge ++ junk :: T) (hnum : st.numLt = lt.length)
    (hgap : st.gap = lt.length + ge.length) (right : α) (rightPos : ℕ) :
    (loopBody isLess pivot st right rightPos).arr = lt ++ right :: (ge.rotate 1 ++ T) := by
  simp only [loopBody, harr, hnum, hgap]
  cases ge with
  | nil =>
    -- the gap is at `num_lt`: the first write puts back what is there
    simp [List.set_append_right]
  | cons g ge =>
    have hg : (lt ++ (g :: ge) ++ junk :: T).getD lt.length default = g := by
      simp
    rw [hg, List.append_assoc, List.set_append_right _ _ (by simp), List.set_append_right _ _ le_rfl]
    simp [List.set_append_right]

omit [Inhabited α] in
theorem loopInv_start (saved : α) (rest : List α) : LoopInv isLess pivot [] rest ⟨saved :: rest, 0, 0⟩ :=
  ⟨[], saved, List.Perm.refl _, rfl, rfl, rfl⟩

theorem loopInv_step {done todo : List α} {right : α} {st : PartitionState α}
    (h : LoopInv isLess pivot done (right :: todo) st) :
    LoopInv isLess pivot (done ++ [right]) todo
      (loopBody isLess pivot st (st.arr.getD (done.length + 1) default) (done.length + 1)) := by
  obtain ⟨ge, junk, hperm, harr, hnum, hgap⟩ := h
  have hlen := length_filter_add_length_of_perm hperm
  have hright : st.arr.getD (done.length + 1) default = right := by
    rw [harr, ← hlen, List.getD_append_right _ _ _ _ (by simp)]
    simp
  have harr' := loopBody_arr isLess pivot harr hnum (by rw [hgap, hlen]) right (done.length + 1)
  rw [hright]
  by_cases hlt : isLess right pivot
  · -- `right` joins the lower part; the upper part only turns
    refine ⟨ge.rotate 1, right, ?_, ?_, ?_, by simp⟩
    · simpa [hlt] using (List.rotate_perm ge 1).trans hperm
    · simpa [hlt] using harr'
    · simp [hnum, hlt]
  · -- `right` starts the upper part
    have hge : (right :: ge.rotate 1).Perm ((done ++ [right]).filter fun x => !isLess x pivot) := by
      simpa [hlt] using (List.perm_append_singleton right _).symm.trans
        (((List.rotate_perm ge 1).trans hperm).append_right [right])
    refine ⟨right :: ge.rotate 1, right, hge, ?_, ?_, by simp⟩
    · simpa [hlt] using harr'
    · simp [hnum, hlt]

/-- The loop over the positions after `done`, run to the end of the slice. -/
theorem loopInv_foldl {done todo : List α} {st : PartitionState α} (h : LoopInv isLess pivot done todo st) :
    LoopInv isLess pivot (done ++ todo) []
      ((List.range' (done.length + 1) todo.length).foldl
        (fun st rightPos => loopBody isLess pivot st (st.arr.getD rightPos default) rightPos) st) := by
  induction todo generalizing done st with
  | nil => simpa using h
  | cons right todo ih =>
    have hstep := ih (loopInv_step isLess pivot h)
    simp only [List.length_append, List.length_singleton, List.append_assoc, List.singleton_append]
      at hstep
    simpa [List.range'_succ] using hstep

/-- `partition_lomuto_branchless_cyclic` on a nonempty slice: the elements after
the saved one that are less than the pivot, in their order, then the saved
element, then the other elements in some order. -/
theorem partitionLomutoBranchlessCyclic_eq (saved : α) (rest : List α) :
    ∃ ge, ge.Perm (rest.filter fun x => !isLess x pivot) ∧
      partitionLomutoBranchlessCyclic isLess (saved :: rest) pivot =
        (rest.filter (fun x => isLess x pivot) ++ saved :: ge,
          (rest.filter fun x => isLess x pivot).length + if isLess saved pivot then 1 else 0) := by
  obtain ⟨ge, junk, hperm, harr, hnum, hgap⟩ := loopInv_foldl isLess pivot (loopInv_start isLess pivot saved rest)
  simp only [List.nil_append, List.length_nil, Nat.zero_add] at hperm harr hnum hgap
  have hlen := length_filter_add_length_of_perm hperm
  refine ⟨ge.rotate 1, (List.rotate_perm ge 1).trans hperm, ?_⟩
  have harr' := loopBody_arr isLess pivot harr hnum (by rw [hgap, hlen]) saved
  simp only [List.append_nil] at harr'
  simp only [partitionLomutoBranchlessCyclic, List.length_cons, Nat.add_sub_cancel, harr']
  simp only [loopBody_numLt, hnum]

/-- `partition_lomuto_branchless_cyclic` returns a permutation of the slice
with the elements less than the pivot before `num_lt` and the others after. -/
theorem partitionLomutoBranchlessCyclic_split (v : List α) :
    ∃ low up, partitionLomutoBranchlessCyclic isLess v pivot = (low ++ up, low.length) ∧
      (low ++ up).Perm v ∧ (∀ x ∈ low, isLess x pivot) ∧ ∀ x ∈ up, isLess x pivot = false := by
  cases v with
  | nil => exact ⟨[], [], rfl, List.Perm.refl _, by simp, by simp⟩
  | cons saved rest =>
    obtain ⟨ge, hge, hcyc⟩ := partitionLomutoBranchlessCyclic_eq isLess pivot saved rest
    have hsplit : (rest.filter (fun x => isLess x pivot) ++ saved :: ge).Perm (saved :: rest) :=
      List.perm_middle.trans (((hge.append_left _).trans (List.filter_append_perm _ rest)).cons saved)
    have hup : ∀ x ∈ ge, isLess x pivot = false := fun x hx => by
      simpa using (List.mem_filter.mp (hge.subset hx)).2
    by_cases hsaved : isLess saved pivot
    · -- the saved element ends the lower part
      refine ⟨rest.filter (fun x => isLess x pivot) ++ [saved], ge, by simp [hcyc, hsaved], by simpa using hsplit,
        ?_, hup⟩
      intro x hx
      rcases List.mem_append.mp hx with hx | hx
      · exact (List.mem_filter.mp hx).2
      · rw [List.mem_singleton.mp hx]
        exact hsaved
    · -- the saved element starts the upper part
      refine ⟨rest.filter (fun x => isLess x pivot), saved :: ge, by simp [hcyc, hsaved], hsplit,
        fun x hx => (List.mem_filter.mp hx).2, ?_⟩
      intro x hx
      rcases List.mem_cons.mp hx with rfl | hx
      · simpa using hsaved
      · exact hup x hx

end Loop

/-! ## The partition -/

section Partition

variable (isLess : α → α → Bool)

/-- `v.swap(0, pivot)` puts the pivot in front of a permutation of the others. -/
theorem exists_swapAt_zero_eq {v : List α} {pivotPos : ℕ} (hpos : pivotPos < v.length) :
    ∃ rest, swapAt v 0 pivotPos = v.getD pivotPos default :: rest ∧
      (v.getD pivotPos default :: rest).Perm v := by
  have hlen : 0 < (swapAt v 0 pivotPos).length := by simp; omega
  obtain ⟨x, rest, hx⟩ := List.exists_cons_of_length_pos hlen
  have hhead : x = v.getD pivotPos default := by
    rw [← getD_swapAt_left (show 0 < v.length by omega), hx]
    rfl
  refine ⟨rest, by rw [hx, hhead], ?_⟩
  rw [← hhead, ← hx]
  exact swapAt_perm (by omega) hpos

/-- `partition` at a position in the slice: a permutation of the slice with the
pivot at `num_lt`, the elements less than it before it and the others after. -/
theorem partition_eq {v : List α} {pivotPos : ℕ} (hpos : pivotPos < v.length) :
    ∃ lt ge, (lt ++ v.getD pivotPos default :: ge).Perm v ∧
      (∀ x ∈ lt, isLess x (v.getD pivotPos default)) ∧
      (∀ x ∈ ge, isLess x (v.getD pivotPos default) = false) ∧
      partition isLess v pivotPos = (lt ++ v.getD pivotPos default :: ge, lt.length) := by
  obtain ⟨rest, hswap, hperm⟩ := exists_swapAt_zero_eq hpos
  generalize v.getD pivotPos default = pivot at hswap hperm ⊢
  obtain ⟨low, up, hcyc, hsplit, hlow, hup⟩ := partitionLomutoBranchlessCyclic_split isLess pivot rest
  -- the last swap moves the pivot between the two parts
  obtain ⟨low', hlow', hlast⟩ := swapAt_zero_cons_append pivot low up
  refine ⟨low', up, ?_, fun x hx => hlow x (hlow'.subset hx), hup, ?_⟩
  · exact List.perm_middle.trans (((hlow'.append_right up).trans hsplit).cons pivot |>.trans hperm)
  · simp only [partition, hswap, hcyc, hlast, hlow'.length_eq]

end Partition

end UnstableSort
