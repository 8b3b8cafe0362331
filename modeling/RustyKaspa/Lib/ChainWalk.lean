import Mathlib.Data.List.Sort

/-!
# Walking forward while a test holds

A loop that starts at `current` and moves to each next element of a list while
that element passes a test, keeping the last element that passed. Over a list
whose key increases strictly, with the test "key below `r`", the walk ends at
the last element of the whole list whose key is below `r`, provided it starts
at an element of the list that is itself below `r`.

Results:
* `advanceWhile_eq_getLast`: the walk ends at the last element of
  `current :: l.takeWhile p`.
* `advanceWhile_eq_or_mem`: the walk ends at its start or at an element that
  passed the test.
* `advanceWhile_from_mem`: on an increasing list, the walk from a member below
  `r` over the rest of the list ends at `lastBelow f r l`.
* `lastBelow_from_mem`: the last element below `r` of a list is the one of
  its suffix from any member below `r`.
-/

namespace ChainWalk

variable {α β : Type*}

/-- Move from `current` to each next element of the list while it passes `p`. -/
def advanceWhile (p : α → Bool) : α → List α → α
  | current, [] => current
  | current, b :: rest => if p b then advanceWhile p b rest else current

theorem advanceWhile_eq_getLast (p : α → Bool) (current : α) (l : List α) :
    advanceWhile p current l = (current :: l.takeWhile p).getLast (List.cons_ne_nil _ _) := by
  induction l generalizing current with
  | nil => rfl
  | cons b rest ih =>
    by_cases hb : p b
    · rw [advanceWhile, if_pos hb, ih, List.takeWhile_cons_of_pos hb, List.getLast_cons_cons]
    · rw [advanceWhile, if_neg hb, List.takeWhile_cons_of_neg hb]
      rfl

/-- The walk ends where it started, or at an element of the list that passed. -/
theorem advanceWhile_eq_or_mem (p : α → Bool) (current : α) (l : List α) :
    advanceWhile p current l = current ∨
      (advanceWhile p current l ∈ l ∧ p (advanceWhile p current l) = true) := by
  induction l generalizing current with
  | nil => exact Or.inl rfl
  | cons b rest ih =>
    by_cases hb : p b
    · rw [advanceWhile, if_pos hb]
      rcases ih b with h | ⟨hmem, hp⟩
      · rw [h]
        exact Or.inr ⟨List.mem_cons_self, hb⟩
      · exact Or.inr ⟨List.mem_cons_of_mem _ hmem, hp⟩
    · rw [advanceWhile, if_neg hb]
      exact Or.inl rfl

/-- The suffix of `l` from the first occurrence of `a`. -/
def suffixFrom [DecidableEq α] (a : α) (l : List α) : List α :=
  l.dropWhile (fun x => x ≠ a)

theorem suffixFrom_of_mem [DecidableEq α] {a : α} {l : List α} (ha : a ∈ l) :
    suffixFrom a l = a :: (suffixFrom a l).tail := by
  induction l with
  | nil => cases ha
  | cons b rest ih =>
    by_cases hb : b = a
    · subst hb
      simp [suffixFrom]
    · have ha' : a ∈ rest := (List.mem_cons.mp ha).resolve_left (Ne.symm hb)
      have hdrop : suffixFrom a (b :: rest) = suffixFrom a rest := by
        simp [suffixFrom, hb]
      rw [hdrop]
      exact ih ha'

theorem suffixFrom_sublist [DecidableEq α] (a : α) (l : List α) : (suffixFrom a l).Sublist l :=
  List.dropWhile_sublist _

section Increasing

variable [LinearOrder β] (f : α → β) (r : β)

/-- The last element of `l` whose key is below `r`. -/
def lastBelow (l : List α) : Option α :=
  (l.filter (fun x => f x < r)).getLast?

variable {f r}

/-- On a list with increasing keys, the elements below `r` form a prefix. -/
theorem takeWhile_eq_filter {l : List α} (hl : l.Pairwise (fun a b => f a < f b)) :
    l.takeWhile (fun x => f x < r) = l.filter (fun x => f x < r) := by
  induction l with
  | nil => rfl
  | cons b rest ih =>
    obtain ⟨hb, hrest⟩ := List.pairwise_cons.mp hl
    by_cases hbr : f b < r
    · rw [List.takeWhile_cons_of_pos (by simpa using hbr), List.filter_cons_of_pos (by simpa using hbr),
        ih hrest]
    · -- every later key is above `f b`, so nothing after `b` is below `r` either
      have hnone : rest.filter (fun x => f x < r) = [] := by
        rw [List.filter_eq_nil_iff]
        intro x hx
        have := hb x hx
        simp only [decide_eq_true_eq, not_lt]
        exact le_trans (not_lt.mp hbr) this.le
      rw [List.takeWhile_cons_of_neg (by simpa using hbr), List.filter_cons_of_neg (by simpa using hbr),
        hnone]

theorem lastBelow_from_mem [DecidableEq α] {a : α} {l : List α} (ha : a ∈ l) (har : f a < r) :
    lastBelow f r (suffixFrom a l) = lastBelow f r l := by
  have hsplit : l = l.takeWhile (fun x => x ≠ a) ++ suffixFrom a l :=
    (List.takeWhile_append_dropWhile).symm
  -- the suffix holds `a`, so its last element below `r` is the last one of all of `l`
  have hsome : (lastBelow f r (suffixFrom a l)).isSome := by
    rw [suffixFrom_of_mem ha]
    simp [lastBelow, har]
  conv_rhs => rw [hsplit, lastBelow, List.filter_append, List.getLast?_append]
  obtain ⟨x, hx⟩ := Option.isSome_iff_exists.mp hsome
  rw [lastBelow] at hx ⊢
  rw [hx]
  rfl

theorem advanceWhile_from_mem [DecidableEq α] {a : α} {l : List α}
    (hl : l.Pairwise (fun a b => f a < f b)) (ha : a ∈ l) (har : f a < r) :
    some (advanceWhile (fun x => f x < r) a (suffixFrom a l)) = lastBelow f r l := by
  have hsuffix := suffixFrom_of_mem ha
  have hsorted : (suffixFrom a l).Pairwise (fun a b => f a < f b) :=
    hl.sublist (suffixFrom_sublist a l)
  rw [← lastBelow_from_mem ha har, hsuffix]
  rw [hsuffix] at hsorted
  rw [advanceWhile, if_pos (by simpa using har), advanceWhile_eq_getLast,
    takeWhile_eq_filter (List.pairwise_cons.mp hsorted).2, lastBelow,
    List.filter_cons_of_pos (by simpa using har), List.getLast?_eq_some_getLast (List.cons_ne_nil _ _)]

end Increasing

end ChainWalk
