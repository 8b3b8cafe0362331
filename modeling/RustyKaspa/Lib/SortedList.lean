import Mathlib.Data.List.Sort

/-!
# Walking a sorted list

An ordered map iterated from a start key is a list sorted by a relation. Two
facts about such a list: `takeWhile` of a predicate that is closed downward
along the order keeps exactly the elements `filter` keeps, and `find?` returns
the element that comes first along the order among those it accepts.

A cursor into such a list, as a key-value store's iterator, is the suffix it
has still to yield: a seek to a key drops the entries below it
(`mem_dropWhile_lt`), and a seek past the current entry leaves a strictly
shorter suffix (`length_dropWhile_lt`), which is what makes a loop of seeks end.
-/

namespace SortedList

variable {α : Type*} {r : α → α → Prop} {l : List α}

/-- On a sorted list, `takeWhile` of a predicate closed downward along the
order is `filter`: once an element fails, every later one fails too. -/
theorem takeWhile_eq_filter {p : α → Bool} (hl : l.Pairwise r)
    (hp : ∀ a ∈ l, ∀ b ∈ l, r a b → p b → p a) : l.takeWhile p = l.filter p := by
  induction l with
  | nil => rfl
  | cons b rest ih =>
    obtain ⟨hb, hrest⟩ := List.pairwise_cons.mp hl
    have ih' := ih hrest fun a ha c hc => hp a (List.mem_cons_of_mem _ ha) c (List.mem_cons_of_mem _ hc)
    by_cases hpb : p b
    · rw [List.takeWhile_cons_of_pos hpb, List.filter_cons_of_pos hpb, ih']
    · -- an accepted later element would force `b` to be accepted
      have hnone : rest.filter p = [] := by
        rw [List.filter_eq_nil_iff]
        intro x hx hpx
        exact hpb (hp b List.mem_cons_self x (List.mem_cons_of_mem _ hx) (hb x hx) hpx)
      rw [List.takeWhile_cons_of_neg hpb, List.filter_cons_of_neg hpb, hnone]

/-- On a sorted list, what `find?` returns comes first along the order among
the accepted elements. -/
theorem rel_of_find?_eq_some {p : α → Bool} (hl : l.Pairwise r) {a : α} (ha : l.find? p = some a) :
    ∀ b ∈ l, p b → b = a ∨ r a b := by
  obtain ⟨-, as, bs, rfl, hnot⟩ := List.find?_eq_some_iff_append.mp ha
  intro b hb hpb
  rcases List.mem_append.mp hb with hb | hb
  · exact absurd hpb (by simpa using hnot b hb)
  · rcases List.mem_cons.mp hb with rfl | hb
    · exact Or.inl rfl
    · exact Or.inr ((List.pairwise_cons.mp (List.pairwise_append.mp hl).2.1).1 b hb)

section Seek

variable {κ : Type*} [LinearOrder κ] {key : α → κ}

/-- Seeking `t` in a list sorted by key leaves the entries whose key is at
least `t`. -/
theorem mem_dropWhile_lt (hl : l.Pairwise fun a b => key a < key b) (t : κ) {x : α} :
    x ∈ l.dropWhile (fun a => key a < t) ↔ x ∈ l ∧ t ≤ key x := by
  induction l with
  | nil => simp
  | cons a rest ih =>
    obtain ⟨ha, hrest⟩ := List.pairwise_cons.mp hl
    by_cases hat : key a < t
    · -- `a` is dropped, and it is not at least `t`
      rw [List.dropWhile_cons_of_pos (by simpa using hat), ih hrest, List.mem_cons]
      constructor
      · exact fun h => ⟨Or.inr h.1, h.2⟩
      · rintro ⟨rfl | h, hx⟩
        · exact absurd hat (not_lt.mpr hx)
        · exact ⟨h, hx⟩
    · -- the cursor stops at `a`: everything from there on is above it
      rw [List.dropWhile_cons_of_neg (by simpa using hat)]
      constructor
      · intro hx
        refine ⟨hx, ?_⟩
        rcases List.mem_cons.mp hx with rfl | hx
        · exact not_lt.mp hat
        · exact (not_lt.mp hat).trans (ha x hx).le
      · exact fun h => h.1

/-- A seek to a key above the current entry of a cursor leaves a strictly
shorter suffix. -/
theorem length_dropWhile_lt (hl : l.Pairwise fun a b => key a < key b) {cur rest : List α} {e : α}
    (hcur : e :: rest <:+ l) (hcur' : cur = e :: rest) {t : κ} (ht : key e < t) :
    (l.dropWhile fun a => key a < t).length < cur.length := by
  subst hcur'
  by_contra hlen
  have hsuf : e :: rest <:+ l.dropWhile (fun a => key a < t) :=
    List.suffix_of_suffix_length_le hcur (List.dropWhile_suffix _) (not_lt.mp hlen)
  have he := (mem_dropWhile_lt hl t).mp (hsuf.subset List.mem_cons_self)
  exact absurd ht (not_lt.mpr he.2)

end Seek

end SortedList
