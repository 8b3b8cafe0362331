import Mathlib.Data.List.Basic

/-!
# A point in a sorted list of intervals

A list of intervals, each ending before the next one starts, and a point.
Searching the intervals' starts for the point gives the index of the first
interval that does not start below it. The only interval that can hold the
point is the one at that index, when it starts at the point, or the one just
before it, as long as no empty interval starts at the point.

Results:
* `searchIndex_eq_zero`: no interval starts below the point, so the index is `0`.
* `contains_at_searchIndex`: an interval that holds the point sits at the index
  and starts at the point, or sits just before the index.
-/

namespace SortedIntervals

variable {α : Type*} (start last : α → ℕ)

/-- The number of intervals at the front of the list that start below `point`:
where a search of the starts for `point` lands. -/
def searchIndex (l : List α) (point : ℕ) : ℕ := (l.takeWhile fun x => start x < point).length

variable {start last}

@[simp] theorem searchIndex_nil (point : ℕ) : searchIndex start [] point = 0 := rfl

theorem searchIndex_cons_of_lt {x : α} {l : List α} {point : ℕ} (h : start x < point) :
    searchIndex start (x :: l) point = searchIndex start l point + 1 := by
  simp [searchIndex, h]

theorem searchIndex_cons_of_le {x : α} {l : List α} {point : ℕ} (h : point ≤ start x) :
    searchIndex start (x :: l) point = 0 := by
  simp [searchIndex, Nat.not_lt.mpr h]

theorem searchIndex_le_length (l : List α) (point : ℕ) : searchIndex start l point ≤ l.length :=
  (List.takeWhile_sublist _).length_le

theorem searchIndex_eq_zero {l : List α} {point : ℕ} (h : ∀ x ∈ l, point ≤ start x) :
    searchIndex start l point = 0 := by
  cases l with
  | nil => rfl
  | cons x l => exact searchIndex_cons_of_le (h x List.mem_cons_self)

/-- In a list of intervals (each starts at most one past its end) that each end
before the next starts, where those that start at `point` are nonempty, an
interval that holds `point` is at the search index and starts at `point`, or is
the one just before the search index. -/
theorem contains_at_searchIndex {point : ℕ} :
    ∀ {l : List α}, l.Pairwise (fun x y => last x < start y) → (∀ x ∈ l, start x ≤ last x + 1) →
      (∀ x ∈ l, start x = point → start x ≤ last x) →
      ∀ {x : α}, x ∈ l → start x ≤ point → point ≤ last x →
      (l[searchIndex start l point]? = some x ∧ start x = point) ∨
        (0 < searchIndex start l point ∧ l[searchIndex start l point - 1]? = some x)
  | [], _, _, _, _, hx, _, _ => absurd hx List.not_mem_nil
  | y :: l, hsorted, hwf, hne, x, hx, hstart, hlast => by
    rw [List.pairwise_cons] at hsorted
    by_cases hy : start y < point
    · rw [searchIndex_cons_of_lt hy]
      rcases List.mem_cons.mp hx with rfl | hx
      · -- `x` is the first interval: everything after it starts beyond `point`
        have hzero : searchIndex start l point = 0 :=
          searchIndex_eq_zero fun z hz => Nat.le_of_lt (Nat.lt_of_le_of_lt hlast (hsorted.1 z hz))
        exact Or.inr ⟨by omega, by simp [hzero]⟩
      · rcases contains_at_searchIndex hsorted.2 (fun z hz => hwf z (List.mem_cons_of_mem _ hz))
          (fun z hz => hne z (List.mem_cons_of_mem _ hz)) hx hstart hlast with ⟨hget, heq⟩ | ⟨hpos, hget⟩
        · exact Or.inl ⟨by simpa using hget, heq⟩
        · refine Or.inr ⟨by omega, ?_⟩
          rw [show searchIndex start l point + 1 - 1 = (searchIndex start l point - 1) + 1 by omega]
          simpa using hget
    · rw [searchIndex_cons_of_le (Nat.not_lt.mp hy)]
      rcases List.mem_cons.mp hx with rfl | hx
      · exact Or.inl ⟨rfl, by omega⟩
      · -- `y` would end before `point` and start at or after it: an empty
        -- interval at `point`
        have := hsorted.1 x hx
        have := hwf y List.mem_cons_self
        have := hne y List.mem_cons_self (by omega)
        omega

end SortedIntervals
