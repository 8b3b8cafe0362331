import Mathlib.Data.List.Sort

/-!
# `Vec::dedup_by`

Model of `alloc::vec::Vec::dedup_by`: each element is offered to the closure
together with the last element kept before it, `same_bucket(later, earlier)`;
when the closure returns true the later element is dropped, after the closure
may have written a new value into the kept one. A closure is modelled as
`some earlier'` (drop `later`, keep `earlier'`) or `none` (keep both).

With the closure `keepLater key` (same key: the later element overwrites the
kept one) on a list sorted by key, the result has strictly increasing keys,
the keys of the input, and for each key the last element of the input with
that key (`pairwise_dedupBy_keepLater`, `mem_map_key_dedupBy_keepLater`,
`lastWins_dedupBy_keepLater`). Which element is last among equal keys is the
sort's choice: after a stable sort it is the last of the unsorted input
(`lastWins_of_stable`).
-/

namespace DedupBy

variable {α : Type*}

/-- The loop of `dedup_by`, with `earlier` the last element kept. -/
def go (sameBucket : α → α → Option α) (earlier : α) : List α → List α
  | [] => [earlier]
  | later :: rest =>
    match sameBucket later earlier with
    | some earlier' => go sameBucket earlier' rest
    | none => earlier :: go sameBucket later rest

/-- `v.dedup_by(same_bucket)`. -/
def dedupBy (sameBucket : α → α → Option α) : List α → List α
  | [] => []
  | first :: rest => go sameBucket first rest

variable {κ : Type*}

/-- The closure `|later, earlier| if later.key == earlier.key { *earlier = *later; true } else { false }`. -/
def keepLater [DecidableEq κ] (key : α → κ) (later earlier : α) : Option α :=
  if key later = key earlier then some later else none

/-- `ys` keeps, for each of its keys, the last element of `xs` with that key. -/
def LastWins [DecidableEq κ] (key : α → κ) (xs ys : List α) : Prop :=
  ∀ y ∈ ys, (xs.filter (fun x => key x = key y)).getLast? = some y

/-- A sort is stable when it keeps the input order of the elements of each key. -/
def Stable [DecidableEq κ] (key : α → κ) (xs ys : List α) : Prop :=
  ∀ k, ys.filter (fun y => key y = k) = xs.filter (fun x => key x = k)

section KeepLater

variable [DecidableEq κ] {key : α → κ}

theorem go_keepLater_cons_of_eq {earlier later : α} (rest : List α) (h : key later = key earlier) :
    go (keepLater key) earlier (later :: rest) = go (keepLater key) later rest := by
  rw [go, keepLater, if_pos h]

theorem go_keepLater_cons_of_ne {earlier later : α} (rest : List α) (h : key later ≠ key earlier) :
    go (keepLater key) earlier (later :: rest) = earlier :: go (keepLater key) later rest := by
  rw [go, keepLater, if_neg h]

/-- What the loop keeps comes from its input. -/
theorem mem_go_keepLater {earlier x : α} {l : List α} (hx : x ∈ go (keepLater key) earlier l) :
    x ∈ earlier :: l := by
  induction l generalizing earlier with
  | nil => simpa [go] using hx
  | cons later rest ih =>
    by_cases h : key later = key earlier
    · rw [go_keepLater_cons_of_eq rest h] at hx
      exact List.mem_cons_of_mem _ (ih hx)
    · rw [go_keepLater_cons_of_ne rest h] at hx
      rcases List.mem_cons.mp hx with rfl | hx
      · exact List.mem_cons_self
      · exact List.mem_cons_of_mem _ (ih hx)

theorem mem_of_mem_dedupBy_keepLater {x : α} {l : List α} (hx : x ∈ dedupBy (keepLater key) l) : x ∈ l := by
  cases l with
  | nil => cases hx
  | cons first rest => exact mem_go_keepLater hx

/-- The loop keeps every key of its input. -/
theorem mem_map_key_go_keepLater {earlier : α} {l : List α} {k : κ} :
    k ∈ (go (keepLater key) earlier l).map key ↔ k ∈ (earlier :: l).map key := by
  induction l generalizing earlier with
  | nil => simp [go]
  | cons later rest ih =>
    by_cases h : key later = key earlier
    · -- the dropped element's key is the kept one's
      rw [go_keepLater_cons_of_eq rest h, ih]
      simp only [List.map_cons, List.mem_cons, h]
      tauto
    · rw [go_keepLater_cons_of_ne rest h, List.map_cons, List.mem_cons, ih]
      simp only [List.map_cons, List.mem_cons]

/-- Without two neighbours of one key, nothing is dropped. -/
theorem go_keepLater_of_pairwise_ne {earlier : α} {l : List α}
    (hl : (earlier :: l).Pairwise fun a b => key a ≠ key b) : go (keepLater key) earlier l = earlier :: l := by
  induction l generalizing earlier with
  | nil => rfl
  | cons later rest ih =>
    have hne : key later ≠ key earlier := fun h => (List.pairwise_cons.mp hl).1 later List.mem_cons_self h.symm
    rw [go_keepLater_cons_of_ne rest hne, ih (List.pairwise_cons.mp hl).2]

theorem dedupBy_keepLater_of_pairwise_ne {l : List α} (hl : l.Pairwise fun a b => key a ≠ key b) :
    dedupBy (keepLater key) l = l := by
  cases l with
  | nil => rfl
  | cons first rest => exact go_keepLater_of_pairwise_ne hl

theorem mem_map_key_dedupBy_keepLater {l : List α} {k : κ} :
    k ∈ (dedupBy (keepLater key) l).map key ↔ k ∈ l.map key := by
  cases l with
  | nil => rfl
  | cons first rest => exact mem_map_key_go_keepLater

end KeepLater

section Sorted

variable [LinearOrder κ] {key : α → κ}

/-- On a list sorted by key, the kept keys are strictly increasing. -/
theorem pairwise_go_keepLater {earlier : α} {l : List α}
    (hl : (earlier :: l).Pairwise fun a b => key a ≤ key b) :
    (go (keepLater key) earlier l).Pairwise fun a b => key a < key b := by
  induction l generalizing earlier with
  | nil => simp [go]
  | cons later rest ih =>
    have hrest := (List.pairwise_cons.mp hl).2
    by_cases h : key later = key earlier
    · rw [go_keepLater_cons_of_eq rest h]
      exact ih hrest
    · rw [go_keepLater_cons_of_ne rest h]
      -- `earlier` is below `later`, and `later` below all that follows
      have hlt : key earlier < key later :=
        lt_of_le_of_ne ((List.pairwise_cons.mp hl).1 later List.mem_cons_self) (Ne.symm h)
      refine List.pairwise_cons.mpr ⟨fun x hx => ?_, ih hrest⟩
      rcases List.mem_cons.mp (mem_go_keepLater hx) with rfl | hx
      · exact hlt
      · exact lt_of_lt_of_le hlt ((List.pairwise_cons.mp hrest).1 x hx)

/-- On a list sorted by key, each kept element is the last of its key. -/
theorem getLast?_filter_go_keepLater {earlier : α} {l : List α}
    (hl : (earlier :: l).Pairwise fun a b => key a ≤ key b) :
    ∀ x ∈ go (keepLater key) earlier l,
      ((earlier :: l).filter fun y => key y = key x).getLast? = some x := by
  induction l generalizing earlier with
  | nil =>
    intro x hx
    obtain rfl : x = earlier := by simpa [go] using hx
    simp
  | cons later rest ih =>
    have hrest := (List.pairwise_cons.mp hl).2
    -- a kept element from the rest is still the last of its key with `earlier` in front
    have hfromRest : ∀ x ∈ go (keepLater key) later rest,
        ((earlier :: later :: rest).filter fun y => key y = key x).getLast? = some x := by
      intro x hx
      have hlast := ih hrest x hx
      rw [List.filter_cons]
      split
      · rw [List.getLast?_cons, hlast, Option.getD_some]
      · exact hlast
    by_cases h : key later = key earlier
    · rw [go_keepLater_cons_of_eq rest h]
      exact hfromRest
    · rw [go_keepLater_cons_of_ne rest h]
      intro x hx
      rcases List.mem_cons.mp hx with rfl | hx
      · -- no later element shares the key of `earlier`
        have hlt : key x < key later :=
          lt_of_le_of_ne ((List.pairwise_cons.mp hl).1 later List.mem_cons_self) (Ne.symm h)
        have hnone : ((later :: rest).filter fun y => key y = key x) = [] := by
          rw [List.filter_eq_nil_iff]
          intro y hy hyx
          rcases List.mem_cons.mp hy with rfl | hy
          · exact absurd (of_decide_eq_true hyx) (ne_of_gt hlt)
          · have hle := (List.pairwise_cons.mp hrest).1 y hy
            exact absurd (of_decide_eq_true hyx) (ne_of_gt (lt_of_lt_of_le hlt hle))
        rw [List.filter_cons_of_pos (by simp), hnone]
        rfl
      · exact hfromRest x hx

theorem pairwise_dedupBy_keepLater {l : List α} (hl : l.Pairwise fun a b => key a ≤ key b) :
    (dedupBy (keepLater key) l).Pairwise fun a b => key a < key b := by
  cases l with
  | nil => exact List.Pairwise.nil
  | cons first rest => exact pairwise_go_keepLater hl

theorem lastWins_dedupBy_keepLater {l : List α} (hl : l.Pairwise fun a b => key a ≤ key b) :
    LastWins key l (dedupBy (keepLater key) l) := by
  cases l with
  | nil => intro y hy; cases hy
  | cons first rest => exact getLast?_filter_go_keepLater hl

/-- After a stable sort, the kept element of each key is the last of the
unsorted input. -/
theorem lastWins_of_stable {xs ys : List α} (hsorted : ys.Pairwise fun a b => key a ≤ key b)
    (hstable : Stable key xs ys) : LastWins key xs (dedupBy (keepLater key) ys) := by
  intro y hy
  rw [← hstable (key y)]
  exact lastWins_dedupBy_keepLater hsorted y hy

end Sorted

end DedupBy
