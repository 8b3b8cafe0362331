import Mathlib.Data.Finset.Max

/-!
# Maximal elements under a partial order given as a relation

For a finite set `s` and a partial order `le` given as a boolean relation,
`maxima le s` is the set of elements of `s` with nothing of `s` strictly above
them. The order is a parameter rather than an instance, so that it can sit on a
type that already has an order of its own.

Results:
* `exists_maxima_le`: every element of a finite set lies below a maximal one.
* `maxima_union_maxima`, `maxima_union_of_dominated`: the maxima of a union
  only depend on the maxima of each part, and a part dominated by another can
  be dropped.
* `maxima_eq_of_dominated`: a subset that dominates the whole set has its maxima.
* `maxima_insert`, `maxima_insert_retain`: the maxima after adding one element,
  as an antichain update (drop what lies below the new element, add it unless it
  lies strictly below a maximum).
-/

namespace RelMaxima

variable {α : Type*} [DecidableEq α] (le : α → α → Bool)

/-- `le` is a partial order. -/
structure IsPartialOrder : Prop where
  refl : ∀ x, le x x = true
  trans : ∀ x y z, le x y = true → le y z = true → le x z = true
  antisymm : ∀ x y, le x y = true → le y x = true → x = y

/-- The elements of `s` below which nothing else of `s` lies. -/
def maxima (s : Finset α) : Finset α :=
  s.filter (fun x => ∀ y ∈ s, le x y = true → y = x)

/-- No two distinct elements of `s` are comparable. -/
def IsAntichain (s : Finset α) : Prop :=
  ∀ x ∈ s, ∀ y ∈ s, le x y = true → x = y

/-- The elements of `s` strictly above `y`. -/
def above (s : Finset α) (y : α) : Finset α :=
  s.filter (fun z => le y z = true ∧ z ≠ y)

variable {le}

@[simp] theorem mem_maxima {s : Finset α} {x : α} :
    x ∈ maxima le s ↔ x ∈ s ∧ ∀ y ∈ s, le x y = true → y = x := by
  simp [maxima]

theorem maxima_subset (s : Finset α) : maxima le s ⊆ s :=
  Finset.filter_subset _ _

theorem isAntichain_maxima (s : Finset α) : IsAntichain le (maxima le s) := by
  intro x hx y hy hxy
  exact ((mem_maxima.mp hx).2 y (mem_maxima.mp hy).1 hxy).symm

theorem maxima_of_isAntichain {s : Finset α} (hs : IsAntichain le s) : maxima le s = s := by
  ext x
  simp only [mem_maxima, and_iff_left_iff_imp]
  intro hx y hy hxy
  exact (hs x hx y hy hxy).symm

omit [DecidableEq α] in
theorem IsAntichain.mono {s t : Finset α} (hs : IsAntichain le s) (hts : t ⊆ s) :
    IsAntichain le t :=
  fun x hx y hy hxy => hs x (hts hx) y (hts hy) hxy

section Order

variable (hp : IsPartialOrder le)
include hp

theorem exists_maxima_le {s : Finset α} {x : α} (hx : x ∈ s) : ∃ m ∈ maxima le s, le x m = true := by
  -- among the elements above `x`, one with the fewest elements strictly above it is maximal
  have hne : (s.filter (fun y => le x y = true)).Nonempty := ⟨x, by simp [hx, hp.refl x]⟩
  obtain ⟨m, hm, hmin⟩ := Finset.exists_min_image _ (fun y => (above le s y).card) hne
  obtain ⟨hms, hxm⟩ := Finset.mem_filter.mp hm
  refine ⟨m, mem_maxima.mpr ⟨hms, ?_⟩, hxm⟩
  intro y hy hmy
  by_contra hne
  have hsub : above le s y ⊂ above le s m := by
    refine Finset.ssubset_iff_of_subset ?_ |>.mpr ⟨y, ?_, ?_⟩
    · intro z hz
      simp only [above, Finset.mem_filter] at hz ⊢
      refine ⟨hz.1, hp.trans _ _ _ hmy hz.2.1, ?_⟩
      rintro rfl
      exact hne (hp.antisymm _ _ hz.2.1 hmy)
    · simp [above, hy, hmy, hne]
    · simp [above]
  have := hmin y (Finset.mem_filter.mpr ⟨hy, hp.trans _ _ _ hxm hmy⟩)
  exact absurd (Finset.card_lt_card hsub) (not_lt.mpr this)

theorem maxima_union_of_dominated {s t : Finset α} (h : ∀ c ∈ t, ∃ a ∈ s, le c a = true) :
    maxima le (s ∪ t) = maxima le s := by
  ext x
  simp only [mem_maxima, Finset.mem_union]
  constructor
  · rintro ⟨hx | hx, hmax⟩
    · exact ⟨hx, fun y hy => hmax y (Or.inl hy)⟩
    · -- an element of `t` lies below one of `s`, so it is not maximal unless equal to it
      obtain ⟨a, ha, hca⟩ := h x hx
      have := hmax a (Or.inl ha) hca
      subst this
      exact ⟨ha, fun y hy => hmax y (Or.inl hy)⟩
  · rintro ⟨hx, hmax⟩
    refine ⟨Or.inl hx, ?_⟩
    rintro y (hy | hy) hxy
    · exact hmax y hy hxy
    · obtain ⟨a, ha, hya⟩ := h y hy
      have hxa := hmax a ha (hp.trans _ _ _ hxy hya)
      subst hxa
      exact hp.antisymm _ _ hya hxy

theorem maxima_eq_of_dominated {s t : Finset α} (hts : t ⊆ s)
    (hdom : ∀ x ∈ s, ∃ y ∈ t, le x y = true) : maxima le s = maxima le t := by
  have hsplit : s = t ∪ s := (Finset.union_eq_right.mpr hts).symm
  rw [hsplit, maxima_union_of_dominated hp hdom]

/-- When the only maximum lies below every element, it is the only element. -/
theorem eq_of_maxima_eq_singleton {s : Finset α} {b x : α} (hb : ∀ y ∈ s, le b y = true)
    (h : maxima le s = {b}) (hx : x ∈ s) : x = b := by
  obtain ⟨y, hy, hxy⟩ := exists_maxima_le hp hx
  rw [h, Finset.mem_singleton] at hy
  subst hy
  exact hp.antisymm _ _ hxy (hb x hx)

theorem maxima_union_maxima (s t : Finset α) :
    maxima le (s ∪ maxima le t) = maxima le (s ∪ t) := by
  have hdom : ∀ c ∈ t, ∃ a ∈ s ∪ maxima le t, le c a = true := by
    intro c hc
    obtain ⟨m, hm, hcm⟩ := exists_maxima_le hp hc
    exact ⟨m, Finset.mem_union_right _ hm, hcm⟩
  have hsplit : s ∪ t = (s ∪ maxima le t) ∪ t := by
    ext x
    simp only [Finset.mem_union]
    constructor
    · rintro (h | h)
      · exact Or.inl (Or.inl h)
      · exact Or.inr h
    · rintro ((h | h) | h)
      · exact Or.inl h
      · exact Or.inr (maxima_subset t h)
      · exact Or.inr h
  rw [hsplit, maxima_union_of_dominated hp hdom]

theorem maxima_insert (s : Finset α) (g : α) :
    maxima le (insert g s) =
      if ∃ c ∈ maxima le s, le g c = true ∧ le c g = false then maxima le s
      else insert g ((maxima le s).filter (fun c => le c g = false)) := by
  split_ifs with hbelow
  · -- `g` lies strictly below a maximal element: it is dominated
    obtain ⟨c, hc, hgc, _⟩ := hbelow
    rw [← Finset.singleton_union, Finset.union_comm, maxima_union_of_dominated hp]
    intro x hx
    rw [Finset.mem_singleton.mp hx]
    exact ⟨c, maxima_subset s hc, hgc⟩
  · push Not at hbelow
    ext x
    simp only [mem_maxima, Finset.mem_insert, Finset.mem_filter]
    constructor
    · rintro ⟨rfl | hx, hmax⟩
      · exact Or.inl rfl
      · by_cases hxg : x = g
        · exact Or.inl hxg
        refine Or.inr ⟨⟨hx, fun y hy => hmax y (Or.inr hy)⟩, ?_⟩
        cases hle : le x g
        · rfl
        · exact absurd (hmax g (Or.inl rfl) hle).symm hxg
    · rintro (rfl | ⟨⟨hx, hmax⟩, hxg⟩)
      · refine ⟨Or.inl rfl, ?_⟩
        rintro y (rfl | hy) hxy
        · rfl
        · -- a maximum above `g` would also lie below it
          obtain ⟨m, hm, hym⟩ := exists_maxima_le hp hy
          have hmx : le x m = true := hp.trans _ _ _ hxy hym
          have hmg : le m x = true := by simpa using hbelow m hm hmx
          have hxm := hp.antisymm _ _ hmx hmg
          subst hxm
          exact hp.antisymm _ _ hym hxy
      · refine ⟨Or.inr hx, ?_⟩
        rintro y (rfl | hy) hxy
        · simp [hxy] at hxg
        · exact hmax y hy hxy

/-- `maxima_insert` in the shape of an update of the antichain of maxima: keep
the maxima not below `g`, and add `g` when one was dropped or none of those kept
lies above it. -/
theorem maxima_insert_retain (s : Finset α) (g : α) :
    maxima le (insert g s) =
      if ((maxima le s).filter (fun c => le c g = false)).card < (maxima le s).card ∨
          ¬ ∃ c ∈ (maxima le s).filter (fun c => le c g = false), le g c = true then
        insert g ((maxima le s).filter (fun c => le c g = false))
      else (maxima le s).filter (fun c => le c g = false) := by
  rw [maxima_insert hp]
  by_cases hbelow : ∃ c ∈ maxima le s, le g c = true ∧ le c g = false
  · obtain ⟨c, hc, hgc, hcg⟩ := hbelow
    -- a maximum below `g` would lie below `c` too, so nothing is dropped
    have hkeep : (maxima le s).filter (fun c => le c g = false) = maxima le s := by
      refine Finset.filter_true_of_mem fun c' hc' => ?_
      cases hc'g : le c' g
      · rfl
      · have hc'c := isAntichain_maxima s c' hc' c hc (hp.trans _ _ _ hc'g hgc)
        subst hc'c
        simp [hc'g] at hcg
    have hcR : c ∈ (maxima le s).filter (fun c => le c g = false) := Finset.mem_filter.mpr ⟨hc, hcg⟩
    rw [if_pos ⟨c, hc, hgc, hcg⟩, if_neg, hkeep]
    rintro (hlt | hnone)
    · rw [hkeep] at hlt
      exact lt_irrefl _ hlt
    · exact hnone ⟨c, hcR, hgc⟩
  · rw [if_neg hbelow]
    refine (if_pos ?_).symm
    by_contra hcond
    obtain ⟨c, hc, hgc⟩ := not_not.mp (not_or.mp hcond).2
    exact hbelow ⟨c, (Finset.mem_filter.mp hc).1, hgc, (Finset.mem_filter.mp hc).2⟩

end Order

end RelMaxima
