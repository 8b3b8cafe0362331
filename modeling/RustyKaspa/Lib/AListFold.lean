import Mathlib.Data.List.AList

/-!
# Loops that fill and drain finite maps

A hash map updated by a loop over the entries of another map, inserting those
that pass a test, or by a loop erasing a list of keys. The keys of a map are
distinct, so the order of such a loop does not matter: the result at a key
depends only on what the source map holds there (`lookup_insertFiltered`,
`lookup_foldl_erase`).
-/

namespace AListFold

variable {α : Type*} {β : α → Type*}

/-- What `insertFiltered` leaves at a key: the entry of the list there if it
passes the test, and otherwise that of the map. -/
def filteredAt (p : (a : α) → β a → Bool) (a : α) : Option (β a) → Option (β a) → Option (β a)
  | some b, y => if p a b then some b else y
  | none, y => y

@[simp] theorem filteredAt_none (p : (a : α) → β a → Bool) (a : α) (y : Option (β a)) :
    filteredAt p a none y = y :=
  rfl

@[simp] theorem filteredAt_some (p : (a : α) → β a → Bool) (a : α) (b : β a) (y : Option (β a)) :
    filteredAt p a (some b) y = if p a b then some b else y :=
  rfl

/-- With a test every entry passes, the list's entry, and otherwise the map's. -/
@[simp] theorem filteredAt_true (a : α) (x y : Option (β a)) :
    filteredAt (fun _ _ => true) a x y = x.or y := by
  cases x <;> rfl

variable [DecidableEq α]

/-- Inserting, in order, the entries of a list that pass a test; a later entry
overwrites an earlier one of the same key. -/
def insertFiltered (p : (a : α) → β a → Bool) (l : List (Sigma β)) (m : AList β) : AList β :=
  l.foldl (fun m e => if p e.1 e.2 then m.insert e.1 e.2 else m) m

/-- Erasing a list of keys one by one. -/
def eraseAll (ks : List α) (m : AList β) : AList β :=
  ks.foldl (fun m k => m.erase k) m

/-- With distinct keys, a key of the list ends with its entry if it passes
the test, and every other key keeps what the map held. -/
theorem lookup_insertFiltered (p : (a : α) → β a → Bool) {l : List (Sigma β)} (hl : l.NodupKeys)
    (m : AList β) (a : α) :
    (insertFiltered p l m).lookup a = filteredAt p a (l.dlookup a) (m.lookup a) := by
  induction l generalizing m with
  | nil => rfl
  | cons e l ih =>
    obtain ⟨he, hl⟩ := List.nodupKeys_cons.mp hl
    rw [insertFiltered, List.foldl_cons, ← insertFiltered, ih hl]
    by_cases hae : a = e.1
    · -- the key of the head: the rest of the list does not hold it
      subst hae
      rw [List.dlookup_eq_none.mpr he, List.dlookup_cons_eq, filteredAt_none, filteredAt_some]
      split_ifs <;> simp_all
    · -- another key: the head leaves it alone
      have hstep : (if p e.1 e.2 then m.insert e.1 e.2 else m).lookup a = m.lookup a := by
        split_ifs
        · exact AList.lookup_insert_ne hae
        · rfl
      rw [List.dlookup_cons_ne _ _ hae, hstep]

/-- A key ends erased if the list names it, and keeps its entry otherwise. -/
theorem lookup_eraseAll (ks : List α) (m : AList β) (a : α) :
    (eraseAll ks m).lookup a = if a ∈ ks then none else m.lookup a := by
  induction ks generalizing m with
  | nil => simp [eraseAll]
  | cons k ks ih =>
    rw [eraseAll, List.foldl_cons, ← eraseAll, ih]
    by_cases hak : a = k
    · subst hak
      simp [AList.lookup_erase]
    · simp [hak, AList.lookup_erase_ne hak]

theorem mem_eraseAll (ks : List α) (m : AList β) (a : α) :
    a ∈ eraseAll ks m ↔ a ∉ ks ∧ a ∈ m := by
  rw [← AList.lookup_isSome, lookup_eraseAll, ← AList.lookup_isSome]
  split_ifs with h <;> simp [h]

end AListFold
