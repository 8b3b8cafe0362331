import Mathlib

/-!
# Nested interval labellings of a tree

A rooted tree is given by a parent function and a depth that grows by one from
parent to child, on the nodes that satisfy `mem`; one node has depth `0`
(`Rooted`). `a` is an ancestor of `b` (or `b` itself) when `b`'s parent taken
some number of times is `a`.

Each node is labelled by a set of numbers, such that a child's label is a strict
subset of its parent's and the labels of two siblings are disjoint (`Nested`).
Labels may be empty. Then labels decide ancestry: `a` is `b` or an ancestor of
`b` exactly when `b`'s label, if it is not empty, is a subset of `a`'s.

Results:
* `Rooted.isAncestor_total`: the ancestors of a node lie on one branch.
* `Rooted.exists_child_of_isAncestor`: below a strict ancestor there is the
  child of it on the way down.
* `Nested.eq_of_depth_eq`: two nodes of one depth whose labels meet are equal.
* `Nested.isAncestor_iff_subset`: ancestry is containment of labels.
* `Nested.isAncestor_or_isAncestor`: two nodes whose labels meet are on one
  branch of the tree.
-/

namespace NestedIntervals

variable {α : Type*} (mem : α → Prop) (parent : α → α) (depth : α → ℕ)

/-- The tree rules, on the nodes that satisfy `mem`. -/
structure Rooted : Prop where
  mem_parent : ∀ a, mem a → 0 < depth a → mem (parent a)
  depth_parent : ∀ a, mem a → 0 < depth a → depth (parent a) + 1 = depth a
  root_unique : ∀ a b, mem a → mem b → depth a = 0 → depth b = 0 → a = b

/-- `a` is `b` or an ancestor of `b`: `b`'s parent taken at most `depth b` times. -/
def IsAncestor (a b : α) : Prop := ∃ k ≤ depth b, parent^[k] b = a

variable (label : α → Set ℕ)

/-- The labelling rules, on the nodes that satisfy `mem`. -/
structure Nested : Prop extends Rooted mem parent depth where
  label_parent : ∀ a, mem a → 0 < depth a → label a ⊂ label (parent a)
  disjoint : ∀ a b, mem a → mem b → 0 < depth a → 0 < depth b → parent a = parent b → a ≠ b →
    Disjoint (label a) (label b)

variable {mem parent depth label}

theorem IsAncestor.refl (a : α) : IsAncestor parent depth a a := ⟨0, Nat.zero_le _, rfl⟩

namespace Rooted

variable (h : Rooted mem parent depth)
include h

/-- Climbing `k ≤ depth b` steps from `b` stays on the tree, `k` levels up. -/
theorem iterate_mem {b : α} (hb : mem b) :
    ∀ k ≤ depth b, mem (parent^[k] b) ∧ depth (parent^[k] b) + k = depth b
  | 0, _ => ⟨hb, rfl⟩
  | k + 1, hk => by
    obtain ⟨hmem, hdepth⟩ := iterate_mem hb k (by omega)
    have hpos : 0 < depth (parent^[k] b) := by omega
    have := h.depth_parent _ hmem hpos
    rw [Function.iterate_succ_apply']
    exact ⟨h.mem_parent _ hmem hpos, by omega⟩

/-- An ancestor is the node itself or an ancestor of its parent. -/
theorem isAncestor_iff {a b : α} (hb : mem b) :
    IsAncestor parent depth a b ↔ a = b ∨ (0 < depth b ∧ IsAncestor parent depth a (parent b)) := by
  constructor
  · rintro ⟨k, hk, rfl⟩
    rcases k with _ | k
    · exact Or.inl rfl
    · have hpos : 0 < depth b := by omega
      have := h.depth_parent b hb hpos
      refine Or.inr ⟨hpos, k, by omega, ?_⟩
      rw [Function.iterate_succ_apply]
  · rintro (rfl | ⟨hpos, k, hk, rfl⟩)
    · exact IsAncestor.refl a
    · have := h.depth_parent b hb hpos
      exact ⟨k + 1, by omega, Function.iterate_succ_apply _ _ _⟩

theorem isAncestor_trans {a b c : α} (hab : IsAncestor parent depth a b)
    (hbc : IsAncestor parent depth b c) (hc : mem c) : IsAncestor parent depth a c := by
  obtain ⟨j, hj, rfl⟩ := hbc
  obtain ⟨k, hk, rfl⟩ := hab
  have := (h.iterate_mem hc j hj).2
  exact ⟨k + j, by omega, (Function.iterate_add_apply _ _ _ _)⟩

/-- Below a strict ancestor there is a child of it that is an ancestor of the
node. -/
theorem exists_child_of_isAncestor {a b : α} (hb : mem b) (hab : IsAncestor parent depth a b)
    (hne : a ≠ b) :
    ∃ c, mem c ∧ 0 < depth c ∧ parent c = a ∧ IsAncestor parent depth c b := by
  obtain ⟨k, hk, rfl⟩ := hab
  rcases k with _ | k
  · exact absurd rfl hne
  · obtain ⟨hmem, hdepth⟩ := h.iterate_mem hb k (by omega)
    exact ⟨parent^[k] b, hmem, by omega, (Function.iterate_succ_apply' _ _ _).symm, k, by omega, rfl⟩

/-- The ancestors of a node lie on one branch. -/
theorem isAncestor_total {a b c : α} (hc : mem c) (hac : IsAncestor parent depth a c)
    (hbc : IsAncestor parent depth b c) :
    IsAncestor parent depth a b ∨ IsAncestor parent depth b a := by
  obtain ⟨i, hi, rfl⟩ := hac
  obtain ⟨j, hj, rfl⟩ := hbc
  rcases le_total i j with hij | hij
  · -- the higher one is reached from the lower one by climbing the difference
    have := (h.iterate_mem hc i hi).2
    refine Or.inr ⟨j - i, by omega, ?_⟩
    rw [← Function.iterate_add_apply, Nat.sub_add_cancel hij]
  · have := (h.iterate_mem hc j hj).2
    refine Or.inl ⟨i - j, by omega, ?_⟩
    rw [← Function.iterate_add_apply, Nat.sub_add_cancel hij]

end Rooted

namespace Nested

variable (h : Nested mem parent depth label)
include h

/-- Climbing from `b` the labels only grow. -/
theorem label_subset_iterate {b : α} (hb : mem b) : ∀ k ≤ depth b, label b ⊆ label (parent^[k] b)
  | 0, _ => subset_rfl
  | k + 1, hk => by
    obtain ⟨hmem, hdepth⟩ := h.iterate_mem hb k (by omega)
    rw [Function.iterate_succ_apply']
    exact (label_subset_iterate hb k (by omega)).trans (h.label_parent _ hmem (by omega)).subset

/-- A strict climb leaves the label strictly smaller. -/
theorem label_ssubset_iterate {b : α} (hb : mem b) :
    ∀ k ≤ depth b, 0 < k → label b ⊂ label (parent^[k] b)
  | k + 1, hk, _ => by
    obtain ⟨hmem, hdepth⟩ := h.iterate_mem hb k (by omega)
    rw [Function.iterate_succ_apply']
    exact (h.label_subset_iterate hb k (by omega)).trans_ssubset (h.label_parent _ hmem (by omega))

/-- Nodes of one depth whose labels meet are equal: their parents' labels meet
too, and distinct siblings have disjoint labels. -/
theorem eq_of_depth_eq : ∀ (n : ℕ) (a b : α), mem a → mem b → depth a = n → depth b = n →
    (label a ∩ label b).Nonempty → a = b
  | 0, a, b, ha, hb, hda, hdb, _ => h.root_unique a b ha hb hda hdb
  | n + 1, a, b, ha, hb, hda, hdb, hmeet => by
    have hpa : 0 < depth a := by omega
    have hpb : 0 < depth b := by omega
    have hparent : parent a = parent b := by
      refine eq_of_depth_eq n _ _ (h.mem_parent a ha hpa) (h.mem_parent b hb hpb) ?_ ?_ ?_
      · have := h.depth_parent a ha hpa
        omega
      · have := h.depth_parent b hb hpb
        omega
      · exact hmeet.mono (Set.inter_subset_inter (h.label_parent a ha hpa).subset
          (h.label_parent b hb hpb).subset)
    by_contra hne
    exact (Set.disjoint_iff_inter_eq_empty.mp (h.disjoint a b ha hb hpa hpb hparent hne)) ▸ hmeet
      |>.ne_empty rfl

/-- Two nodes whose labels meet are on one branch: the deeper one, climbed to
the other's depth, meets it and so is it. -/
theorem isAncestor_or_isAncestor {a b : α} (ha : mem a) (hb : mem b)
    (hmeet : (label a ∩ label b).Nonempty) :
    IsAncestor parent depth a b ∨ IsAncestor parent depth b a := by
  by_cases hle : depth a ≤ depth b
  · have hk : depth b - depth a ≤ depth b := Nat.sub_le _ _
    obtain ⟨hmem, hdepth⟩ := h.iterate_mem hb _ hk
    have hmeet' : (label a ∩ label (parent^[depth b - depth a] b)).Nonempty :=
      hmeet.mono (Set.inter_subset_inter_right _ (h.label_subset_iterate hb _ hk))
    exact Or.inl ⟨_, hk, (h.eq_of_depth_eq _ _ _ ha hmem rfl (by omega) hmeet').symm⟩
  · have hk : depth a - depth b ≤ depth a := Nat.sub_le _ _
    obtain ⟨hmem, hdepth⟩ := h.iterate_mem ha _ hk
    have hmeet' : (label b ∩ label (parent^[depth a - depth b] a)).Nonempty :=
      (Set.inter_comm _ _ ▸ hmeet).mono (Set.inter_subset_inter_right _ (h.label_subset_iterate ha _ hk))
    exact Or.inr ⟨_, hk, (h.eq_of_depth_eq _ _ _ hb hmem rfl (by omega) hmeet').symm⟩

/-- Ancestry is containment of labels, for a node whose label is not empty. -/
theorem isAncestor_iff_subset {a b : α} (ha : mem a) (hb : mem b) (hne : (label b).Nonempty) :
    IsAncestor parent depth a b ↔ label b ⊆ label a := by
  constructor
  · rintro ⟨k, hk, rfl⟩
    exact h.label_subset_iterate hb k hk
  · intro hsub
    rcases h.isAncestor_or_isAncestor ha hb (hne.mono (Set.subset_inter hsub subset_rfl))
      with hab | ⟨k, hk, rfl⟩
    · exact hab
    · -- were `a` strictly below `b`, its label would be strictly inside `b`'s
      rcases Nat.eq_zero_or_pos k with rfl | hpos
      · exact IsAncestor.refl _
      · exact absurd hsub (h.label_ssubset_iterate ha k hk hpos).not_subset

end Nested

end NestedIntervals
