import Mathlib.Logic.Basic

/-!
# Merkle paths

A Merkle path climbs from a starting hash to a root: at each level the current
hash is combined with a sibling by a two-input hash `f`, on the side a fixed
direction function `side` gives. This file knows nothing about a particular tree
layout; it states the facts a verifier's soundness rests on.

* `climb f side sib n lo c`: the root of the `n` levels `lo + n - 1, …, lo`
  above `c`, with sibling `sib d` at level `d`.
* `climb_succ_bottom`: the same path, climbed from its lowest level first (as a
  verifier's loop does).
* `eq_of_firstCollision_none`, `isCollision_of_firstCollision`: two paths of
  equal length along the same sides with equal roots start at equal hashes,
  unless `firstCollision` finds two different inputs with one output.
* `climb_add`: a longer path is a shorter one over its own lowest levels, so
  paths of different lengths compare the same way.
-/

namespace MerklePath

variable {D : Type*} (f : D → D → D) (side : Nat → Bool)

/-- The hash at level `d`: `c` is the child on the path, `s` its sibling; the
path goes right when `side d`. -/
def step (d : Nat) (c s : D) : D := if side d then f s c else f c s

/-- The two inputs hashed at level `d`. -/
def inputs (d : Nat) (c s : D) : D × D := if side d then (s, c) else (c, s)

theorem step_eq_inputs (d : Nat) (c s : D) :
    step f side d c s = f (inputs side d c s).1 (inputs side d c s).2 := by
  unfold step inputs; split <;> rfl

/-- Climbing `n` levels, from level `lo + n - 1` up to level `lo`. -/
def climb (sib : Nat → D) : Nat → Nat → D → D
  | 0, _, c => c
  | n + 1, lo, c => step f side lo (climb sib n (lo + 1) c) (sib lo)

@[simp] theorem climb_zero (sib : Nat → D) (lo : Nat) (c : D) : climb f side sib 0 lo c = c := rfl

/-- A path of `a + b` levels is the top `a` levels over the bottom `b`. -/
theorem climb_add (sib : Nat → D) (a b : Nat) :
    ∀ lo c, climb f side sib (a + b) lo c = climb f side sib a lo (climb f side sib b (lo + a) c) := by
  induction a with
  | zero => intro lo c; simp
  | succ a ih =>
    intro lo c
    rw [show a + 1 + b = (a + b) + 1 by omega]
    simp only [climb]
    rw [ih (lo + 1) c, show lo + 1 + a = lo + (a + 1) by omega]

/-- Climbing the lowest level first: the form of a verifier's loop. -/
theorem climb_succ_bottom (sib : Nat → D) (n lo : Nat) (c : D) :
    climb f side sib (n + 1) lo c = climb f side sib n lo (step f side (lo + n) c (sib (lo + n))) := by
  rw [climb_add f side sib n 1]
  rfl

/-- A climb of at least one level ends in an output of `f`. -/
theorem climb_succ_eq (sib : Nat → D) (n lo : Nat) (c : D) :
    climb f side sib (n + 1) lo c =
      f (inputs side lo (climb f side sib n (lo + 1) c) (sib lo)).1
        (inputs side lo (climb f side sib n (lo + 1) c) (sib lo)).2 := by
  simp only [climb, step_eq_inputs]

/-- Equal inputs at one level have equal children. -/
theorem eq_of_inputs_eq {d : Nat} {c s c' s' : D} (h : inputs side d c s = inputs side d c' s') :
    c = c' := by
  unfold inputs at h
  by_cases hs : side d
  · simp only [hs, if_true, Prod.mk.injEq] at h; exact h.2
  · simp only [hs, Bool.false_eq_true, if_false, Prod.mk.injEq] at h; exact h.1

variable [DecidableEq D]

/-- The first level, from the top, at which two paths hash different inputs:
the two input pairs. -/
def firstCollision (sib sib' : Nat → D) : Nat → Nat → D → D → Option ((D × D) × (D × D))
  | 0, _, _, _ => none
  | n + 1, lo, c, c' =>
    let x := inputs side lo (climb f side sib n (lo + 1) c) (sib lo)
    let x' := inputs side lo (climb f side sib' n (lo + 1) c') (sib' lo)
    if x = x' then firstCollision sib sib' n (lo + 1) c c' else some (x, x')

/-- Two different inputs of `f` with one output. -/
def IsCollision (p : (D × D) × (D × D)) : Prop := p.1 ≠ p.2 ∧ f p.1.1 p.1.2 = f p.2.1 p.2.2

/-- Equal roots over paths of one length along the same sides, and no level with
different inputs: the starting hashes are equal. -/
theorem eq_of_firstCollision_none (sib sib' : Nat → D) (n : Nat) :
    ∀ lo c c', climb f side sib n lo c = climb f side sib' n lo c' →
      firstCollision f side sib sib' n lo c c' = none → c = c' := by
  induction n with
  | zero => intro lo c c' h _; exact h
  | succ n ih =>
    intro lo c c' h hnone
    simp only [firstCollision] at hnone
    by_cases hx : inputs side lo (climb f side sib n (lo + 1) c) (sib lo) =
        inputs side lo (climb f side sib' n (lo + 1) c') (sib' lo)
    · rw [if_pos hx] at hnone
      -- equal inputs at the top level: the children are equal, go one level down
      have hc := eq_of_inputs_eq side hx
      exact ih (lo + 1) c c' hc hnone
    · rw [if_neg hx] at hnone
      cases hnone

/-- Equal roots over paths of one length along the same sides: the first level
with different inputs, if any, is a collision. -/
theorem isCollision_of_firstCollision (sib sib' : Nat → D) (n : Nat) :
    ∀ lo c c' p, climb f side sib n lo c = climb f side sib' n lo c' →
      firstCollision f side sib sib' n lo c c' = some p → IsCollision f p := by
  induction n with
  | zero => intro lo c c' p _ hp; cases hp
  | succ n ih =>
    intro lo c c' p h hp
    simp only [firstCollision] at hp
    by_cases hx : inputs side lo (climb f side sib n (lo + 1) c) (sib lo) =
        inputs side lo (climb f side sib' n (lo + 1) c') (sib' lo)
    · rw [if_pos hx] at hp
      have hc := eq_of_inputs_eq side hx
      exact ih (lo + 1) c c' p hc hp
    · rw [if_neg hx] at hp
      cases hp
      simp only [climb, step_eq_inputs] at h
      exact ⟨hx, h⟩

end MerklePath
