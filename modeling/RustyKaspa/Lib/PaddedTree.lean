import Mathlib.Data.Nat.Log
import Mathlib.Tactic.Ring

/-!
# Binary trees over a padded list of leaves

The node at height `k` over a list of at most `2 ^ k` leaves, the leaves laid out
left to right and the tree padded on the right: a node over no leaves is absent
(`none`), and a node whose left child is present and whose right child is absent
combines its left child with a fixed value `z`. This is the shape of a Merkle
tree padded to a power of two; the file names nothing of a particular layout.

* `treeRoot f z k l`: the node at height `k` over `l`.
* `treeRoot_eq_none_iff`: a node is absent exactly over no leaves.
* `treeRoot_succ_append`: over a full left half of `2 ^ k` leaves, the node's
  left child is the root of that half.
* `treeRoot_add_of_length_le`: over at most `2 ^ k` leaves, `m` more levels
  combine the root with `z` `m` times.
* `treeRoot_succ_chunk`: the node over the `j`-th block of `2 ^ (k + 1)` leaves
  combines the nodes over the blocks `2 j` and `2 j + 1` of `2 ^ k` leaves: the
  recurrence a level-by-level computation follows.
* `paddedRoot`: the root at the least height whose `2 ^ k` leaves hold the list.
-/

namespace PaddedTree

variable {D : Type*} (f : D → D → D) (z : D)

/-- A parent over two possibly absent children: absent with its left child, and
combining its left child with `z` when its right child is absent. -/
def combine (left right : Option D) : Option D :=
  left.map fun a => f a (right.getD z)

/-- The node at height `k` over the leaves `l`: its left child is over the first
`2 ^ (k - 1)` leaves and its right child over the rest. -/
def treeRoot : ℕ → List D → Option D
  | 0, l => l.head?
  | k + 1, l => combine f z (treeRoot k (l.take (2 ^ k))) (treeRoot k (l.drop (2 ^ k)))

theorem treeRoot_zero (l : List D) : treeRoot f z 0 l = l.head? := rfl

theorem treeRoot_succ (k : ℕ) (l : List D) :
    treeRoot f z (k + 1) l =
      combine f z (treeRoot f z k (l.take (2 ^ k))) (treeRoot f z k (l.drop (2 ^ k))) := rfl

@[simp] theorem treeRoot_nil (k : ℕ) : treeRoot f z k [] = none := by
  induction k with
  | zero => rfl
  | succ k ih => rw [treeRoot_succ, List.take_nil, ih]; rfl

theorem treeRoot_eq_none_iff (k : ℕ) (l : List D) : treeRoot f z k l = none ↔ l = [] := by
  induction k generalizing l with
  | zero => exact List.head?_eq_none_iff
  | succ k ih =>
    rw [treeRoot_succ, combine, Option.map_eq_none_iff, ih, List.take_eq_nil_iff]
    simp

/-- Over a full left half, the left child is the root of that half. -/
theorem treeRoot_succ_append {k : ℕ} {l₁ : List D} (h : l₁.length = 2 ^ k) (l₂ : List D) :
    treeRoot f z (k + 1) (l₁ ++ l₂) = combine f z (treeRoot f z k l₁) (treeRoot f z k l₂) := by
  rw [treeRoot_succ, List.take_left' h, List.drop_left' h]

/-- Over at most `2 ^ k` leaves, the next level combines the root with `z`. -/
theorem treeRoot_succ_of_length_le {k : ℕ} {l : List D} (h : l.length ≤ 2 ^ k) :
    treeRoot f z (k + 1) l = (treeRoot f z k l).map (f · z) := by
  rw [treeRoot_succ, List.take_of_length_le h, List.drop_of_length_le h, treeRoot_nil]
  rfl

theorem treeRoot_add_of_length_le {k : ℕ} {l : List D} (h : l.length ≤ 2 ^ k) (m : ℕ) :
    treeRoot f z (k + m) l = (treeRoot f z k l).map (f · z)^[m] := by
  induction m with
  | zero => simp
  | succ m ih =>
    have hle : l.length ≤ 2 ^ (k + m) :=
      le_trans h (Nat.pow_le_pow_right (by norm_num) (Nat.le_add_right k m))
    rw [← Nat.add_assoc, treeRoot_succ_of_length_le f z hle, ih, Option.map_map,
      Function.iterate_succ']

/-- The `j`-th block of `2 ^ k` leaves. -/
def chunk (k j : ℕ) (l : List D) : List D := (l.drop (j * 2 ^ k)).take (2 ^ k)

/-- The node over a block of `2 ^ (k + 1)` leaves has the nodes over its two
halves as children. -/
theorem treeRoot_succ_chunk (k j : ℕ) (l : List D) :
    treeRoot f z (k + 1) (chunk (k + 1) j l) =
      combine f z (treeRoot f z k (chunk k (2 * j) l)) (treeRoot f z k (chunk k (2 * j + 1) l)) := by
  have hpow : 2 ^ (k + 1) = 2 ^ k + 2 ^ k := by rw [pow_succ]; ring
  have hleft : (chunk (k + 1) j l).take (2 ^ k) = chunk k (2 * j) l := by
    rw [chunk, chunk, List.take_take, hpow, show j * (2 ^ k + 2 ^ k) = 2 * j * 2 ^ k by ring,
      Nat.min_eq_left (Nat.le_add_right _ _)]
  have hright : (chunk (k + 1) j l).drop (2 ^ k) = chunk k (2 * j + 1) l := by
    rw [chunk, chunk, List.drop_take, List.drop_drop, hpow,
      show j * (2 ^ k + 2 ^ k) + 2 ^ k = (2 * j + 1) * 2 ^ k by ring, Nat.add_sub_cancel]
  rw [treeRoot_succ, hleft, hright]

/-- The least height holding the list: `2 ^ paddedHeight` is the next power of
two of its length. -/
def paddedHeight (l : List D) : ℕ := Nat.clog 2 l.length

/-- The root of the tree over `l` padded to the next power of two. -/
def paddedRoot (l : List D) : Option D := treeRoot f z (paddedHeight l) l

/-- The least height is the one whose `2 ^ K` leaves hold the list and whose
half does not. -/
theorem paddedHeight_eq {l : List D} {K : ℕ} (hle : l.length ≤ 2 ^ K) (hlt : 2 ^ K < 2 * l.length) :
    paddedHeight l = K := by
  rw [paddedHeight]
  apply le_antisymm (Nat.clog_le_of_le_pow hle)
  by_contra hK
  -- below `K`, the least height would hold the list in `2 ^ (K - 1) < l.length` leaves
  have hpow : 2 ^ Nat.clog 2 l.length ≤ 2 ^ (K - 1) := Nat.pow_le_pow_right (by norm_num) (by omega)
  have hclog := Nat.le_pow_clog (by norm_num : 1 < 2) l.length
  have hhalf : 2 ^ K = 2 * 2 ^ (K - 1) := by
    rw [← pow_succ']
    congr 1
    omega
  omega

end PaddedTree
