import RustyKaspa.Hashes
import RustyKaspa.Lib.PaddedTree

/-!
# Merkle roots over an array

Model of `calc_merkle_root_with_hasher` (`crypto/merkle/src/lib.rs` lines 30–51).
Over `n ≥ 2` leaves it allocates `2 * P - 1` cells, `P` the next power of two of
`n`, stores the leaves in the first `n`, and fills cell `P + t` from the cells
`2 t` and `2 t + 1`: absent when the left one is, else the branch hash of the
left one and the right one or `ZERO_HASH`. The root is the last cell. The hasher
`H` is the parameter `branch`: `merkle_hash_with_hasher(l, r, H::default())`.

Results:
* `calcMerkleRootWithHasher_eq_merkleRoot`: for every list of leaves the function
  returns, without the final `unwrap`s panicking, `ZERO_HASH` for no leaves, the
  leaf for one, and otherwise the root of the tree padded to the next power of
  two (`PaddedTree.paddedRoot`).

The proof reads the cells as a heap (`heapCell`): the loop fills them in order
(`foldl_mergeStep_spec`), and the cell at height `L`, index `j` is the node of
`PaddedTree.treeRoot` over the `j`-th block of `2 ^ L` leaves
(`heapCell_level`).
-/

namespace RustyKaspa.Merkle

open PaddedTree

variable (branch : Hash → Hash → Hash)

/-- `usize::next_power_of_two`: the least power of two at least `n`. -/
def nextPowerOfTwo (n : ℕ) : ℕ := 2 ^ Nat.clog 2 n

/-- One iteration of the loop of lines 42–48: cell `offset` becomes absent when
cell `i` is, and otherwise the branch hash of cell `i` and of cell `i + 1` or
`ZERO_HASH`. -/
def mergeStep (merkles : List (Option Hash)) (offset i : ℕ) : List (Option Hash) :=
  match merkles.getD i none with
  | none => merkles.set offset none
  | some left => merkles.set offset (some (branch left ((merkles.getD (i + 1) none).getD ZERO_HASH)))

/-- `calc_merkle_root_with_hasher` (lines 30–51); `none` is a panic of its final
`unwrap`s. The loop runs over `(next_pot..).zip((0..vec_len - 1).step_by(2))`,
the pairs `(next_pot + t, 2 t)` for `2 t < vec_len - 1`, that is `t < next_pot - 1`. -/
def calcMerkleRootWithHasher (hashes : List Hash) : Option Hash :=
  match hashes with
  | [] => some ZERO_HASH
  | [hash] => some hash
  | _ =>
    let nextPot := nextPowerOfTwo hashes.length
    let vecLen := 2 * nextPot - 1
    let merkles := hashes.map some ++ List.replicate (vecLen - hashes.length) none
    let merkles := (List.range (nextPot - 1)).foldl
      (fun merkles t => mergeStep branch merkles (nextPot + t) (2 * t)) merkles
    merkles.getLast?.bind id

/-- The root the array computes: `ZERO_HASH` for no leaves, and otherwise the
root of the tree padded to the next power of two. -/
def merkleRoot (hashes : List Hash) : Hash := (paddedRoot branch ZERO_HASH hashes).getD ZERO_HASH

theorem mergeStep_eq (merkles : List (Option Hash)) (offset i : ℕ) :
    mergeStep branch merkles offset i =
      merkles.set offset (combine branch ZERO_HASH (merkles.getD i none) (merkles.getD (i + 1) none)) := by
  unfold mergeStep combine
  split <;> simp_all

/-! ## The cells as a heap -/

/-- The value the loop leaves in cell `p` of an array over `P` leaf cells: a leaf
below `P`, and above it the parent of cells `2 (p - P)` and `2 (p - P) + 1`. -/
def heapCell (P : ℕ) (hashes : List Hash) (p : ℕ) : Option Hash :=
  if p < P then hashes[p]?
  else if p - P + 1 < P then
    combine branch ZERO_HASH (heapCell P hashes (2 * (p - P))) (heapCell P hashes (2 * (p - P) + 1))
  else none
termination_by p
decreasing_by all_goals omega

theorem heapCell_of_lt {P : ℕ} (hashes : List Hash) {p : ℕ} (hp : p < P) :
    heapCell branch P hashes p = hashes[p]? := by
  rw [heapCell, if_pos hp]

theorem heapCell_parent {P : ℕ} (hashes : List Hash) {t : ℕ} (ht : t + 1 < P) :
    heapCell branch P hashes (P + t) =
      combine branch ZERO_HASH (heapCell branch P hashes (2 * t)) (heapCell branch P hashes (2 * t + 1)) := by
  rw [heapCell, if_neg (by omega), if_pos (by omega), Nat.add_sub_cancel_left]

/-- After `t` iterations the cells below `P + t` hold their heap values: each
iteration writes the next cell from two cells already written. -/
theorem foldl_mergeStep_spec {P : ℕ} (hashes : List Hash) (hn : hashes.length ≤ P) {t : ℕ}
    (ht : t ≤ P - 1) :
    ((List.range t).foldl (fun merkles t => mergeStep branch merkles (P + t) (2 * t))
        (hashes.map some ++ List.replicate (2 * P - 1 - hashes.length) none)).length = 2 * P - 1 ∧
      ∀ p < P + t, ((List.range t).foldl (fun merkles t => mergeStep branch merkles (P + t) (2 * t))
        (hashes.map some ++ List.replicate (2 * P - 1 - hashes.length) none))[p]? =
          some (heapCell branch P hashes p) := by
  induction t with
  | zero =>
    -- the leaf cells, then absent cells
    refine ⟨by simp; omega, fun p hp => ?_⟩
    rw [List.range_zero, List.foldl_nil, heapCell_of_lt branch hashes (by omega)]
    by_cases hpn : p < hashes.length
    · rw [List.getElem?_append_left (by simpa using hpn), List.getElem?_map,
        List.getElem?_eq_getElem hpn]
      rfl
    · rw [List.getElem?_append_right (by simp; omega), List.getElem?_replicate, if_pos (by simp; omega),
        List.getElem?_eq_none (by omega)]
  | succ t ih =>
    obtain ⟨hlen, hcells⟩ := ih (by omega)
    rw [List.range_succ, List.foldl_append, List.foldl_cons, List.foldl_nil, mergeStep_eq]
    refine ⟨by rw [List.length_set, hlen], fun p hp => ?_⟩
    rw [List.getElem?_set]
    by_cases hpt : P + t = p
    · -- the cell written in this iteration, from the two cells below it
      rw [if_pos hpt, if_pos (by omega), ← hpt, heapCell_parent branch hashes (by omega),
        List.getD_eq_getElem?_getD, List.getD_eq_getElem?_getD, hcells (2 * t) (by omega),
        hcells (2 * t + 1) (by omega)]
      rfl
    · rw [if_neg hpt]
      exact hcells p (by omega)

/-- The cell at height `L` and index `j`, of the `2 ^ m` cells at that height,
`L + m = k`, is the node over the `j`-th block of `2 ^ L` leaves. -/
theorem heapCell_level {k : ℕ} (hashes : List Hash) :
    ∀ L m, L + m = k → ∀ j < 2 ^ m,
      heapCell branch (2 ^ k) hashes (2 * 2 ^ k - 2 * 2 ^ m + j) = treeRoot branch ZERO_HASH L (chunk L j hashes) := by
  intro L
  induction L with
  | zero =>
    intro m hm j hj
    subst hm
    rw [zero_add, Nat.sub_self, zero_add, heapCell_of_lt branch hashes hj, chunk, treeRoot_zero,
      pow_zero, mul_one, List.head?_take, if_neg one_ne_zero, List.head?_drop]
  | succ L ih =>
    intro m hm j hj
    have hpow : 2 * 2 ^ m ≤ 2 ^ k := by
      rw [← pow_succ']
      exact Nat.pow_le_pow_right (by norm_num) (by omega)
    have hsucc : 2 ^ (m + 1) = 2 * 2 ^ m := pow_succ' 2 m
    -- the cell lies above the leaves, at `2 ^ k + t` with `t` its index among the parents
    have hcell : 2 * 2 ^ k - 2 * 2 ^ m + j = 2 ^ k + (2 ^ k - 2 * 2 ^ m + j) := by omega
    have hleft : 2 * (2 ^ k - 2 * 2 ^ m + j) = 2 * 2 ^ k - 2 * 2 ^ (m + 1) + 2 * j := by omega
    rw [hcell, heapCell_parent branch hashes (by omega), hleft,
      Nat.add_assoc (2 * 2 ^ k - 2 * 2 ^ (m + 1)) (2 * j) 1,
      ih (m + 1) (by omega) (2 * j) (by omega), ih (m + 1) (by omega) (2 * j + 1) (by omega),
      treeRoot_succ_chunk]

/-- Over a nonempty list the loop leaves the root of the padded tree in the last
cell. -/
theorem foldl_mergeStep_root {hashes : List Hash} (hne : hashes ≠ []) :
    ((List.range (nextPowerOfTwo hashes.length - 1)).foldl
        (fun merkles t => mergeStep branch merkles (nextPowerOfTwo hashes.length + t) (2 * t))
        (hashes.map some ++ List.replicate (2 * nextPowerOfTwo hashes.length - 1 - hashes.length) none)
      ).getLast?.bind id = some (merkleRoot branch hashes) := by
  have hn : hashes.length ≤ 2 ^ paddedHeight hashes := Nat.le_pow_clog (by norm_num) _
  have hpos := Nat.two_pow_pos (paddedHeight hashes)
  obtain ⟨hlen, hcells⟩ := foldl_mergeStep_spec branch hashes hn (le_refl (2 ^ paddedHeight hashes - 1))
  -- the last cell is the node at the padded height over all the leaves
  have hroot := heapCell_level branch hashes (paddedHeight hashes) 0 (add_zero _) 0 (Nat.two_pow_pos 0)
  rw [pow_zero, add_zero, chunk, Nat.zero_mul, List.drop_zero, List.take_of_length_le hn] at hroot
  obtain ⟨x, hx⟩ := Option.ne_none_iff_exists'.mp
    ((treeRoot_eq_none_iff branch ZERO_HASH _ hashes).not.mpr hne)
  rw [nextPowerOfTwo, ← paddedHeight, List.getLast?_eq_getElem?, hlen, hcells _ (by omega),
    show 2 * 2 ^ paddedHeight hashes - 1 - 1 = 2 * 2 ^ paddedHeight hashes - 2 * 1 by omega, hroot, hx]
  simp [merkleRoot, paddedRoot, hx]

/-- `calc_merkle_root_with_hasher` returns, without panicking, `ZERO_HASH` for no
leaves, the leaf for one, and otherwise the root of the tree padded to the next
power of two. -/
theorem calcMerkleRootWithHasher_eq_merkleRoot (hashes : List Hash) :
    calcMerkleRootWithHasher branch hashes = some (merkleRoot branch hashes) := by
  match hashes with
  | [] => rfl
  | [hash] =>
    rw [calcMerkleRootWithHasher, merkleRoot, paddedRoot, paddedHeight, List.length_singleton,
      Nat.clog_one_right]
    rfl
  | h₁ :: h₂ :: rest =>
    simp only [calcMerkleRootWithHasher]
    exact foldl_mergeStep_root branch (List.cons_ne_nil h₁ _)

end RustyKaspa.Merkle
