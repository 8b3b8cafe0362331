import RustyKaspa.Merkle.Root

/-!
# The streaming Merkle builder

Model of `StreamingMerkleBuilder` (`crypto/merkle/src/streaming.rs` lines 10–105).
The builder keeps a stack of at most `MAX_STACK = 32` entries, each a level and
a hash. `add_leaf` pushes the leaf at level `0` after popping every top entry of
the level it has reached, branching the popped hash with the current one and
going one level up. `finalize` folds the stack from the top down, padding the
running hash with `ZERO_HASH` up to the next entry's level before branching that
entry with it. The hasher `H` is the parameter `branch`.

The invariant (`Decomp`): read from the bottom, the stack entries are the roots
of complete subtrees over consecutive blocks of the leaves added so far, with
strictly decreasing heights: the binary decomposition of the leaf count.

Results:
* `mergeLoop_spec`: one `add_leaf` keeps the decomposition.
* `Decomp.two_pow_length_le`: a decomposition of `n` leaves has at most
  `log₂ (n + 1)` entries, so below `2 ^ 32` leaves `add_leaf` never indexes
  past the stack.
* `finalize_eq_merkleRoot`: `finalize` of a decomposition is the root of the tree
  padded to the next power of two.
* `streamingMerkleBuilder_finalize_eq`: for every list of fewer than `2 ^ 32`
  leaves, adding them in order to `new()` never panics, and `finalize` returns
  what `calc_merkle_root_with_hasher` returns.
-/

namespace RustyKaspa.Merkle

open PaddedTree

variable (branch : Hash → Hash → Hash)

/-- `MAX_STACK`: the stack holds at most 32 entries. -/
def MAX_STACK : ℕ := 32

/-- `StreamingMerkleBuilder<H>`: the entries `stack[0..stack_len]` listed from the
top `stack[stack_len - 1]` down, and `leaf_count`. -/
structure StreamingMerkleBuilder where
  stack : List (ℕ × Hash)
  leafCount : ℕ
  length_stack_le : stack.length ≤ MAX_STACK

/-- `StreamingMerkleBuilder::new` (lines 35–37). -/
def StreamingMerkleBuilder.new : StreamingMerkleBuilder := ⟨[], 0, Nat.zero_le _⟩

/-- The `while` loop of `add_leaf` (lines 43–51): while the top entry has level
`level`, pop it and branch its hash with `current`, one level up. -/
def mergeLoop : List (ℕ × Hash) → ℕ → Hash → List (ℕ × Hash) × ℕ × Hash
  | [], level, current => ([], level, current)
  | (topLevel, topHash) :: rest, level, current =>
    if topLevel ≠ level then ((topLevel, topHash) :: rest, level, current)
    else mergeLoop rest (level + 1) (branch topHash current)

/-- `add_leaf` (lines 39–56); `none` is the panic of `self.stack[self.stack_len]`
when the merged stack still has `MAX_STACK` entries. -/
def StreamingMerkleBuilder.addLeaf (b : StreamingMerkleBuilder) (hash : Hash) :
    Option StreamingMerkleBuilder :=
  let merged := mergeLoop branch b.stack 0 hash
  if h : merged.1.length < MAX_STACK then
    some ⟨(merged.2.1, merged.2.2) :: merged.1, b.leafCount + 1, h⟩
  else none

/-- The padding loop of `finalize` (lines 90–93): branch the result with
`ZERO_HASH` until its level reaches `level`. -/
def padLoop (level resultLevel : ℕ) (resultHash : Hash) : ℕ × Hash :=
  if resultLevel < level then padLoop level (resultLevel + 1) (branch resultHash ZERO_HASH)
  else (resultLevel, resultHash)
termination_by level - resultLevel

/-- The `for` loop of `finalize` (lines 80–99) over the entries below the top
one, from the top down: pad the result to the entry's level, then branch the
entry (left) with it (right). -/
def finalizeLoop : List (ℕ × Hash) → ℕ × Hash → ℕ × Hash
  | [], result => result
  | (level, hash) :: rest, (resultLevel, resultHash) =>
    let padded := padLoop branch level resultLevel resultHash
    finalizeLoop rest (padded.1 + 1, branch hash padded.2)

/-- `finalize` (lines 61–102). With one leaf it returns `stack[0].1`, the bottom
entry; with more, the loop starts from the top entry. -/
def StreamingMerkleBuilder.finalize (b : StreamingMerkleBuilder) : Hash :=
  if b.leafCount = 0 then ZERO_HASH
  else if b.leafCount = 1 then (b.stack.getLast?.map Prod.snd).getD ZERO_HASH
  else
    match b.stack with
    | [] => ZERO_HASH
    | top :: rest => (finalizeLoop branch rest top).2

/-- Adding the leaves in order; `none` if an `add_leaf` panics. -/
def StreamingMerkleBuilder.addLeaves (b : StreamingMerkleBuilder) (hashes : List Hash) :
    Option StreamingMerkleBuilder :=
  hashes.foldlM (fun b hash => b.addLeaf branch hash) b

/-! ## The stack as a binary decomposition -/

/-- The stack, listed from the top, over the leaves: the bottom entry is the
root of a complete subtree over the first block of leaves, and the levels
increase strictly from the top down, starting at `b` or above. -/
inductive Decomp : ℕ → List (ℕ × Hash) → List Hash → Prop
  | nil (b : ℕ) : Decomp b [] []
  | cons {b level : ℕ} {hash : Hash} {rest : List (ℕ × Hash)} {pre block : List Hash} :
      b ≤ level → block.length = 2 ^ level → treeRoot branch ZERO_HASH level block = some hash →
      Decomp (level + 1) rest pre → Decomp b ((level, hash) :: rest) (pre ++ block)

variable {branch}

/-- Entries of levels at least `b` over `n` leaves number at most
`log₂ (n / 2 ^ b + 1)`. -/
theorem Decomp.two_pow_length_le {b : ℕ} {stack : List (ℕ × Hash)} {leaves : List Hash}
    (h : Decomp branch b stack leaves) : 2 ^ b * (2 ^ stack.length - 1) ≤ leaves.length := by
  induction h with
  | nil => simp
  | @cons b level hash rest pre block hlevel hlen _ _ ih =>
    obtain ⟨Y, hY⟩ : ∃ Y, 2 ^ rest.length = Y + 1 := ⟨_, (Nat.succ_pred_eq_of_pos (Nat.two_pow_pos _)).symm⟩
    have hb : 2 ^ b ≤ 2 ^ level := Nat.pow_le_pow_right (by norm_num) hlevel
    -- the entries below weigh at least `2 ^ (level + 1) * Y`, this one `2 ^ level`
    have hweight : 2 ^ level * (2 ^ (rest.length + 1) - 1) = 2 ^ (level + 1) * Y + 2 ^ level := by
      rw [pow_succ, hY, pow_succ]
      rw [show (Y + 1) * 2 - 1 = 2 * Y + 1 by omega]
      ring
    rw [hY, Nat.add_sub_cancel] at ih
    rw [List.length_cons, List.length_append, hlen]
    calc 2 ^ b * (2 ^ (rest.length + 1) - 1)
        ≤ 2 ^ level * (2 ^ (rest.length + 1) - 1) := Nat.mul_le_mul_right _ hb
      _ = 2 ^ (level + 1) * Y + 2 ^ level := hweight
      _ ≤ pre.length + 2 ^ level := by omega

theorem Decomp.eq_nil_of_nil {b : ℕ} {stack : List (ℕ × Hash)} (h : Decomp branch b stack []) :
    stack = [] := by
  have hlen := h.two_pow_length_le
  have hpos := Nat.two_pow_pos b
  have hone : 2 ^ stack.length ≤ 1 := by
    rw [List.length_nil, Nat.le_zero, Nat.mul_eq_zero] at hlen
    omega
  apply List.eq_nil_of_length_eq_zero
  by_contra hne
  have := Nat.one_lt_two_pow hne
  omega

/-! ## `add_leaf` -/

/-- The merge loop turns a decomposition with levels from `level` on and a
complete subtree of height `level` after it into a decomposition of all the
leaves, the merged subtree on top. -/
theorem mergeLoop_spec {stack : List (ℕ × Hash)} {level : ℕ} {pre : List Hash}
    (hdec : Decomp branch level stack pre) {block : List Hash} (hlen : block.length = 2 ^ level)
    {current : Hash} (hroot : treeRoot branch ZERO_HASH level block = some current) :
    Decomp branch 0 (((mergeLoop branch stack level current).2.1,
      (mergeLoop branch stack level current).2.2) :: (mergeLoop branch stack level current).1)
      (pre ++ block) := by
  induction stack generalizing level current pre block with
  | nil =>
    cases hdec
    exact .cons (Nat.zero_le _) hlen hroot (.nil _)
  | cons top rest ih =>
    obtain ⟨topLevel, topHash⟩ := top
    cases hdec with
    | cons hlevel htoplen htoproot hrest =>
      rename_i pre' block'
      rw [mergeLoop]
      by_cases heq : topLevel = level
      · -- the top entry and the new subtree are siblings: merge them one level up
        subst heq
        rw [if_neg (not_not.mpr rfl), List.append_assoc]
        apply ih hrest (by rw [List.length_append, htoplen, hlen, pow_succ]; omega)
        rw [treeRoot_succ_append _ _ htoplen, htoproot, hroot]
        rfl
      · -- the top entry is higher: the new subtree goes on top of it
        rw [if_pos heq]
        show Decomp branch 0 ((level, current) :: (topLevel, topHash) :: rest) (pre' ++ block' ++ block)
        exact .cons (Nat.zero_le _) hlen hroot (.cons (by omega) htoplen htoproot hrest)

/-- `add_leaf` keeps the decomposition and, below `2 ^ 32` leaves, does not panic. -/
theorem addLeaf_spec {b : StreamingMerkleBuilder} {leaves : List Hash}
    (hdec : Decomp branch 0 b.stack leaves) (hcount : b.leafCount = leaves.length) (hash : Hash)
    (hlt : leaves.length + 1 < 2 ^ 32) :
    ∃ b', b.addLeaf branch hash = some b' ∧ Decomp branch 0 b'.stack (leaves ++ [hash]) ∧
      b'.leafCount = (leaves ++ [hash]).length := by
  have hmerge := mergeLoop_spec hdec (show [hash].length = 2 ^ 0 from rfl)
    (show treeRoot branch ZERO_HASH 0 [hash] = some hash from rfl)
  -- the merged stack with its new top has at most 32 entries
  have hbound := hmerge.two_pow_length_le
  rw [pow_zero, one_mul, List.length_append, List.length_singleton, List.length_cons] at hbound
  have hshort : (mergeLoop branch b.stack 0 hash).1.length < MAX_STACK := by
    by_contra hlong
    have hpow : 2 ^ 33 ≤ 2 ^ ((mergeLoop branch b.stack 0 hash).1.length + 1) :=
      Nat.pow_le_pow_right (by norm_num) (by rw [MAX_STACK] at hlong; omega)
    omega
  refine ⟨_, dif_pos hshort, hmerge, ?_⟩
  rw [List.length_append, List.length_singleton, ← hcount]

/-- Adding leaves to a decomposition, below `2 ^ 32` leaves in all. -/
theorem addLeaves_spec {b : StreamingMerkleBuilder} {leaves : List Hash}
    (hdec : Decomp branch 0 b.stack leaves) (hcount : b.leafCount = leaves.length) (hashes : List Hash)
    (hlt : leaves.length + hashes.length < 2 ^ 32) :
    ∃ b', b.addLeaves branch hashes = some b' ∧ Decomp branch 0 b'.stack (leaves ++ hashes) ∧
      b'.leafCount = (leaves ++ hashes).length := by
  induction hashes generalizing b leaves with
  | nil => exact ⟨b, rfl, by rwa [List.append_nil], by rw [List.append_nil, hcount]⟩
  | cons hash hashes ih =>
    rw [List.length_cons] at hlt
    obtain ⟨b₁, hb₁, hdec₁, hcount₁⟩ := addLeaf_spec hdec hcount hash (by omega)
    obtain ⟨b₂, hb₂, hdec₂, hcount₂⟩ := ih hdec₁ hcount₁ (by rw [List.length_append, List.length_singleton]; omega)
    refine ⟨b₂, ?_, by rwa [List.append_assoc] at hdec₂, by rwa [List.append_assoc] at hcount₂⟩
    rw [StreamingMerkleBuilder.addLeaves, List.foldlM_cons, hb₁]
    exact hb₂

/-! ## `finalize` -/

/-- The padding loop branches the result with `ZERO_HASH` once per level it climbs. -/
theorem padLoop_eq {level resultLevel : ℕ} (h : resultLevel ≤ level) (resultHash : Hash) :
    padLoop branch level resultLevel resultHash =
      (level, (fun x => branch x ZERO_HASH)^[level - resultLevel] resultHash) := by
  obtain ⟨d, rfl⟩ := Nat.exists_eq_add_of_le h
  induction d generalizing resultLevel resultHash with
  | zero =>
    rw [padLoop, if_neg (by omega)]
    simp
  | succ d ih =>
    rw [padLoop, if_pos (by omega), show resultLevel + (d + 1) = resultLevel + 1 + d by omega,
      ih (branch resultHash ZERO_HASH) (Nat.le_add_right _ _), show resultLevel + 1 + d - (resultLevel + 1) = d by omega,
      show resultLevel + 1 + d - resultLevel = d + 1 by omega, Function.iterate_succ_apply]

/-- The loop of `finalize` over the entries below a result that is the root, at
the next power of two of their count, of the leaves after theirs: the result is
the root of all the leaves at the next power of two of their count. -/
theorem finalizeLoop_spec {b : ℕ} {rest : List (ℕ × Hash)} {pre : List Hash}
    (hdec : Decomp branch b rest pre) {L : ℕ} (hL : L ≤ b) {suffix : List Hash}
    (hle : suffix.length ≤ 2 ^ L) (hlt : 2 ^ L < 2 * suffix.length) {r : Hash}
    (hroot : treeRoot branch ZERO_HASH L suffix = some r) :
    treeRoot branch ZERO_HASH (finalizeLoop branch rest (L, r)).1 (pre ++ suffix) =
        some (finalizeLoop branch rest (L, r)).2 ∧
      (pre ++ suffix).length ≤ 2 ^ (finalizeLoop branch rest (L, r)).1 ∧
      2 ^ (finalizeLoop branch rest (L, r)).1 < 2 * (pre ++ suffix).length := by
  induction hdec generalizing L suffix r with
  | nil => exact ⟨hroot, hle, hlt⟩
  | @cons b level hash rest pre block hlevel hlen hblock _ ih =>
    have hLlevel : L ≤ level := le_trans hL hlevel
    have hpow : 2 ^ L ≤ 2 ^ level := Nat.pow_le_pow_right (by norm_num) hLlevel
    -- padded to the entry's level, the result is the root at that level
    have hpadded : treeRoot branch ZERO_HASH level suffix =
        some ((fun x => branch x ZERO_HASH)^[level - L] r) := by
      rw [show level = L + (level - L) by omega, treeRoot_add_of_length_le _ _ hle, hroot,
        Option.map_some, Nat.add_sub_cancel_left]
    -- the entry is the left child of the next result
    have hmerged : treeRoot branch ZERO_HASH (level + 1) (block ++ suffix) =
        some (branch hash ((fun x => branch x ZERO_HASH)^[level - L] r)) := by
      rw [treeRoot_succ_append _ _ hlen, hblock, hpadded]
      rfl
    have hstep := ih (le_refl (level + 1))
      (by rw [List.length_append, hlen, pow_succ]; omega)
      (by rw [List.length_append, hlen, pow_succ]; omega) hmerged
    rw [finalizeLoop, padLoop_eq hLlevel, List.append_assoc]
    exact hstep

/-- `finalize` of a decomposition of the leaves is their Merkle root. -/
theorem finalize_eq_merkleRoot {b : StreamingMerkleBuilder} {leaves : List Hash}
    (hdec : Decomp branch 0 b.stack leaves) (hcount : b.leafCount = leaves.length) :
    b.finalize branch = merkleRoot branch leaves := by
  obtain ⟨stack, leafCount, _⟩ := b
  simp only at hdec hcount
  subst hcount
  cases hdec with
  | nil => rfl
  | @cons _ level hash rest pre block _ hlen hblock hrest =>
    have hpos := Nat.two_pow_pos level
    have hcount : (pre ++ block).length = pre.length + 2 ^ level := by
      rw [List.length_append, hlen]
    unfold StreamingMerkleBuilder.finalize
    simp only
    rw [if_neg (by omega)]
    by_cases hone : pre.length + 2 ^ level = 1
    · -- one leaf: the stack is that leaf at level `0`
      rw [if_pos (by omega)]
      have hpre : pre = [] := List.eq_nil_of_length_eq_zero (by omega)
      subst hpre
      have hrest' : rest = [] := hrest.eq_nil_of_nil
      subst hrest'
      have hlevel : level = 0 := by
        by_contra hne
        have := Nat.one_lt_two_pow hne
        omega
      subst hlevel
      obtain ⟨leaf, rfl⟩ := List.length_eq_one_iff.mp hlen
      simp only [treeRoot_zero, List.head?_cons, Option.some.injEq] at hblock
      subst hblock
      rw [List.nil_append, merkleRoot, paddedRoot, paddedHeight, List.length_singleton,
        Nat.clog_one_right]
      rfl
    · -- more leaves: the loop runs from the top entry
      rw [if_neg (by omega)]
      have hspec := finalizeLoop_spec hrest (Nat.le_succ level) hlen.le
        (by rw [hlen]; omega) hblock
      rw [merkleRoot, paddedRoot, paddedHeight_eq hspec.2.1 hspec.2.2, hspec.1]
      rfl

variable (branch)

/-- Adding fewer than `2 ^ 32` leaves in order to `new()` never panics, and
`finalize` returns what `calc_merkle_root_with_hasher` returns over the same
leaves: the root of the tree padded to the next power of two. -/
theorem streamingMerkleBuilder_finalize_eq (hashes : List Hash) (hn : hashes.length < 2 ^ 32) :
    ∃ b, StreamingMerkleBuilder.new.addLeaves branch hashes = some b ∧
      calcMerkleRootWithHasher branch hashes = some (b.finalize branch) ∧
      b.finalize branch = merkleRoot branch hashes := by
  obtain ⟨b, hb, hdec, hcount⟩ :=
    addLeaves_spec (show Decomp branch 0 StreamingMerkleBuilder.new.stack [] from .nil 0) rfl hashes
      (by rw [List.length_nil, zero_add]; exact hn)
  rw [List.nil_append] at hdec hcount
  refine ⟨b, hb, ?_, finalize_eq_merkleRoot hdec hcount⟩
  rw [calcMerkleRootWithHasher_eq_merkleRoot, finalize_eq_merkleRoot hdec hcount]

/-- Three leaves, under a hasher that adds the two hashes. -/
theorem streamingMerkleBuilder_finalize_eq_three :
    ∃ b, StreamingMerkleBuilder.new.addLeaves (· + ·) [1, 2, 3] = some b ∧
      calcMerkleRootWithHasher (· + ·) [1, 2, 3] = some (b.finalize (· + ·)) ∧
      b.finalize (· + ·) = merkleRoot (· + ·) [1, 2, 3] :=
  streamingMerkleBuilder_finalize_eq (· + ·) [1, 2, 3] (by decide)

end RustyKaspa.Merkle
