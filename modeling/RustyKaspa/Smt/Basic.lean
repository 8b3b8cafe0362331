import RustyKaspa.Hashes

/-!
# Sparse Merkle tree: keys, nodes and hashers

Models of the data types of the `kaspa-smt` crate (`crypto/smt/src/lib.rs`,
`crypto/smt/src/store.rs`).

Keys are `Hash`es, big-endian numbers: bit `d` of `bit_at` (bit 0 the most
significant bit of byte 0) is `getMsbD d`. `ZERO_HASH` is also the canonical
empty leaf.

The two hash functions an `SmtHasher` brings, `hash_node::<H>` and
`hash_node::<H::CollapsedHasher>`, are keyed BLAKE3 from `kaspa_hashes`; they are
parameters of the model (`SmtHasher`). `EMPTY_HASHES` is generated by
`build.rs` from `hash_node::<H>` alone, and is computed here the same way.
-/

namespace RustyKaspa.Smt

/-- `DEPTH` (`lib.rs` line 41): the number of levels from the root to a leaf. -/
def DEPTH : Nat := 256

/-- `bit_at` (`lib.rs` lines 57–60):
`key.as_slice()[d / 8] & (0x80 >> (d % 8)) != 0`, i.e. bit `d` counted from
the most significant bit of byte 0. -/
def bitAt (key : Hash) (d : Nat) : Bool := key.getMsbD d

/-- The hash functions of an `H: SmtHasher`: `hashNode` is `hash_node::<H>`,
`collapsedHashNode` is `hash_node::<H::CollapsedHasher>`. -/
structure SmtHasher where
  hashNode : Hash → Hash → Hash
  collapsedHashNode : Hash → Hash → Hash

/-- `SmtHasher::EMPTY_HASHES` as `build.rs` computes it: level `0` is
`ZERO_HASH` and level `i + 1` is `hash_node(empty[i], empty[i])`. -/
def SmtHasher.EMPTY_HASHES (H : SmtHasher) (i : Nat) : Hash :=
  (fun e => H.hashNode e e)^[i] ZERO_HASH

/-- `SmtHasher::empty_root`: `EMPTY_HASHES[DEPTH]`. -/
def SmtHasher.emptyRoot (H : SmtHasher) : Hash := H.EMPTY_HASHES DEPTH

@[simp] theorem SmtHasher.EMPTY_HASHES_zero (H : SmtHasher) : H.EMPTY_HASHES 0 = ZERO_HASH :=
  rfl

theorem SmtHasher.EMPTY_HASHES_succ (H : SmtHasher) (i : Nat) :
    H.EMPTY_HASHES (i + 1) = H.hashNode (H.EMPTY_HASHES i) (H.EMPTY_HASHES i) := by
  simp only [SmtHasher.EMPTY_HASHES, Function.iterate_succ_apply']

/-! ## Branch keys -/

/-- `BranchKey` (`store.rs` lines 21–25): a subtree is named by its depth and
by the key of any leaf below it with the bits past `depth` zeroed. -/
structure BranchKey where
  depth : Nat
  nodeKey : Hash
  deriving DecidableEq, Repr

/-- `BranchKey::new` (`store.rs` lines 31–41) zeroes the `256 - depth` least
significant bits of the key: the last `bits_to_zero / 8` bytes, and the low
`bits_to_zero % 8` bits of the byte before them. -/
def BranchKey.new (depth : Nat) (key : Hash) : BranchKey :=
  ⟨depth, (key >>> (256 - depth)) <<< (256 - depth)⟩

/-- `child_branch_key` (`tree.rs` lines 279–287): one level down, setting bit
`depth` when the child is on the right. -/
def childBranchKey (parent : BranchKey) (right : Bool) (depth : Nat) : BranchKey :=
  ⟨parent.depth + 1,
    if right then parent.nodeKey ||| BitVec.twoPow 256 (255 - depth) else parent.nodeKey⟩

/-! ## Nodes and leaf updates -/

/-- `CollapsedLeaf` (`store.rs` lines 45–62): the only leaf of a subtree. -/
structure CollapsedLeaf where
  laneKey : Hash
  leafHash : Hash
  deriving DecidableEq, Repr

/-- `Node` (`store.rs` lines 71–76). -/
inductive Node where
  | internal (hash : Hash)
  | collapsed (cl : CollapsedLeaf)
  deriving DecidableEq, Repr

/-- `LeafUpdate` (`store.rs` lines 103–107): set `key` to `leafHash`, or
delete it when `leafHash = ZERO_HASH`. -/
structure LeafUpdate where
  key : Hash
  leafHash : Hash
  deriving DecidableEq, Repr

/-- `SortedLeafUpdates` (`store.rs` lines 109–117): the updates, with their
keys strictly increasing. The source keeps the invariant by hiding the vector;
here it is a field. -/
structure SortedLeafUpdates where
  updates : List LeafUpdate
  sorted : updates.Pairwise (fun a b => a.key < b.key)

/-! ## Keys and prefixes -/

section Bits

variable {d i : Nat} {key : Hash}

@[simp] theorem BranchKey.new_depth (d : Nat) (key : Hash) : (BranchKey.new d key).depth = d :=
  rfl

/-- Bit `i` of a node key is bit `i` of the leaf key above depth `d`, and zero
below it. -/
theorem BranchKey.getMsbD_new (h : d ≤ 256) :
    (BranchKey.new d key).nodeKey.getMsbD i = (decide (i < d) && key.getMsbD i) := by
  simp only [BranchKey.new, BitVec.getMsbD_shiftLeft, BitVec.getMsbD_ushiftRight]
  by_cases hi : i < d
  · have h1 : i + (256 - d) < 256 := by omega
    have h2 : ¬ i + (256 - d) < 256 - d := by omega
    simp [hi, h1, h2, show i + (256 - d) - (256 - d) = i by omega]
  · by_cases h1 : i + (256 - d) < 256
    · omega
    · simp [hi, h1]

/-- Two keys name the same subtree at depth `d` when they agree above `d`. -/
theorem BranchKey.new_eq_new_iff {k k' : Hash} (h : d ≤ 256) :
    BranchKey.new d k = BranchKey.new d k' ↔ ∀ i < d, bitAt k i = bitAt k' i := by
  constructor
  · intro hk i hi
    have := congrArg (fun b => b.nodeKey.getMsbD i) hk
    simpa [BranchKey.getMsbD_new h, hi, bitAt] using this
  · intro hk
    have hkey : (BranchKey.new d k).nodeKey = (BranchKey.new d k').nodeKey := by
      apply BitVec.eq_of_getMsbD_eq
      intro i _
      simp only [BranchKey.getMsbD_new h]
      by_cases hi : i < d
      · simpa [hi, bitAt] using hk i hi
      · simp [hi]
    exact congrArg (BranchKey.mk d) hkey

/-- The child of the subtree of `key` at depth `d`, on the side `key` takes,
is the subtree of `key` at depth `d + 1`. -/
theorem childBranchKey_new (h : d < 256) :
    childBranchKey (BranchKey.new d key) (bitAt key d) d = BranchKey.new (d + 1) key := by
  have hd : d ≤ 256 := by omega
  have hd1 : d + 1 ≤ 256 := by omega
  have hkey : (childBranchKey (BranchKey.new d key) (bitAt key d) d).nodeKey =
      (BranchKey.new (d + 1) key).nodeKey := by
    apply BitVec.eq_of_getMsbD_eq
    intro i hi
    rw [BranchKey.getMsbD_new hd1]
    have htwo : (BitVec.twoPow 256 (255 - d)).getMsbD i = decide (i = d) := by
      simp only [BitVec.getMsbD_twoPow]; by_cases hid : i = d <;> simp [hid] <;> omega
    cases hb : bitAt key d
    · simp only [childBranchKey, Bool.false_eq_true, if_false, BranchKey.getMsbD_new hd]
      by_cases hid : i = d
      · subst hid; simp only [bitAt] at hb; simp [hb]
      · by_cases hlt : i < d
        · simp [hlt, show i < d + 1 by omega]
        · simp [hlt, show ¬ i < d + 1 by omega]
    · simp only [childBranchKey, if_true, BitVec.getMsbD_or, BranchKey.getMsbD_new hd, htwo]
      by_cases hid : i = d
      · subst hid; simp only [bitAt] at hb; simp [hb]
      · by_cases hlt : i < d
        · simp [hlt, show i < d + 1 by omega, hid]
        · simp [hlt, show ¬ i < d + 1 by omega, hid]
  exact congrArg (BranchKey.mk (d + 1)) hkey

/-- The two children of a subtree have distinct branch keys. -/
theorem childBranchKey_ne (p : BranchKey) (h : d < 256) (hp : p.nodeKey.getMsbD d = false) :
    childBranchKey p false d ≠ childBranchKey p true d := by
  intro heq
  have := congrArg (fun b => b.nodeKey.getMsbD d) heq
  simp [childBranchKey, hp, BitVec.getMsbD_twoPow] at this
  omega

end Bits

end RustyKaspa.Smt
