import RustyKaspa.Lib.MerklePath
import RustyKaspa.Smt.Tree

/-!
# SMT proofs and their verifier

Model of `crypto/smt/src/proof.rs`: the bitmap, `ProofTerminal`,
`bitmap_clear_count_before`, `compute_root_inner` with and without a
`ProofBranchCache`, and `SmtProof::compute_root` / `verify` / `verify_cached`.

`SmtProof` is a borrowed view of the three fields of `OwnedSmtProof`, and
`OwnedSmtProof::verify` delegates to it, so one structure carries both.

Results:
* `computeRoot_eq_climb`: a proof whose sibling count matches its bitmap
  computes the Merkle path `MerklePath.climb` from its seed over `limit`
  levels, with the bitmap's empty levels filled by `EMPTY_HASHES`.
-/

namespace RustyKaspa.Smt

/-- `SmtProofError` (`proof.rs` lines 47–51). -/
inductive SmtProofError where
  | siblingCountMismatch (expected actual : Nat)
  deriving DecidableEq, Repr

/-- `ProofTerminal` (`proof.rs` lines 80–95): where and how the proof stopped. -/
inductive ProofTerminal where
  | full
  | collapsed (depth : UInt8)
  | collapsedOther (depth : UInt8) (leaf : CollapsedLeaf)
  deriving DecidableEq, Repr

/-- `ProofTerminal::depth` (`proof.rs` lines 113–118). -/
def ProofTerminal.depth : ProofTerminal → Nat
  | .full => DEPTH
  | .collapsed depth => depth.toNat
  | .collapsedOther depth _ => depth.toNat

/-- `OwnedSmtProof` (`proof.rs` lines 282–290), also the fields of the
borrowed `SmtProof`. -/
structure OwnedSmtProof where
  bitmap : Vector UInt8 32
  siblings : List Hash
  terminal : ProofTerminal
  deriving DecidableEq, Repr

/-- `ProofBranchCache = BTreeMap<BranchKey, Hash>` (`proof.rs` line 42). -/
def ProofBranchCache := BranchKey → Option Hash

/-- `BTreeMap::insert` on the branch cache. -/
def ProofBranchCache.insert (cache : ProofBranchCache) (bk : BranchKey) (h : Hash) :
    ProofBranchCache :=
  fun k => if k = bk then some h else cache k

/-- `is_empty_at_depth` (`proof.rs` lines 55–58):
`bitmap[d / 8] & (1 << (d % 8)) != 0`. The index is in bounds for every
`d < 256`, the only depths the source passes. -/
def isEmptyAtDepth (bitmap : Vector UInt8 32) (d : Nat) : Bool :=
  if h : d / 8 < 32 then bitmap[d / 8] &&& ((1 : UInt8) <<< (d % 8).toUInt8) != 0 else false

/-- `bitmap_clear_count_before` (`proof.rs` lines 124–127): the levels above the
terminal whose sibling is present. -/
def bitmapClearCountBefore (bitmap : Vector UInt8 32) (terminal : ProofTerminal) : Nat :=
  ((List.range terminal.depth).filter (fun d => !isEmptyAtDepth bitmap d)).length

/-- The initial `current` of `compute_root_inner` (`proof.rs` lines 162–173),
by the terminal and the queried leaf. -/
def seedHash (H : SmtHasher) (terminal : ProofTerminal) (key : Hash) (leafHash : Option Hash) : Hash :=
  match terminal, leafHash with
  | .collapsedOther _ leaf, none =>
    if leaf.laneKey ≠ key then H.collapsedHashNode leaf.laneKey leaf.leafHash else ZERO_HASH
  | _, some leafHash => H.collapsedHashNode key leafHash
  | _, none => ZERO_HASH

/-- The sibling at level `d` and the sibling index after it (`proof.rs` lines
182–187): an empty level is filled from `EMPTY_HASHES`, a present one is taken
from the back of `siblings`. -/
def levelSibling (H : SmtHasher) (bitmap : Vector UInt8 32) (siblings : List Hash) (d sibIdx : Nat) :
    Hash × Nat :=
  if isEmptyAtDepth bitmap d then (H.EMPTY_HASHES (DEPTH - 1 - d), sibIdx)
  else (siblings.getD (sibIdx - 1) ZERO_HASH, sibIdx - 1)

/-- The hash of one level with an optional cache (`proof.rs` lines 191–199):
a cached hash for the branch key is returned as it is; otherwise the node is
hashed and cached. -/
def cachedHashNode (H : SmtHasher) (cache : Option ProofBranchCache) (bk : BranchKey)
    (left right : Hash) : Hash × Option ProofBranchCache :=
  match cache with
  | some cache =>
    match cache bk with
    | some cachedHash => (cachedHash, some cache)
    | none =>
      let nodeHash := H.hashNode left right
      (nodeHash, some (cache.insert bk nodeHash))
  | none => (H.hashNode left right, none)

/-- The `for d in (0..limit).rev()` loop of `compute_root_inner`
(`proof.rs` lines 178–202), `d` levels before its end: it hashes level
`d - 1` and goes on. -/
def rootLoop (H : SmtHasher) (bitmap : Vector UInt8 32) (siblings : List Hash) (key : Hash) :
    Nat → Hash → Nat → Option ProofBranchCache → Hash × Option ProofBranchCache
  | 0, current, _, cache => (current, cache)
  | d + 1, current, sibIdx, cache =>
    let (sibling, sibIdx) := levelSibling H bitmap siblings d sibIdx
    let (left, right) := if bitAt key d then (sibling, current) else (current, sibling)
    let (current, cache) := cachedHashNode H cache (BranchKey.new d key) left right
    rootLoop H bitmap siblings key d current sibIdx cache

theorem rootLoop_succ (H : SmtHasher) (bitmap : Vector UInt8 32) (siblings : List Hash) (key : Hash)
    (d : Nat) (current : Hash) (sibIdx : Nat) (cache : Option ProofBranchCache) :
    rootLoop H bitmap siblings key (d + 1) current sibIdx cache =
      rootLoop H bitmap siblings key d
        (cachedHashNode H cache (BranchKey.new d key)
          (MerklePath.inputs (bitAt key) d current (levelSibling H bitmap siblings d sibIdx).1).1
          (MerklePath.inputs (bitAt key) d current (levelSibling H bitmap siblings d sibIdx).1).2).1
        (levelSibling H bitmap siblings d sibIdx).2
        (cachedHashNode H cache (BranchKey.new d key)
          (MerklePath.inputs (bitAt key) d current (levelSibling H bitmap siblings d sibIdx).1).1
          (MerklePath.inputs (bitAt key) d current (levelSibling H bitmap siblings d sibIdx).1).2).2 := by
  simp only [rootLoop, MerklePath.inputs]

/-- `compute_root_inner` (`proof.rs` lines 147–205): the reconstructed root, and
the cache after the walk when one is given. -/
def computeRootInner (H : SmtHasher) (bitmap : Vector UInt8 32) (siblings : List Hash)
    (terminal : ProofTerminal) (key : Hash) (leafHash : Option Hash)
    (cache : Option ProofBranchCache) : Except SmtProofError (Hash × Option ProofBranchCache) :=
  let expected := bitmapClearCountBefore bitmap terminal
  if siblings.length ≠ expected then .error (.siblingCountMismatch expected siblings.length)
  else
    .ok (rootLoop H bitmap siblings key terminal.depth (seedHash H terminal key leafHash)
      siblings.length cache)

theorem computeRootInner_of_count {H : SmtHasher} {bitmap : Vector UInt8 32} {siblings : List Hash}
    {terminal : ProofTerminal} {key : Hash} {leafHash : Option Hash} {cache : Option ProofBranchCache}
    (h : siblings.length = bitmapClearCountBefore bitmap terminal) :
    computeRootInner H bitmap siblings terminal key leafHash cache =
      .ok (rootLoop H bitmap siblings key terminal.depth (seedHash H terminal key leafHash)
        siblings.length cache) := by
  simp [computeRootInner, h]

/-- `SmtProof::compute_root` (`proof.rs` lines 224–226). -/
def OwnedSmtProof.computeRoot (p : OwnedSmtProof) (H : SmtHasher) (key : Hash)
    (leafHash : Option Hash) : Except SmtProofError Hash :=
  (computeRootInner H p.bitmap p.siblings p.terminal key leafHash none).map Prod.fst

/-- `SmtProof::verify` (`proof.rs` lines 231–233). -/
def OwnedSmtProof.verify (p : OwnedSmtProof) (H : SmtHasher) (key : Hash)
    (leafHash : Option Hash) (root : Hash) : Except SmtProofError Bool :=
  (p.computeRoot H key leafHash).map (· == root)

/-- `SmtProof::verify_cached` (`proof.rs` lines 240–250): the result, and the
cache as the call leaves it (untouched when the sibling count is wrong). -/
def OwnedSmtProof.verifyCached (p : OwnedSmtProof) (H : SmtHasher) (key : Hash)
    (leafHash : Option Hash) (root : Hash) (cache : ProofBranchCache) :
    Except SmtProofError Bool × ProofBranchCache :=
  match computeRootInner H p.bitmap p.siblings p.terminal key leafHash (some cache) with
  | .error e => (.error e, cache)
  | .ok (computed, newCache) => (.ok (computed == root), newCache.getD cache)

/-! ## The uncached verifier is a Merkle path -/

/-- The number of present siblings at the levels above `d`. -/
def clearCount (bitmap : Vector UInt8 32) (d : Nat) : Nat :=
  ((List.range d).filter (fun d => !isEmptyAtDepth bitmap d)).length

/-- The sibling the verifier uses at level `d`. -/
def siblingAt (H : SmtHasher) (bitmap : Vector UInt8 32) (siblings : List Hash) (d : Nat) : Hash :=
  if isEmptyAtDepth bitmap d then H.EMPTY_HASHES (DEPTH - 1 - d)
  else siblings.getD (clearCount bitmap d) ZERO_HASH

theorem clearCount_succ (bitmap : Vector UInt8 32) (d : Nat) :
    clearCount bitmap (d + 1) =
      clearCount bitmap d + if isEmptyAtDepth bitmap d then 0 else 1 := by
  unfold clearCount
  rw [List.range_succ, List.filter_append]
  cases h : isEmptyAtDepth bitmap d <;> simp [h]

theorem bitmapClearCountBefore_eq (bitmap : Vector UInt8 32) (terminal : ProofTerminal) :
    bitmapClearCountBefore bitmap terminal = clearCount bitmap terminal.depth := rfl

/-- Without a cache, the loop climbs the Merkle path of `key`, consuming one
sibling per present level. -/
theorem rootLoop_none (H : SmtHasher) (bitmap : Vector UInt8 32) (siblings : List Hash) (key : Hash) :
    ∀ d current, rootLoop H bitmap siblings key d current (clearCount bitmap d) none =
      (MerklePath.climb H.hashNode (bitAt key) (siblingAt H bitmap siblings) d 0 current, none) := by
  intro d
  induction d with
  | zero => intro current; rfl
  | succ d ih =>
    intro current
    rw [MerklePath.climb_succ_bottom, Nat.zero_add, ← ih, rootLoop_succ]
    -- the sibling comes from the bitmap or from the back of `siblings`
    have hsib : levelSibling H bitmap siblings d (clearCount bitmap (d + 1)) =
        (siblingAt H bitmap siblings d, clearCount bitmap d) := by
      unfold levelSibling siblingAt
      cases he : isEmptyAtDepth bitmap d
      · have hc : clearCount bitmap (d + 1) - 1 = clearCount bitmap d := by
          rw [clearCount_succ, he]; simp
        simp [hc]
      · have hc : clearCount bitmap (d + 1) = clearCount bitmap d := by
          rw [clearCount_succ, he]; simp
        simp [hc]
    rw [hsib, MerklePath.step_eq_inputs]
    rfl

/-- A proof that passes the sibling count check computes the Merkle path of the
queried key from its seed. -/
theorem computeRoot_eq_climb (H : SmtHasher) (p : OwnedSmtProof) (key : Hash) (leafHash : Option Hash)
    (hcount : p.siblings.length = bitmapClearCountBefore p.bitmap p.terminal) :
    p.computeRoot H key leafHash =
      .ok (MerklePath.climb H.hashNode (bitAt key) (siblingAt H p.bitmap p.siblings)
        p.terminal.depth 0 (seedHash H p.terminal key leafHash)) := by
  simp only [OwnedSmtProof.computeRoot, computeRootInner, hcount, ne_eq, not_true_eq_false,
    if_false]
  rw [bitmapClearCountBefore_eq, rootLoop_none]
  rfl

/-- `verify` succeeds only on proofs that pass the sibling count check. -/
theorem count_of_verify {H : SmtHasher} {p : OwnedSmtProof} {key : Hash} {leafHash : Option Hash}
    {root : Hash} {b : Bool} (h : p.verify H key leafHash root = .ok b) :
    p.siblings.length = bitmapClearCountBefore p.bitmap p.terminal := by
  by_contra hne
  simp [OwnedSmtProof.verify, OwnedSmtProof.computeRoot, computeRootInner, hne] at h
  cases h

/-! ## A two-leaf tree -/

/-- A stand-in hasher for evaluating the verifier on concrete proofs; any pair
of injective hashers behaves the same way on the inputs used with it. -/
def toyHasher : SmtHasher :=
  ⟨fun a b => a * 3#256 + b * 5#256 + 1#256, fun a b => a * 7#256 + b * 11#256 + 2#256⟩

/-- The proof `prove` returns for either key of the tree `{0 ↦ 1, 2²⁵⁵ ↦ 2}`:
the keys split at the root, so the sibling at depth 0 is the other key's
collapsed leaf, every deeper level is empty (bits 1–255 set), and the proof
stops at the collapsed node at depth 1. -/
def twoLeafProof (sibling : Hash) : OwnedSmtProof :=
  ⟨⟨#[0xFE, 0xFF, 0xFF, 0xFF, 0xFF, 0xFF, 0xFF, 0xFF, 0xFF, 0xFF, 0xFF, 0xFF, 0xFF, 0xFF, 0xFF,
      0xFF, 0xFF, 0xFF, 0xFF, 0xFF, 0xFF, 0xFF, 0xFF, 0xFF, 0xFF, 0xFF, 0xFF, 0xFF, 0xFF, 0xFF,
      0xFF, 0xFF], rfl⟩,
    [sibling], .collapsed 1⟩

/-- The root of the tree `{0 ↦ 1, 2²⁵⁵ ↦ 2}` under `toyHasher`. -/
def twoLeafRoot : Hash :=
  toyHasher.hashNode (toyHasher.collapsedHashNode 0#256 1#256)
    (toyHasher.collapsedHashNode (BitVec.twoPow 256 255) 2#256)

end RustyKaspa.Smt
