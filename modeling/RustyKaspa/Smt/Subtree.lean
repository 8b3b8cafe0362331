import RustyKaspa.Smt.SparseMerkleTree

/-!
# `compute_subtree` along one path

How `compute_subtree` acts on a batch whose keys share their path: it writes
only at the branch keys of that path, and reads the rest of the tree only at the
siblings of the path. A single nonzero update on a path with empty siblings
comes up as its collapsed leaf whatever internal nodes the path held; at the
leaf-parent level its sibling is read from the batch alone, so a stored sibling
leaf there is not seen.

Results:
* `computeSubtree_single`: a lone nonzero update on a path with empty siblings
  gives its collapsed leaf, recorded at the top of the path, and writes nothing
  off the path.
* `computeSubtree_pair`: two leaves splitting only at the last bit, on an empty
  path, give an internal node at every level of the path.
* `reinsert_drops_sibling`: inserting `a`, its last-bit sibling `b`, then `a`
  again leaves a root that commits to `a` alone while `b` stays in the leaf
  map, for every hasher; `b`'s proof then verifies only on a collision.
-/

namespace RustyKaspa.Smt

/-! ## Paths and their siblings -/

/-- The position of the sibling of the subtree of `key` at depth `d + 1`: the
other child of its parent at depth `d`. -/
def siblingKey (d : Nat) (key : Hash) : BranchKey :=
  childBranchKey (BranchKey.new d key) (!bitAt key d) d

theorem BranchKey.new_ne_of_depth_ne {d e : Nat} (key key' : Hash) (h : d ≠ e) :
    BranchKey.new d key ≠ BranchKey.new e key' :=
  fun heq => h (congrArg BranchKey.depth heq)

theorem siblingKey_ne_new {d : Nat} (hd : d < 256) (key : Hash) (e : Nat) :
    siblingKey d key ≠ BranchKey.new e key := by
  intro heq
  have hdepth : d + 1 = e := congrArg BranchKey.depth heq
  subst hdepth
  rw [← childBranchKey_new hd] at heq
  have hp : (BranchKey.new d key).nodeKey.getMsbD d = false := by
    rw [BranchKey.getMsbD_new (by omega)]
    simp
  unfold siblingKey at heq
  cases hb : bitAt key d
  · simp only [hb, Bool.not_false] at heq
    exact childBranchKey_ne _ hd hp heq.symm
  · simp only [hb, Bool.not_true] at heq
    exact childBranchKey_ne _ hd hp heq

/-! ## The change map -/

section Changes

variable {store : BranchKey → Option Node} {changes : SmtNodeChanges} {bk k : BranchKey}

theorem readNode_insert_self (node : Option Node) :
    readNode store (changes.insert bk node) bk = node := by
  simp [readNode, SmtNodeChanges.insert]

theorem insert_apply_ne (node : Option Node) (h : k ≠ bk) : changes.insert bk node k = changes k := by
  simp [SmtNodeChanges.insert, h]

theorem readNode_recordChange_self {existing newNode : Option Node}
    (h : readNode store changes bk = existing) :
    readNode store (recordChange changes bk existing newNode) bk = newNode := by
  unfold recordChange
  split_ifs with hne
  · exact readNode_insert_self newNode
  · rw [← not_not.mp hne, h]

theorem recordChange_apply_ne {existing newNode : Option Node} (h : k ≠ bk) :
    recordChange changes bk existing newNode k = changes k := by
  unfold recordChange
  split_ifs
  · exact insert_apply_ne newNode h
  · rfl

theorem readNode_congr {changes' : SmtNodeChanges} (h : changes' bk = changes bk) :
    readNode store changes' bk = readNode store changes bk := by
  simp [readNode, h]

theorem readSiblingResult_of_none {parent : BranchKey} {right : Bool} {depth : Nat}
    (h : readNode store changes (childBranchKey parent right depth) = none) :
    readSiblingResult store changes parent right depth = .empty := by
  simp [readSiblingResult, h]

/-- The sibling of a path, read where it is empty. -/
theorem readSiblingResult_siblingKey {d : Nat} {key : Hash}
    (h : readNode store changes (siblingKey d key) = none) :
    readSiblingResult store changes (BranchKey.new d key) (!bitAt key d) d = .empty :=
  readSiblingResult_of_none h

end Changes

/-! ## One update -/

theorem partitionByBit_single (u : LeafUpdate) (d : Nat) :
    partitionByBit [u] d = if bitAt u.key d then ([], [u]) else ([u], []) := by
  cases h : bitAt u.key d <;> simp [partitionByBit, partitionPoint, h]

theorem firstWithBit_single (u : LeafUpdate) (d : Nat) (right : Bool) :
    firstWithBit [u] d right = if bitAt u.key d = right then some u else none := by
  cases h : bitAt u.key d <;> cases right <;> simp [firstWithBit, partitionByBit, partitionPoint, h]

/-- Beside the path of `key` from depth `d` on, the tree holds nothing, and no
leaf but `key`'s own sits on the path. -/
structure LonePath (store : BranchKey → Option Node) (changes : SmtNodeChanges) (key : Hash)
    (d : Nat) : Prop where
  sibling : ∀ e, d ≤ e → e < DEPTH - 1 → readNode store changes (siblingKey e key) = none
  leaf : ∀ e cl, d ≤ e → e < DEPTH →
    readNode store changes (BranchKey.new e key) = some (.collapsed cl) → cl.laneKey = key

theorem LonePath.mono {store : BranchKey → Option Node} {changes : SmtNodeChanges} {key : Hash}
    {d d' : Nat} (h : LonePath store changes key d) (hdd' : d ≤ d') :
    LonePath store changes key d' :=
  ⟨fun e he => h.sibling e (le_trans hdd' he), fun e cl he => h.leaf e cl (le_trans hdd' he)⟩

section Single

variable (H : SmtHasher) (store : BranchKey → Option Node) {u : LeafUpdate}

/-- Into an empty position the update lands as a collapsed leaf at once. -/
theorem computeSubtree_single_of_none (hu : u.leafHash ≠ ZERO_HASH) {n : Nat}
    {changes : SmtNodeChanges} (hex : readNode store changes (BranchKey.new (DEPTH - 1 - n) u.key) = none) :
    computeSubtree H store n changes [u] =
      (.collapsed ⟨u.key, u.leafHash⟩,
        changes.insert (BranchKey.new (DEPTH - 1 - n) u.key) (some (.collapsed ⟨u.key, u.leafHash⟩))) := by
  rw [computeSubtree]
  simp [hex, hu, recordChange]

/-- On its own collapsed leaf the update replaces it. -/
theorem computeSubtree_single_of_self (hu : u.leafHash ≠ ZERO_HASH) {n : Nat}
    {changes : SmtNodeChanges} {cl : CollapsedLeaf}
    (hex : readNode store changes (BranchKey.new (DEPTH - 1 - n) u.key) = some (.collapsed cl))
    (hcl : cl.laneKey = u.key) :
    computeSubtree H store n changes [u] =
      (.collapsed ⟨u.key, u.leafHash⟩,
        recordChange changes (BranchKey.new (DEPTH - 1 - n) u.key) (some (.collapsed cl))
          (some (.collapsed ⟨u.key, u.leafHash⟩))) := by
  rw [computeSubtree]
  simp [hex, hcl, hu, collapsedKey, leafResult]

/-- At the leaf-parent level both children are read from the batch alone: the
update's side gets its leaf and the other side is empty, whatever the store
holds there. -/
theorem computeSubtree_single_leafParent (hu : u.leafHash ≠ ZERO_HASH) {changes : SmtNodeChanges}
    {h : Hash} (hex : readNode store changes (BranchKey.new (DEPTH - 1 - 0) u.key) = some (.internal h)) :
    computeSubtree H store 0 changes [u] =
      (.collapsed ⟨u.key, u.leafHash⟩,
        recordChange changes (BranchKey.new (DEPTH - 1 - 0) u.key) (some (.internal h))
          (some (.collapsed ⟨u.key, u.leafHash⟩))) := by
  rw [computeSubtree]
  rw [Nat.sub_zero] at hex ⊢
  cases hb : bitAt u.key (DEPTH - 1) <;>
    simp [hex, hb, hu, collapsedKey, expandSingleton, firstWithBit_single, leafResult, mergedNode,
      NodeResult.toNode]

/-- Above the leaf-parent level, below an internal node, the update's side is
computed and the sibling read; an empty sibling lets the collapsed leaf move up,
and its old position is tombstoned. -/
theorem computeSubtree_single_internal {m : Nat} {changes c1 : SmtNodeChanges} {h : Hash}
    (hex : readNode store changes (BranchKey.new (DEPTH - 1 - (m + 1)) u.key) = some (.internal h))
    (hc1 : computeSubtree H store m changes [u] = (.collapsed ⟨u.key, u.leafHash⟩, c1))
    (hsib : readNode store changes (siblingKey (DEPTH - 1 - (m + 1)) u.key) = none)
    (hsib1 : readNode store c1 (siblingKey (DEPTH - 1 - (m + 1)) u.key) = none) :
    computeSubtree H store (m + 1) changes [u] =
      (.collapsed ⟨u.key, u.leafHash⟩,
        recordChange (c1.insert (BranchKey.new (DEPTH - 1 - (m + 1) + 1) u.key) none)
          (BranchKey.new (DEPTH - 1 - (m + 1)) u.key) (some (.internal h))
          (some (.collapsed ⟨u.key, u.leafHash⟩))) := by
  have hd : DEPTH - 1 - (m + 1) < 256 := by unfold DEPTH; omega
  -- the tombstone sits one level down on the path
  have htomb := @childBranchKey_new _ u.key hd
  rw [computeSubtree]
  cases hb : bitAt u.key (DEPTH - 1 - (m + 1))
  · have hsib1' := readSiblingResult_siblingKey hsib1
    rw [hb, Bool.not_false] at hsib1'
    rw [hb] at htomb
    simp [hex, hb, hc1, hsib1', htomb, collapsedKey, expandSingleton, partitionByBit_single,
      mergedNode, promotionTombstone, NodeResult.toNode]
  · have hsib' := readSiblingResult_siblingKey hsib
    rw [hb, Bool.not_true] at hsib'
    rw [hb] at htomb
    simp [hex, hb, hc1, hsib', htomb, collapsedKey, expandSingleton, partitionByBit_single,
      mergedNode, promotionTombstone, NodeResult.toNode]

/-- The keys `computeSubtree` may write below depth `d` for a batch of `key`:
those of the path of `key` from depth `d` on. -/
def OffPath (key : Hash) (d : Nat) (bk : BranchKey) : Prop :=
  ∀ e, d ≤ e → bk ≠ BranchKey.new e key

theorem OffPath.mono {key : Hash} {d d' : Nat} {bk : BranchKey} (h : OffPath key d bk)
    (hdd' : d ≤ d') : OffPath key d' bk :=
  fun e he => h e (le_trans hdd' he)

theorem offPath_siblingKey {e : Nat} (he : e < DEPTH) (key : Hash) (d : Nat) :
    OffPath key d (siblingKey e key) :=
  fun e' _ => siblingKey_ne_new (by unfold DEPTH at he; omega) key e'

/-- A change map that agrees with `changes` off the path reads as it there. -/
theorem readNode_offPath {key : Hash} {d : Nat} {changes c1 : SmtNodeChanges}
    (hframe : ∀ bk, OffPath key d bk → c1 bk = changes bk) {bk : BranchKey} (hbk : OffPath key d bk) :
    readNode store c1 bk = readNode store changes bk :=
  readNode_congr (hframe bk hbk)

/-- Where the path holds no node or the update's own leaf, the update lands at
once: the first two branches of `compute_subtree`, at any level. -/
theorem computeSubtree_single_of_leaf (hu : u.leafHash ≠ ZERO_HASH) {n : Nat}
    {changes : SmtNodeChanges} (hn : n < DEPTH) (hlone : LonePath store changes u.key (DEPTH - 1 - n))
    (hex : ∀ h, readNode store changes (BranchKey.new (DEPTH - 1 - n) u.key) ≠ some (.internal h)) :
    ∃ changes', computeSubtree H store n changes [u] = (.collapsed ⟨u.key, u.leafHash⟩, changes') ∧
      readNode store changes' (BranchKey.new (DEPTH - 1 - n) u.key) =
        some (.collapsed ⟨u.key, u.leafHash⟩) ∧
      ∀ bk, OffPath u.key (DEPTH - 1 - n) bk → changes' bk = changes bk := by
  cases hnode : readNode store changes (BranchKey.new (DEPTH - 1 - n) u.key) with
  | none =>
    refine ⟨_, computeSubtree_single_of_none H store hu hnode, readNode_insert_self _, ?_⟩
    intro bk hbk
    exact insert_apply_ne _ (hbk _ le_rfl)
  | some node =>
    cases node with
    | internal h => exact absurd hnode (hex h)
    | collapsed cl =>
      have hcl := hlone.leaf _ cl le_rfl (by unfold DEPTH at hn ⊢; omega) hnode
      refine ⟨_, computeSubtree_single_of_self H store hu hnode hcl, readNode_recordChange_self hnode, ?_⟩
      intro bk hbk
      exact recordChange_apply_ne (hbk _ le_rfl)

/-- A lone nonzero update on a path with empty siblings comes up as its
collapsed leaf, recorded at the top of the path, and nothing off the path is
written. By induction on the levels left; the internal nodes met on the way are
replaced by the leaf one level at a time. -/
theorem computeSubtree_single (hu : u.leafHash ≠ ZERO_HASH) :
    ∀ (n : Nat) (changes : SmtNodeChanges), n < DEPTH →
      LonePath store changes u.key (DEPTH - 1 - n) →
      ∃ changes', computeSubtree H store n changes [u] = (.collapsed ⟨u.key, u.leafHash⟩, changes') ∧
        readNode store changes' (BranchKey.new (DEPTH - 1 - n) u.key) =
          some (.collapsed ⟨u.key, u.leafHash⟩) ∧
        ∀ bk, OffPath u.key (DEPTH - 1 - n) bk → changes' bk = changes bk := by
  intro n
  induction n with
  | zero =>
    intro changes hn hlone
    -- only an internal node takes the leaf-parent branch
    by_cases hint :
        ∃ h, readNode store changes (BranchKey.new (DEPTH - 1 - 0) u.key) = some (.internal h)
    · obtain ⟨h, hex⟩ := hint
      refine ⟨_, computeSubtree_single_leafParent H store hu hex, readNode_recordChange_self hex, ?_⟩
      intro bk hbk
      exact recordChange_apply_ne (hbk _ le_rfl)
    · exact computeSubtree_single_of_leaf H store hu hn hlone fun h hex => hint ⟨h, hex⟩
  | succ m ih =>
    intro changes hm hlone
    by_cases hint :
        ∃ h, readNode store changes (BranchKey.new (DEPTH - 1 - (m + 1)) u.key) = some (.internal h)
    · obtain ⟨h, hex⟩ := hint
      -- the update's side first, one level down
      obtain ⟨c1, hc1, -, hframe⟩ :=
        ih changes (by omega) (hlone.mono (by omega))
      have hsib := hlone.sibling _ le_rfl (by omega)
      have hsib1 : readNode store c1 (siblingKey (DEPTH - 1 - (m + 1)) u.key) = none := by
        rw [readNode_offPath store hframe (offPath_siblingKey (by omega) _ _)]
        exact hsib
      -- the top of the path reads as it did before the recursive call
      have htop : readNode store (c1.insert (BranchKey.new (DEPTH - 1 - (m + 1) + 1) u.key) none)
          (BranchKey.new (DEPTH - 1 - (m + 1)) u.key) = some (.internal h) := by
        rw [readNode_congr (insert_apply_ne _ (BranchKey.new_ne_of_depth_ne _ _ (by omega))),
          readNode_congr (hframe _ fun e he => BranchKey.new_ne_of_depth_ne _ _ (by omega))]
        exact hex
      refine ⟨_, computeSubtree_single_internal H store hex hc1 hsib hsib1,
        readNode_recordChange_self htop, ?_⟩
      intro bk hbk
      rw [recordChange_apply_ne (hbk _ le_rfl), insert_apply_ne _ (hbk _ (by omega))]
      exact hframe bk (hbk.mono (by omega))
    · exact computeSubtree_single_of_leaf H store hu hm hlone fun h hex => hint ⟨h, hex⟩

end Single

/-! ## Two leaves that split at the leaf-parent level -/

/-- Two nonzero updates whose keys differ only in the last bit, `a` on the
left. -/
structure LastBitPair (a b : LeafUpdate) : Prop where
  shared : ∀ i < DEPTH - 1, bitAt a.key i = bitAt b.key i
  left : bitAt a.key (DEPTH - 1) = false
  right : bitAt b.key (DEPTH - 1) = true
  leftHash : a.leafHash ≠ ZERO_HASH
  rightHash : b.leafHash ≠ ZERO_HASH

/-- Keys that agree above the last bit and differ in it are ordered by it. -/
theorem lt_of_lastBit {x y : Hash} (h : ∀ i < DEPTH - 1, bitAt x i = bitAt y i)
    (hx : bitAt x (DEPTH - 1) = false) (hy : bitAt y (DEPTH - 1) = true) : x < y := by
  -- both keys halve to the same number; the last bit is the parity
  have hshift : x >>> 1 = y >>> 1 := by
    apply BitVec.eq_of_getMsbD_eq
    intro i hi
    simp only [BitVec.getMsbD_ushiftRight]
    by_cases h1 : i < 1
    · simp [h1]
    · simp only [h1, decide_false, Bool.not_false, Bool.true_and]
      rw [show x.getMsbD (i - 1) = y.getMsbD (i - 1) from h (i - 1) (by unfold DEPTH; omega)]
  have hq : x.toNat / 2 = y.toNat / 2 := by
    have := congrArg BitVec.toNat hshift
    simpa [BitVec.toNat_ushiftRight, Nat.shiftRight_eq_div_pow] using this
  have hx0 : x.toNat % 2 = 0 := by
    have : x.getLsbD 0 = false := by rw [BitVec.getLsbD_eq_getMsbD]; simpa [bitAt, DEPTH] using hx
    simpa [BitVec.getLsbD, Nat.testBit, Nat.shiftRight_zero] using this
  have hy1 : y.toNat % 2 = 1 := by
    have : y.getLsbD 0 = true := by rw [BitVec.getLsbD_eq_getMsbD]; simpa [bitAt, DEPTH] using hy
    simpa [BitVec.getLsbD, Nat.testBit, Nat.shiftRight_zero] using this
  rw [BitVec.lt_def]
  omega

namespace LastBitPair

variable {a b : LeafUpdate}

theorem key_ne (hp : LastBitPair a b) : a.key ≠ b.key := by
  intro h
  have := hp.right
  rw [← h, hp.left] at this
  exact Bool.false_ne_true this

/-- Above the leaf-parent level the two keys name the same subtree. -/
theorem new_eq (hp : LastBitPair a b) {d : Nat} (hd : d < DEPTH) :
    BranchKey.new d b.key = BranchKey.new d a.key := by
  rw [BranchKey.new_eq_new_iff (by unfold DEPTH at hd; omega)]
  intro i hi
  exact (hp.shared i (by omega)).symm

theorem partitionByBit_eq (hp : LastBitPair a b) {d : Nat} (hd : d < DEPTH - 1) :
    partitionByBit [a, b] d = if bitAt a.key d then ([], [a, b]) else ([a, b], []) := by
  have hs := hp.shared d hd
  cases h : bitAt a.key d <;> simp [partitionByBit, partitionPoint, h, ← hs]

theorem firstWithBit_eq (hp : LastBitPair a b) (right : Bool) :
    firstWithBit [a, b] (DEPTH - 1) right = some (if right then b else a) := by
  cases right <;> simp [firstWithBit, partitionByBit, partitionPoint, hp.left, hp.right]

/-- The lone update `b` expands the stored leaf of `a` into the batch `[a, b]`. -/
theorem expandSingleton_eq (hp : LastBitPair a b) :
    expandSingleton (some (.collapsed ⟨a.key, a.leafHash⟩)) [b] = (none, [a, b]) := by
  have hnlt : ¬ b.key < a.key := by
    rw [BitVec.lt_def]
    have := BitVec.lt_def.mp (lt_of_lastBit hp.shared hp.left hp.right)
    omega
  simp [expandSingleton, binarySearchByKey, hp.key_ne.symm, hnlt]

end LastBitPair

/-- The path of `key` from depth `d` on holds no node, and its siblings are
empty. -/
structure EmptyPath (store : BranchKey → Option Node) (changes : SmtNodeChanges) (key : Hash)
    (d : Nat) : Prop where
  sibling : ∀ e, d ≤ e → e < DEPTH - 1 → readNode store changes (siblingKey e key) = none
  node : ∀ e, d ≤ e → e < DEPTH → readNode store changes (BranchKey.new e key) = none

theorem EmptyPath.mono {store : BranchKey → Option Node} {changes : SmtNodeChanges} {key : Hash}
    {d d' : Nat} (h : EmptyPath store changes key d) (hdd' : d ≤ d') :
    EmptyPath store changes key d' :=
  ⟨fun e he => h.sibling e (le_trans hdd' he), fun e he => h.node e (le_trans hdd' he)⟩

/-- Every node on the path of `key` from depth `d` on is internal. -/
def InternalPath (nodes : BranchKey → Option Node) (key : Hash) (d : Nat) : Prop :=
  ∀ e, d ≤ e → e < DEPTH → ∃ h, nodes (BranchKey.new e key) = some (.internal h)

section Pair

variable (H : SmtHasher) (store : BranchKey → Option Node) {a b : LeafUpdate}

/-- At the leaf-parent level the pair becomes an internal node over its two
collapsed leaves. -/
theorem computeSubtree_pair_leafParent (hp : LastBitPair a b) {changes : SmtNodeChanges}
    (hex : readNode store changes (BranchKey.new (DEPTH - 1 - 0) a.key) = none) :
    ∃ h, computeSubtree H store 0 changes [a, b] =
      (.internal h, changes.insert (BranchKey.new (DEPTH - 1 - 0) a.key) (some (.internal h))) := by
  rw [computeSubtree]
  rw [Nat.sub_zero] at hex ⊢
  simp [hex, expandSingleton, hp.firstWithBit_eq, leafResult, hp.leftHash, hp.rightHash, mergedNode,
    NodeResult.toNode, recordChange]

/-- The parent of the pair's subtree, over an empty sibling: an internal node
again, written where nothing was. -/
theorem computeSubtree_pair_internal (hp : LastBitPair a b) {m : Nat} {changes c1 : SmtNodeChanges}
    {h : Hash} (hex : readNode store changes (BranchKey.new (DEPTH - 1 - (m + 1)) a.key) = none)
    (hc1 : computeSubtree H store m changes [a, b] = (.internal h, c1))
    (hsib : readNode store changes (siblingKey (DEPTH - 1 - (m + 1)) a.key) = none)
    (hsib1 : readNode store c1 (siblingKey (DEPTH - 1 - (m + 1)) a.key) = none) :
    ∃ h', computeSubtree H store (m + 1) changes [a, b] =
      (.internal h', c1.insert (BranchKey.new (DEPTH - 1 - (m + 1)) a.key) (some (.internal h'))) := by
  have hd : DEPTH - 1 - (m + 1) < DEPTH - 1 := by unfold DEPTH; omega
  rw [computeSubtree]
  cases hbit : bitAt a.key (DEPTH - 1 - (m + 1))
  · have hsib1' := readSiblingResult_siblingKey hsib1
    rw [hbit, Bool.not_false] at hsib1'
    simp [hex, hc1, hsib1', hp.partitionByBit_eq hd, hbit, expandSingleton, mergedNode,
      promotionTombstone, NodeResult.toNode, recordChange]
  · have hsib' := readSiblingResult_siblingKey hsib
    rw [hbit, Bool.not_true] at hsib'
    simp [hex, hc1, hsib', hp.partitionByBit_eq hd, hbit, expandSingleton, mergedNode,
      promotionTombstone, NodeResult.toNode, recordChange]

/-- The lone update `b` on the collapsed leaf of `a`: the leaf joins the batch
and the pair goes down one side; the top becomes an internal node. -/
theorem computeSubtree_expand (hp : LastBitPair a b) {m : Nat} {changes c1 : SmtNodeChanges}
    {h : Hash}
    (hex : readNode store changes (BranchKey.new (DEPTH - 1 - (m + 1)) a.key) =
      some (.collapsed ⟨a.key, a.leafHash⟩))
    (hc1 : computeSubtree H store m changes [a, b] = (.internal h, c1))
    (hsib : readNode store changes (siblingKey (DEPTH - 1 - (m + 1)) a.key) = none)
    (hsib1 : readNode store c1 (siblingKey (DEPTH - 1 - (m + 1)) a.key) = none) :
    ∃ h', computeSubtree H store (m + 1) changes [b] =
      (.internal h', c1.insert (BranchKey.new (DEPTH - 1 - (m + 1)) a.key) (some (.internal h'))) := by
  have hd : DEPTH - 1 - (m + 1) < DEPTH - 1 := by unfold DEPTH; omega
  rw [computeSubtree]
  -- the batch of `b` names the subtree of `a`
  rw [hp.new_eq (by omega)]
  cases hbit : bitAt a.key (DEPTH - 1 - (m + 1))
  · have hsib1' := readSiblingResult_siblingKey hsib1
    rw [hbit, Bool.not_false] at hsib1'
    simp [hex, hc1, hsib1', hp.partitionByBit_eq hd, hbit, hp.expandSingleton_eq, collapsedKey,
      hp.key_ne, mergedNode, promotionTombstone, NodeResult.toNode, recordChange]
  · have hsib' := readSiblingResult_siblingKey hsib
    rw [hbit, Bool.not_true] at hsib'
    simp [hex, hc1, hsib', hp.partitionByBit_eq hd, hbit, hp.expandSingleton_eq, collapsedKey,
      hp.key_ne, mergedNode, promotionTombstone, NodeResult.toNode, recordChange]

/-- The pair on an empty path comes up as an internal node, with an internal
node written at every level of the path and nothing off it. By induction on the
levels left. -/
theorem computeSubtree_pair (hp : LastBitPair a b) :
    ∀ (n : Nat) (changes : SmtNodeChanges), n < DEPTH →
      EmptyPath store changes a.key (DEPTH - 1 - n) →
      ∃ h changes', computeSubtree H store n changes [a, b] = (.internal h, changes') ∧
        InternalPath (readNode store changes') a.key (DEPTH - 1 - n) ∧
        ∀ bk, OffPath a.key (DEPTH - 1 - n) bk → changes' bk = changes bk := by
  intro n
  induction n with
  | zero =>
    intro changes _ hempty
    obtain ⟨h, hc⟩ :=
      computeSubtree_pair_leafParent H store hp (hempty.node _ le_rfl (by unfold DEPTH; omega))
    refine ⟨h, _, hc, ?_, fun bk hbk => insert_apply_ne _ (hbk _ le_rfl)⟩
    -- the leaf-parent level is the whole path
    intro e he he'
    obtain rfl : e = DEPTH - 1 - 0 := by omega
    exact ⟨h, readNode_insert_self _⟩
  | succ m ih =>
    intro changes hm hempty
    obtain ⟨h, c1, hc1, hpath, hframe⟩ := ih changes (by omega) (hempty.mono (by omega))
    have hsib := hempty.sibling _ le_rfl (by omega)
    have hsib1 : readNode store c1 (siblingKey (DEPTH - 1 - (m + 1)) a.key) = none := by
      rw [readNode_offPath store hframe (offPath_siblingKey (by omega) _ _)]
      exact hsib
    obtain ⟨h', hc⟩ :=
      computeSubtree_pair_internal H store hp (hempty.node _ le_rfl (by omega)) hc1 hsib hsib1
    refine ⟨h', _, hc, ?_, ?_⟩
    · intro e he he'
      rcases Nat.eq_or_lt_of_le he with rfl | hlt
      · exact ⟨h', readNode_insert_self _⟩
      · rw [readNode_congr (insert_apply_ne _ (BranchKey.new_ne_of_depth_ne _ _ (by omega)))]
        exact hpath e (by omega) he'
    · intro bk hbk
      rw [insert_apply_ne _ (hbk _ le_rfl)]
      exact hframe bk (hbk.mono (by omega))

end Pair

/-! ## `insert` through `compute_subtree` -/

section Insert

variable {H : SmtHasher}

theorem SparseMerkleTree.insert_nodes (t : SparseMerkleTree H) (key v : Hash) :
    (t.insert key v).store.nodes =
      readNode t.store.nodes
        (computeSubtree H t.store.nodes (DEPTH - 1) SmtNodeChanges.empty [⟨key, v⟩]).2 := by
  simp only [SparseMerkleTree.insert, computeRootUpdate, computeRootUpdateInto, SortedLeafUpdates.single,
    BTreeSmtStore.insertNodes, BTreeSmtStore.insertLeaf, reduceCtorEq, if_false, applyChanges]
  generalize computeSubtree H t.store.nodes (DEPTH - 1) SmtNodeChanges.empty [⟨key, v⟩] = res
  obtain ⟨r, c⟩ := res
  cases r <;> rfl

theorem SparseMerkleTree.insert_root_of_collapsed {t : SparseMerkleTree H} {key v : Hash}
    {cl : CollapsedLeaf}
    (h : (computeSubtree H t.store.nodes (DEPTH - 1) SmtNodeChanges.empty [⟨key, v⟩]).1 = .collapsed cl) :
    (t.insert key v).root = H.collapsedHashNode cl.laneKey cl.leafHash := by
  simp only [SparseMerkleTree.insert, computeRootUpdate, computeRootUpdateInto, SortedLeafUpdates.single,
    BTreeSmtStore.insertLeaf, reduceCtorEq, if_false]
  revert h
  generalize computeSubtree H t.store.nodes (DEPTH - 1) SmtNodeChanges.empty [⟨key, v⟩] = res
  obtain ⟨r, c⟩ := res
  rintro rfl
  rfl

theorem SparseMerkleTree.get_insert (t : SparseMerkleTree H) (key v k : Hash) :
    (t.insert key v).get k = if k = key then (if v = ZERO_HASH then none else some v) else t.get k := by
  simp only [SparseMerkleTree.insert, SparseMerkleTree.get]
  generalize computeRootUpdate H _ t.root _ = res
  rfl

end Insert

/-! ## A leaf dropped at the leaf-parent level

Insert `a`, then `b`, whose key differs from `a`'s only in the last bit, then
`a` again. The third batch reaches the internal node at depth 255 holding only
`a`'s key; the leaf-parent branch of `compute_subtree` reads both children from
the batch, so `b`'s side comes up empty and `a`'s new leaf is promoted to the
root. `b` stays in the leaf map, and its proof no longer verifies. -/

section Dropped

variable {H : SmtHasher} {a b : LeafUpdate}

theorem readNode_empty (store : BranchKey → Option Node) (bk : BranchKey) :
    readNode store SmtNodeChanges.empty bk = store bk :=
  rfl

/-- The first insert into the empty tree leaves one collapsed leaf at the root
position. -/
theorem new_insert_nodes {key v : Hash} (hv : v ≠ ZERO_HASH) (bk : BranchKey) :
    ((SparseMerkleTree.new H).insert key v).store.nodes bk =
      if bk = BranchKey.new 0 key then some (.collapsed ⟨key, v⟩) else none := by
  rw [SparseMerkleTree.insert_nodes, computeSubtree_single_of_none H _ (u := ⟨key, v⟩) hv rfl,
    Nat.sub_self]
  by_cases h : bk = BranchKey.new 0 key
  · rw [if_pos h, h]
    exact readNode_insert_self _
  · rw [readNode_congr (insert_apply_ne _ h), if_neg h]
    rfl

/-- The second insert, of `a`'s last-bit sibling: an internal node at every
level of the shared path, and nothing off it. -/
theorem insert_sibling_nodes (hp : LastBitPair a b) :
    InternalPath (((SparseMerkleTree.new H).insert a.key a.leafHash).insert b.key b.leafHash).store.nodes
        a.key 0 ∧
      ∀ bk, OffPath a.key 0 bk →
        (((SparseMerkleTree.new H).insert a.key a.leafHash).insert b.key b.leafHash).store.nodes bk = none := by
  have h1 := @new_insert_nodes H a.key a.leafHash hp.leftHash
  set nodes1 := ((SparseMerkleTree.new H).insert a.key a.leafHash).store.nodes with hnodes1
  -- off the root position the first tree is empty
  have hnone : ∀ bk, bk ≠ BranchKey.new 0 a.key → readNode nodes1 SmtNodeChanges.empty bk = none := by
    intro bk hbk
    rw [readNode_empty, h1, if_neg hbk]
  have hsib : ∀ e, e < DEPTH - 1 → readNode nodes1 SmtNodeChanges.empty (siblingKey e a.key) = none :=
    fun e he => hnone _ (siblingKey_ne_new (by unfold DEPTH at he; omega) a.key 0)
  have hempty : EmptyPath nodes1 SmtNodeChanges.empty a.key (DEPTH - 1 - 254) :=
    ⟨fun e _ he => hsib e he,
      fun e he _ => hnone _ (BranchKey.new_ne_of_depth_ne _ _ (by unfold DEPTH at he; omega))⟩
  obtain ⟨h, c1, hc1, hpath, hframe⟩ := computeSubtree_pair H nodes1 hp 254 _ (by decide) hempty
  have hex : readNode nodes1 SmtNodeChanges.empty (BranchKey.new (DEPTH - 1 - (254 + 1)) a.key) =
      some (.collapsed ⟨a.key, a.leafHash⟩) := by
    rw [readNode_empty, h1]
    exact if_pos rfl
  have hsib1 : readNode nodes1 c1 (siblingKey (DEPTH - 1 - (254 + 1)) a.key) = none := by
    rw [readNode_offPath nodes1 hframe (offPath_siblingKey (by decide) _ _)]
    exact hsib _ (by decide)
  obtain ⟨h', hc⟩ := computeSubtree_expand H nodes1 hp hex hc1 (hsib _ (by decide)) hsib1
  rw [show DEPTH - 1 - (254 + 1) = 0 from rfl] at hc
  rw [SparseMerkleTree.insert_nodes, ← hnodes1, show DEPTH - 1 = 254 + 1 from rfl, hc]
  dsimp only
  refine ⟨?_, ?_⟩
  · intro e _ he
    rcases Nat.eq_zero_or_pos e with rfl | hpos
    · exact ⟨h', readNode_insert_self _⟩
    · rw [readNode_congr (insert_apply_ne _ (BranchKey.new_ne_of_depth_ne _ _ (by omega)))]
      exact hpath e hpos he
  · intro bk hbk
    rw [readNode_congr (insert_apply_ne _ (hbk 0 le_rfl)), readNode_offPath nodes1 hframe (hbk.mono (by omega))]
    exact hnone bk (hbk 0 le_rfl)

/-- The tree after inserting `a`, then `b`, then `a`'s key again with the leaf
`v`. -/
def reinsertedTree (H : SmtHasher) (a b : LeafUpdate) (v : Hash) : SparseMerkleTree H :=
  (((SparseMerkleTree.new H).insert a.key a.leafHash).insert b.key b.leafHash).insert a.key v

/-- The third insert replaces the whole path by `a`'s new collapsed leaf at the
root. -/
theorem reinsert_root (hp : LastBitPair a b) {v : Hash} (hv : v ≠ ZERO_HASH) :
    (reinsertedTree H a b v).store.nodes (BranchKey.new 0 a.key) = some (.collapsed ⟨a.key, v⟩) ∧
      (reinsertedTree H a b v).root = H.collapsedHashNode a.key v := by
  obtain ⟨hpath, hoff⟩ := insert_sibling_nodes (H := H) hp
  set nodes2 := (((SparseMerkleTree.new H).insert a.key a.leafHash).insert b.key b.leafHash).store.nodes
    with hnodes2
  -- internal nodes over empty siblings: a lone path for `a`'s key
  have hlone : LonePath nodes2 SmtNodeChanges.empty a.key (DEPTH - 1 - (DEPTH - 1)) := by
    constructor
    · intro e _ he
      rw [readNode_empty]
      exact hoff _ (offPath_siblingKey (by omega) _ _)
    · intro e cl _ he hcl
      obtain ⟨h, hh⟩ := hpath e (Nat.zero_le e) he
      rw [readNode_empty, hh] at hcl
      cases hcl
  obtain ⟨c3, hc3, hread, -⟩ :=
    computeSubtree_single H nodes2 (u := ⟨a.key, v⟩) hv (DEPTH - 1) _ (by decide) hlone
  rw [Nat.sub_self] at hread
  unfold reinsertedTree
  refine ⟨?_, SparseMerkleTree.insert_root_of_collapsed (by rw [hc3])⟩
  rw [SparseMerkleTree.insert_nodes, ← hnodes2, hc3]
  exact hread

/-- `b` is still in the leaf map. -/
theorem reinsert_get_sibling (hp : LastBitPair a b) (v : Hash) :
    (reinsertedTree H a b v).get b.key = some b.leafHash := by
  unfold reinsertedTree
  rw [SparseMerkleTree.get_insert, if_neg hp.key_ne.symm, SparseMerkleTree.get_insert, if_pos rfl,
    if_neg hp.rightHash]

/-- `prove` for `b` stops at once on `a`'s collapsed leaf at the root. -/
theorem reinsert_prove_sibling (hp : LastBitPair a b) {v : Hash} (hv : v ≠ ZERO_HASH) :
    (reinsertedTree H a b v).prove b.key =
      ⟨markEmptyFrom (Vector.replicate 32 0) 0, [], .collapsedOther 0 ⟨a.key, v⟩⟩ := by
  have hroot := (reinsert_root (H := H) hp hv).1
  rw [← hp.new_eq (by decide)] at hroot
  unfold SparseMerkleTree.prove
  rw [show DEPTH = 255 + 1 from rfl, proveLoop]
  simp [hroot, hp.key_ne]

/-- A proof that stops at the root on another key's collapsed leaf computes the
queried leaf's collapsed hash. -/
theorem verify_collapsedOther_zero (H : SmtHasher) (bitmap : Vector UInt8 32) (cl : CollapsedLeaf)
    (key leafHash root : Hash) :
    (⟨bitmap, [], .collapsedOther 0 cl⟩ : OwnedSmtProof).verify H key (some leafHash) root =
      .ok (H.collapsedHashNode key leafHash == root) := by
  simp [OwnedSmtProof.verify, OwnedSmtProof.computeRoot, computeRootInner, bitmapClearCountBefore,
    ProofTerminal.depth, rootLoop, seedHash]
  rfl

/-- After `a`, `b`, `a` again, the root commits to `a`'s new leaf alone while
`b` is still stored, and `b`'s proof verifies only if the two collapsed hashes
collide. -/
theorem reinsert_drops_sibling (hp : LastBitPair a b) {v : Hash} (hv : v ≠ ZERO_HASH) :
    (reinsertedTree H a b v).root = H.collapsedHashNode a.key v ∧
      (reinsertedTree H a b v).get b.key = some b.leafHash ∧
      ((reinsertedTree H a b v).prove b.key).verify H b.key ((reinsertedTree H a b v).get b.key)
          (reinsertedTree H a b v).root =
        .ok (H.collapsedHashNode b.key b.leafHash == H.collapsedHashNode a.key v) := by
  have hroot := (reinsert_root (H := H) hp hv).2
  have hget := reinsert_get_sibling (H := H) hp v
  refine ⟨hroot, hget, ?_⟩
  rw [reinsert_prove_sibling hp hv, hget, hroot]
  exact verify_collapsedOther_zero H _ _ _ _ _

/-- The keys `0` and `1` differ only in the last bit. -/
theorem lastBitPair_zero_one : LastBitPair ⟨0#256, 1#256⟩ ⟨1#256, 2#256⟩ where
  shared i hi := by
    simp only [bitAt, BitVec.getMsbD_zero, BitVec.getMsbD_one]
    unfold DEPTH at hi
    simp
    omega
  left := by decide +kernel
  right := by decide +kernel
  leftHash := by decide +kernel
  rightHash := by decide +kernel

/-- The tree `insert(0, 1)`, `insert(1, 2)`, `insert(0, 3)`: its root is the
collapsed hash of `0 ↦ 3` alone, `get(1)` is `Some(2)`, and `verify` of
`prove(1)` compares the collapsed hash of `1 ↦ 2` with that root. -/
theorem verify_rejects_dropped_leaf (H : SmtHasher) :
    (reinsertedTree H ⟨0#256, 1#256⟩ ⟨1#256, 2#256⟩ 3#256).root = H.collapsedHashNode 0#256 3#256 ∧
      (reinsertedTree H ⟨0#256, 1#256⟩ ⟨1#256, 2#256⟩ 3#256).get 1#256 = some 2#256 ∧
      ((reinsertedTree H ⟨0#256, 1#256⟩ ⟨1#256, 2#256⟩ 3#256).prove 1#256).verify H 1#256
          ((reinsertedTree H ⟨0#256, 1#256⟩ ⟨1#256, 2#256⟩ 3#256).get 1#256)
          (reinsertedTree H ⟨0#256, 1#256⟩ ⟨1#256, 2#256⟩ 3#256).root =
        .ok (H.collapsedHashNode 1#256 2#256 == H.collapsedHashNode 0#256 3#256) :=
  reinsert_drops_sibling lastBitPair_zero_one (by decide +kernel)

end Dropped

end RustyKaspa.Smt
