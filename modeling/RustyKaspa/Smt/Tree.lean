import RustyKaspa.Smt.Basic

/-!
# `compute_root_update`: the SLO update algorithm

Model of the pure update path of `crypto/smt/src/tree.rs` (lines 214–470):
`compute_root_update`, `compute_root_update_into`, `compute_subtree` and its
helpers `read_node`, `child_branch_key`, `leaf_result`, `merged_node`,
`record_change`, `expand_singleton` and `read_sibling_result`, and the slice
operations of `SortedLeafUpdatesRef` they use (`store.rs` lines 163–206).

A store is its `get_node` read function; `BTreeSmtStore` is infallible, so
no `Result` is carried. `SmtNodeChanges = BTreeMap<BranchKey, Option<Node>>` is
the function from a key to its pending entry. `compute_subtree` recurses from
`depth` to `depth + 1` and stops at the leaf-parent level `DEPTH - 1`; the
model recurses on `n = DEPTH - 1 - depth`, the number of levels below, so the
source's `depth == DEPTH - 1` branch is the case `n = 0`.
-/

namespace RustyKaspa.Smt

/-- `SmtNodeChanges` (`tree.rs` line 194): `None` in an entry means "this node
was deleted"; a key without an entry is unchanged. -/
def SmtNodeChanges := BranchKey → Option (Option Node)

/-- The empty change map `SmtNodeChanges::new()`. -/
def SmtNodeChanges.empty : SmtNodeChanges := fun _ => none

/-- `BTreeMap::insert` on the change map. -/
def SmtNodeChanges.insert (changes : SmtNodeChanges) (bk : BranchKey) (node : Option Node) :
    SmtNodeChanges :=
  fun k => if k = bk then some node else changes k

/-- `NodeResult` (`tree.rs` lines 197–205): the shape of a recomputed subtree. -/
inductive NodeResult where
  | empty
  | collapsed (cl : CollapsedLeaf)
  | internal (hash : Hash)
  deriving DecidableEq, Repr

/-- `NodeResult::hash` (`tree.rs` lines 213–219): the hash this subtree
contributes to its parent at `parentDepth`. -/
def NodeResult.hash (H : SmtHasher) : NodeResult → Nat → Hash
  | .empty, parentDepth => H.EMPTY_HASHES (DEPTH - 1 - parentDepth)
  | .collapsed cl, _ => H.collapsedHashNode cl.laneKey cl.leafHash
  | .internal hash, _ => hash

/-- The node `merged_node` stores for a result (`tree.rs` lines 308–312). -/
def NodeResult.toNode : NodeResult → Option Node
  | .empty => none
  | .collapsed cl => some (.collapsed cl)
  | .internal hash => some (.internal hash)

/-! ## The slice operations of `SortedLeafUpdatesRef` -/

/-- `<[T]>::partition_point`: the index of the first element for which `pred`
fails, on a slice partitioned by `pred` (the only case the standard library
specifies). -/
def partitionPoint (updates : List LeafUpdate) (pred : LeafUpdate → Bool) : Nat :=
  (updates.takeWhile pred).length

/-- `partition_by_bit` (`store.rs` lines 194–197): the updates going left at
`depth`, then those going right. -/
def partitionByBit (updates : List LeafUpdate) (depth : Nat) :
    List LeafUpdate × List LeafUpdate :=
  let splitPos := partitionPoint updates (fun u => !bitAt u.key depth)
  (updates.take splitPos, updates.drop splitPos)

/-- `first_with_bit` (`store.rs` lines 199–202). -/
def firstWithBit (updates : List LeafUpdate) (depth : Nat) (right : Bool) : Option LeafUpdate :=
  let (left, rightSlice) := partitionByBit updates depth
  if right then rightSlice.head? else left.head?

/-- `binary_search_by_key(key, |u| u.key)` on a slice sorted by key: `Ok` with
the index of the entry with that key, or `Err` with the index where it would be
inserted keeping the order. -/
def binarySearchByKey (updates : List LeafUpdate) (key : Hash) : Except Nat Nat :=
  match updates.findIdx? (fun u => u.key = key) with
  | some idx => .ok idx
  | none => .error (updates.takeWhile (fun u => u.key < key)).length

/-! ## Helpers of `compute_subtree` -/

/-- `read_node` (`tree.rs` lines 266–271): the change map first, then the store. -/
def readNode (store : BranchKey → Option Node) (changes : SmtNodeChanges) (bk : BranchKey) :
    Option Node :=
  match changes bk with
  | some nk => nk
  | none => store bk

/-- `leaf_result` (`tree.rs` lines 289–296). -/
def leafResult : Option LeafUpdate → NodeResult
  | some u => if u.leafHash ≠ ZERO_HASH then .collapsed ⟨u.key, u.leafHash⟩ else .empty
  | none => .empty

/-- `merged_node` (`tree.rs` lines 298–315): an empty side lets a lone
collapsed leaf move up; anything else is an internal node. -/
def mergedNode (H : SmtHasher) (left right : NodeResult) (depth : Nat) :
    NodeResult × Option Node :=
  let result : NodeResult :=
    match left, right with
    | .empty, .empty => .empty
    | .collapsed cl, .empty => .collapsed cl
    | .empty, .collapsed cl => .collapsed cl
    | _, _ => .internal (H.hashNode (left.hash H depth) (right.hash H depth))
  (result, result.toNode)

/-- `record_change` (`tree.rs` lines 317–321): write only what differs from
`existing`. -/
def recordChange (changes : SmtNodeChanges) (subtreeKey : BranchKey) (existing newNode : Option Node) :
    SmtNodeChanges :=
  if existing ≠ newNode then changes.insert subtreeKey newNode else changes

/-- `expand_singleton` (`tree.rs` lines 323–337): an existing collapsed leaf
joins the updates unless an update has its key; the node reported as existing
becomes `None` in both cases. -/
def expandSingleton (existing : Option Node) (updates : List LeafUpdate) :
    Option Node × List LeafUpdate :=
  match existing with
  | some (.collapsed cl) =>
    match binarySearchByKey updates cl.laneKey with
    | .error pos => (none, updates.take pos ++ ⟨cl.laneKey, cl.leafHash⟩ :: updates.drop pos)
    | .ok _ => (none, updates)
  | other => (other, updates)

/-- `read_sibling_result` (`tree.rs` lines 452–466). -/
def readSiblingResult (store : BranchKey → Option Node) (changes : SmtNodeChanges)
    (parentKey : BranchKey) (siblingIsRight : Bool) (depth : Nat) : NodeResult :=
  match readNode store changes (childBranchKey parentKey siblingIsRight depth) with
  | none => .empty
  | some (.collapsed cl) => .collapsed cl
  | some (.internal hash) => .internal hash

/-- The lane key of a collapsed node: the test
`let Some(Node::Collapsed(existing_cl)) = existing && u.key == existing_cl.lane_key`. -/
def collapsedKey : Option Node → Option Hash
  | some (.collapsed cl) => some cl.laneKey
  | _ => none

/-- The SLO promotion tombstone (`tree.rs` lines 400–445): when the merged
result is a lone collapsed leaf, its old position one level down is deleted
with a direct insert. -/
def promotionTombstone (changes : SmtNodeChanges) (subtreeKey : BranchKey) (result : NodeResult)
    (depth : Nat) : SmtNodeChanges :=
  match result with
  | .collapsed cl => changes.insert (childBranchKey subtreeKey (bitAt cl.laneKey depth) depth) none
  | _ => changes

/-! ## `compute_subtree` -/

/-- `compute_subtree` (`tree.rs` lines 343–442) at `depth = DEPTH - 1 - n`.
`updates` is sorted and non-empty in every call of the source (the root call
and both recursive calls test `is_empty` first); the `[]` case stands for the
`unwrap` on `updates.first()` that these calls never reach. -/
def computeSubtree (H : SmtHasher) (store : BranchKey → Option Node) :
    Nat → SmtNodeChanges → List LeafUpdate → NodeResult × SmtNodeChanges
  | _, changes, [] => (.empty, changes)
  | n, changes, first :: rest =>
    let depth := DEPTH - 1 - n
    let subtreeKey := BranchKey.new depth first.key
    let existing := readNode store changes subtreeKey
    if rest = [] ∧ existing = none then
      -- a single update into an empty subtree
      if first.leafHash = ZERO_HASH then (.empty, changes)
      else
        let cl : CollapsedLeaf := ⟨first.key, first.leafHash⟩
        (.collapsed cl, recordChange changes subtreeKey existing (some (.collapsed cl)))
    else if rest = [] ∧ collapsedKey existing = some first.key then
      -- a single update of the collapsed leaf already there
      let newNode := if first.leafHash = ZERO_HASH then none
        else some (.collapsed ⟨first.key, first.leafHash⟩)
      (leafResult (some first), recordChange changes subtreeKey existing newNode)
    else
      let (existingForWrite, updates) := expandSingleton existing (first :: rest)
      match n with
      | 0 =>
        -- leaf-parent level: both children are resolved from the updates alone
        let leftResult := leafResult (firstWithBit updates depth false)
        let rightResult := leafResult (firstWithBit updates depth true)
        let (result, newNode) := mergedNode H leftResult rightResult (DEPTH - 1)
        (result, recordChange changes subtreeKey existingForWrite newNode)
      | m + 1 =>
        let (leftUpdates, rightUpdates) := partitionByBit updates depth
        let (leftResult, changes) :=
          if leftUpdates = [] then (readSiblingResult store changes subtreeKey false depth, changes)
          else computeSubtree H store m changes leftUpdates
        let (rightResult, changes) :=
          if rightUpdates = [] then (readSiblingResult store changes subtreeKey true depth, changes)
          else computeSubtree H store m changes rightUpdates
        let (result, newNode) := mergedNode H leftResult rightResult depth
        let changes := promotionTombstone changes subtreeKey result depth
        (result, recordChange changes subtreeKey existingForWrite newNode)

/-- `compute_root_update_into` (`tree.rs` lines 245–263): the new root, with the
node changes added to `changes`. -/
def computeRootUpdateInto (H : SmtHasher) (store : BranchKey → Option Node) (currentRoot : Hash)
    (leafUpdates : SortedLeafUpdates) (changes : SmtNodeChanges) : Hash × SmtNodeChanges :=
  if leafUpdates.updates = [] then (currentRoot, changes)
  else
    let (result, changes) := computeSubtree H store (DEPTH - 1) changes leafUpdates.updates
    match result with
    | .empty => (H.emptyRoot, changes)
    | .collapsed cl => (H.collapsedHashNode cl.laneKey cl.leafHash, changes)
    | .internal hash => (hash, changes)

/-- `compute_root_update` (`tree.rs` lines 230–238). -/
def computeRootUpdate (H : SmtHasher) (store : BranchKey → Option Node) (currentRoot : Hash)
    (leafUpdates : SortedLeafUpdates) : Hash × SmtNodeChanges :=
  computeRootUpdateInto H store currentRoot leafUpdates SmtNodeChanges.empty

/-- Writing every entry of a change map into a node store
(`for (bk, node) in &changes { store.insert_node(*bk, *node) }`): `Some`
inserts, `None` removes. The result reads exactly as `read_node` does. -/
def applyChanges (nodes : BranchKey → Option Node) (changes : SmtNodeChanges) :
    BranchKey → Option Node :=
  readNode nodes changes

/-! ## Runs of batches -/

/-- A node store with its root, as the consensus processor and the batch tests
of `tree.rs` keep them. -/
structure SmtState where
  nodes : BranchKey → Option Node
  root : Hash

/-- The empty store and `H::empty_root()`. -/
def SmtState.init (H : SmtHasher) : SmtState := ⟨fun _ => none, H.emptyRoot⟩

/-- One batch (`tree.rs` lines 543–560): `compute_root_update` on the store,
then `apply_changes` writes every change into it. -/
def SmtState.applyBatch (H : SmtHasher) (st : SmtState) (batch : SortedLeafUpdates) : SmtState :=
  let (root, changes) := computeRootUpdate H st.nodes st.root batch
  ⟨applyChanges st.nodes changes, root⟩

/-- The state after a sequence of batches from the empty store. -/
def runBatches (H : SmtHasher) (batches : List SortedLeafUpdates) : SmtState :=
  batches.foldl (SmtState.applyBatch H) (SmtState.init H)

/-- Three batches over the keys `0`, `2²⁵⁵` and `2²⁵⁴`: insert `0 ↦ 5`; delete
`0` together with the absent key `2²⁵⁵`; insert `2²⁵⁴ ↦ 7`. -/
def zombieBatches : List SortedLeafUpdates :=
  [⟨[⟨0#256, 5#256⟩], by simp⟩,
   ⟨[⟨0#256, ZERO_HASH⟩, ⟨BitVec.twoPow 256 255, ZERO_HASH⟩], by decide⟩,
   ⟨[⟨BitVec.twoPow 256 254, 7#256⟩], by simp⟩]

set_option maxRecDepth 2000 in
/-- The second batch of `zombieBatches` empties the tree but leaves the deleted
leaf's collapsed node at the root position: `expand_singleton` reports no
existing node, so `record_change` sees nothing to delete. The third batch then
expands that node again, and the root commits to the deleted leaf `0 ↦ 5`
beside `2²⁵⁴ ↦ 7`. -/
theorem runBatches_resurrects_deleted_leaf (H : SmtHasher) :
    (runBatches H (zombieBatches.take 2)).root = H.emptyRoot ∧
      (runBatches H (zombieBatches.take 2)).nodes (BranchKey.new 0 0#256) =
        some (.collapsed ⟨0#256, 5#256⟩) ∧
      (runBatches H zombieBatches).root =
        H.hashNode (H.hashNode (H.collapsedHashNode 0#256 5#256)
          (H.collapsedHashNode (BitVec.twoPow 256 254) 7#256)) (H.EMPTY_HASHES 255) := by
  refine ⟨?_, ?_, ?_⟩
  · rfl
  · -- the lookup key has to be unfolded before the store is evaluated
    simp only [zombieBatches, runBatches, List.take, List.foldl, SmtState.applyBatch]
    rfl
  · rfl

end RustyKaspa.Smt
