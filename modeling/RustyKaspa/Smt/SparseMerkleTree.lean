import RustyKaspa.Smt.Proof

/-!
# The in-memory tree and its prover

Model of `SparseMerkleTree<H, BTreeSmtStore>` (`crypto/smt/src/tree.rs` lines
22–190, `crypto/smt/src/store.rs` lines 248–310): a leaf map and a node map,
with the root cached beside them. `insert` and `remove` run
`compute_root_update` on a one-update batch and write its changes; `prove`
walks the stored nodes from the root.
-/

namespace RustyKaspa.Smt

/-! ## The store -/

/-- `BTreeSmtStore` (`store.rs` lines 253–256): the leaves and the nodes. -/
structure BTreeSmtStore where
  leaves : Hash → Option Hash
  nodes : BranchKey → Option Node

/-- `BTreeSmtStore::new`. -/
def BTreeSmtStore.new : BTreeSmtStore := ⟨fun _ => none, fun _ => none⟩

/-- `BTreeSmtStore::insert_leaf` (`store.rs` lines 274–280): `ZERO_HASH`
removes the leaf. -/
def BTreeSmtStore.insertLeaf (store : BTreeSmtStore) (key leafHash : Hash) : BTreeSmtStore :=
  { store with
    leaves := fun k => if k = key then (if leafHash = ZERO_HASH then none else some leafHash)
      else store.leaves k }

/-- `insert_node` for every entry of a change map (`tree.rs` lines 171–173). -/
def BTreeSmtStore.insertNodes (store : BTreeSmtStore) (changes : SmtNodeChanges) :
    BTreeSmtStore :=
  { store with nodes := applyChanges store.nodes changes }

/-- `SortedLeafUpdates::from_unsorted(once(u))`: sorting and deduplicating one
update leaves it as it is. -/
def SortedLeafUpdates.single (u : LeafUpdate) : SortedLeafUpdates :=
  ⟨[u], List.pairwise_singleton _ _⟩

/-! ## The tree -/

/-- `SparseMerkleTree<H, BTreeSmtStore>` (`tree.rs` lines 27–31); `H` only
selects the hashers. -/
structure SparseMerkleTree (H : SmtHasher) where
  store : BTreeSmtStore
  root : Hash

variable {H : SmtHasher}

/-- `SparseMerkleTree::new` (`tree.rs` lines 35–37). -/
def SparseMerkleTree.new (H : SmtHasher) : SparseMerkleTree H :=
  ⟨BTreeSmtStore.new, H.EMPTY_HASHES DEPTH⟩

/-- `SparseMerkleTree::get` (`tree.rs` lines 154–156). -/
def SparseMerkleTree.get (t : SparseMerkleTree H) (key : Hash) : Option Hash :=
  t.store.leaves key

/-- `SparseMerkleTree::insert` (`tree.rs` lines 164–174): the leaf is written
first, so `compute_root_update` runs on the store that already holds it. -/
def SparseMerkleTree.insert (t : SparseMerkleTree H) (key leafHash : Hash) : SparseMerkleTree H :=
  let store := t.store.insertLeaf key leafHash
  let (newRoot, changes) :=
    computeRootUpdate H store.nodes t.root (.single ⟨key, leafHash⟩)
  ⟨store.insertNodes changes, newRoot⟩

/-- `SparseMerkleTree::remove` (`tree.rs` lines 177–190): the tree after the
call and the leaf it returns. An absent key leaves the tree as it is. -/
def SparseMerkleTree.remove (t : SparseMerkleTree H) (key : Hash) :
    SparseMerkleTree H × Option Hash :=
  match t.store.leaves key with
  | some old =>
    let (newRoot, changes) :=
      computeRootUpdate H t.store.nodes t.root (.single ⟨key, ZERO_HASH⟩)
    (⟨(t.store.insertNodes changes).insertLeaf key ZERO_HASH, newRoot⟩, some old)
  | none => (t, none)

/-! ## `prove` -/

/-- `bitmap[d / 8] |= 1 << (d % 8)`: level `d` is marked empty. -/
def markEmpty (bitmap : Vector UInt8 32) (d : Nat) : Vector UInt8 32 :=
  if h : d / 8 < 32 then bitmap.set (d / 8) (bitmap[d / 8] ||| ((1 : UInt8) <<< (d % 8).toUInt8)) h
  else bitmap

/-- `for d in depth..DEPTH { bitmap[d / 8] |= 1 << (d % 8) }`. -/
def markEmptyFrom (bitmap : Vector UInt8 32) (depth : Nat) : Vector UInt8 32 :=
  (List.range' depth (DEPTH - depth)).foldl markEmpty bitmap

/-- The sibling `prove` records below an internal node at `depth`
(`tree.rs` lines 81–115), or `none` when the sibling subtree is empty. At the
leaf-parent level the sibling is the leaf whose key differs in the last bit,
read from the leaf map; above it, the sibling node. -/
def proveSibling (H : SmtHasher) (store : BTreeSmtStore) (key : Hash) (branchKey : BranchKey)
    (goesRight : Bool) (depth : Nat) : Option Hash :=
  if depth = DEPTH - 1 then
    let siblingLeafKey := key ^^^ BitVec.twoPow 256 (255 - depth)
    (store.leaves siblingLeafKey).map (H.collapsedHashNode siblingLeafKey)
  else
    match store.nodes (childBranchKey branchKey (!goesRight) depth) with
    | none => none
    | some (.internal hash) => some hash
    | some (.collapsed cl) => some (H.collapsedHashNode cl.laneKey cl.leafHash)

/-- The `for depth in 0..DEPTH` loop of `prove` (`tree.rs` lines 75–134), with
`n` levels left: an internal node records its sibling and goes down; a
collapsed node or an empty position ends the proof, marking every remaining
level empty. An empty position keeps the terminal `Full`. -/
def proveLoop (H : SmtHasher) (store : BTreeSmtStore) (key : Hash) :
    Nat → Nat → Vector UInt8 32 → List Hash → OwnedSmtProof
  | 0, _, bitmap, siblings => ⟨bitmap, siblings, .full⟩
  | n + 1, depth, bitmap, siblings =>
    let branchKey := BranchKey.new depth key
    match store.nodes branchKey with
    | some (.internal _) =>
      match proveSibling H store key branchKey (bitAt key depth) depth with
      | none => proveLoop H store key n (depth + 1) (markEmpty bitmap depth) siblings
      | some sibling => proveLoop H store key n (depth + 1) bitmap (siblings ++ [sibling])
    | some (.collapsed cl) =>
      if cl.laneKey = key then
        ⟨markEmptyFrom bitmap depth, siblings, .collapsed depth.toUInt8⟩
      else ⟨markEmptyFrom bitmap depth, siblings, .collapsedOther depth.toUInt8 cl⟩
    | none => ⟨markEmptyFrom bitmap depth, siblings, .full⟩

/-- `SparseMerkleTree::prove` (`tree.rs` lines 72–137). -/
def SparseMerkleTree.prove (t : SparseMerkleTree H) (key : Hash) : OwnedSmtProof :=
  proveLoop H t.store key DEPTH 0 (Vector.replicate 32 0) []

end RustyKaspa.Smt
