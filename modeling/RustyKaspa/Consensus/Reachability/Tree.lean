import RustyKaspa.Consensus.Reachability.Reindex

/-!
# Growing the reachability tree

Model of `consensus/src/processes/reachability/tree.rs` and of the operations of
`inquirer.rs` that write the store: `add_tree_block` gives a new block half of
what its parent has left after its last child, or reindexes when nothing is
left; `try_advancing_reindex_root` moves the reindex root down the chain of the
selected tip, concentrating the interval on it; `add_block` adds the block to
the tree and to the future covering sets of its mergeset.

`add_tree_block` and `ReindexOperationContext::new` take a reindex depth that
the context stores and never reads; the model passes only the slack there.
Loops take a `fuel` argument and are `none` when it runs out.
-/

namespace RustyKaspa.Consensus.Reachability

open Store Inquirer

variable (offered : List ℕ → ℕ → ℕ → ℕ)

namespace Tree

/-- `add_tree_block` (tree.rs lines 10–41). -/
def addTreeBlock (fuel : ℕ) (s : Store) (newBlock parent : Hash) (reindexSlack : ℕ) :
    Option Store := do
  let remaining ← s.intervalRemainingAfter parent
  let s := s.appendChild parent newBlock
  let parentHeight ← s.getHeight parent
  let height ← addU64 parentHeight 1
  if remaining.isEmpty then do
    -- the new block starts with the empty interval right after the capacity
    let s ← s.insert newBlock parent remaining height
    let reindexRoot ← s.getReindexRoot
    let ctx ← Context.reindexIntervals offered fuel (Context.new s reindexSlack) newBlock reindexRoot
    pure ctx.store
  else do
    let (allocated, _) ← remaining.splitHalf
    s.insert newBlock parent allocated height

/-- `find_common_tree_ancestor` (tree.rs lines 47–56): climb from `block` to the
first chain ancestor of the reindex root. -/
def findCommonTreeAncestor (s : Store) (reindexRoot : Hash) : ℕ → Hash → Option Hash
  | 0, _ => none
  | fuel + 1, current => do
    if ← isChainAncestorOf s current reindexRoot then pure current
    else
      let parent ← s.getParent current
      findCommonTreeAncestor s reindexRoot fuel parent

/-- The loop of `find_next_reindex_root` (tree.rs lines 89–101): walk down the
chain to `hint` while the next block is at least `reindexDepth` above it. -/
def findNextReindexRootLoop (s : Store) (hint : Hash) (hintHeight reindexDepth : ℕ) :
    ℕ → Hash → Option Hash
  | 0, _ => none
  | fuel + 1, next => do
    let child ← getNextChainAncestorUnchecked s hint next
    let childHeight ← s.getHeight child
    if hintHeight < childHeight then none
    else if hintHeight - childHeight < reindexDepth then pure next
    else findNextReindexRootLoop s hint hintHeight reindexDepth fuel child

/-- `find_next_reindex_root` (tree.rs lines 59–104): when the current root is not
on the chain of `hint`, it moves only once `hint` is `reindexSlack` higher, and
then from the common ancestor. -/
def findNextReindexRoot (fuel : ℕ) (s : Store) (current hint : Hash) (reindexDepth reindexSlack : ℕ) :
    Option (Hash × Hash) := do
  let hintHeight ← s.getHeight hint
  if ← isChainAncestorOf s current hint then
    let next ← findNextReindexRootLoop s hint hintHeight reindexDepth fuel current
    pure (current, next)
  else
    let currentHeight ← s.getHeight current
    if hintHeight < currentHeight ∨ hintHeight - currentHeight < reindexSlack then pure (current, current)
    else
      let common ← findCommonTreeAncestor s current fuel hint
      let next ← findNextReindexRootLoop s hint hintHeight reindexDepth fuel common
      pure (common, next)

/-- The loop of `try_advancing_reindex_root` (tree.rs lines 131–136): concentrate
the interval on each chain block from the ancestor down to the new root. -/
def concentrateLoop (fuel : ℕ) (next : Hash) (reindexSlack : ℕ) : ℕ → Store → Hash → Option Store
  | 0, _, _ => none
  | steps + 1, s, ancestor =>
    if ancestor = next then some s
    else do
      let child ← getNextChainAncestorUnchecked s next ancestor
      let ctx ← Context.concentrateInterval offered fuel (Context.new s reindexSlack) ancestor child
        (child == next)
      concentrateLoop fuel next reindexSlack steps ctx.store child

/-- `try_advancing_reindex_root` (tree.rs lines 112–142). -/
def tryAdvancingReindexRoot (fuel : ℕ) (s : Store) (hint : Hash) (reindexDepth reindexSlack : ℕ) :
    Option Store := do
  let current ← s.getReindexRoot
  let (ancestor, next) ← findNextReindexRoot fuel s current hint reindexDepth reindexSlack
  if current = next then pure s
  else
    let s ← concentrateLoop offered fuel next reindexSlack fuel s ancestor
    pure (s.setReindexRoot next)

end Tree

namespace Inquirer

/-- `init_with_params` (inquirer.rs lines 13–19): nothing to do on a store that
has `origin`. -/
def initWithParams (s : Store) (origin : Hash) (capacity : Interval) : Option Store :=
  if s.has origin then some s else s.init origin capacity

/-- `inquirer::init` (lines 9–11): the root `ORIGIN` with the maximal interval. -/
def init (s : Store) : Option Store := initWithParams s ORIGIN Interval.maximal

/-- `insert_to_future_covering_set` (lines 134–145): the new block goes where the
search would have found it; finding a chain ancestor of it there is
`DataInconsistency`. -/
def insertToFutureCoveringSet (s : Store) (mergedBlock newBlock : Hash) : Option Store := do
  match ← binarySearchDescendant s (s.getFutureCoveringSet mergedBlock) newBlock with
  | .found _ _ => none
  | .notFound i => s.insertFutureCoveringItem mergedBlock newBlock i

/-- `add_dag_block` (lines 52–58). -/
def addDagBlock (s : Store) (newBlock : Hash) (mergeset : List Hash) : Option Store :=
  mergeset.foldlM (fun s mergedBlock => insertToFutureCoveringSet s mergedBlock newBlock) s

/-- `DEFAULT_REINDEX_DEPTH` (`consensus/core/src/config/constants.rs` line 112). -/
def DEFAULT_REINDEX_DEPTH : ℕ := 100

/-- `DEFAULT_REINDEX_SLACK` (`consensus/core/src/config/constants.rs` line 116). -/
def DEFAULT_REINDEX_SLACK : ℕ := 2 ^ 14

/-- `add_block_with_params` (lines 33–50). -/
def addBlockWithParams (fuel : ℕ) (s : Store) (newBlock selectedParent : Hash) (mergeset : List Hash)
    (reindexSlack : ℕ) : Option Store := do
  let s ← Tree.addTreeBlock offered fuel s newBlock selectedParent reindexSlack
  addDagBlock s newBlock mergeset

/-- `add_block` (lines 24–31): with the default reindex slack. -/
def addBlock (fuel : ℕ) (s : Store) (newBlock selectedParent : Hash) (mergeset : List Hash) :
    Option Store :=
  addBlockWithParams offered fuel s newBlock selectedParent mergeset DEFAULT_REINDEX_SLACK

/-- `hint_virtual_selected_parent` (lines 151–158). -/
def hintVirtualSelectedParent (fuel : ℕ) (s : Store) (hint : Hash) : Option Store :=
  Tree.tryAdvancingReindexRoot offered fuel s hint DEFAULT_REINDEX_DEPTH DEFAULT_REINDEX_SLACK

end Inquirer

end RustyKaspa.Consensus.Reachability
