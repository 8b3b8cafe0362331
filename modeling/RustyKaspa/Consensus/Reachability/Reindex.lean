import RustyKaspa.Consensus.Reachability.Inquirer

/-!
# Reindexing the reachability tree

Model of `ReindexOperationContext` (`consensus/src/processes/reachability/reindex.rs`):
the operations that hand out interval space again when a block has none left.
`count_subtrees` counts the subtree under a block by a breadth-first search that
pushes the counts up from the leaves; `propagate_interval` splits each block's
capacity among its children by their subtree sizes, again breadth first;
`reindex_intervals` climbs from a block out of space to the first ancestor with
room for its subtree, or takes the space from the slack along the chain to the
reindex root (`reclaim_interval_before`, `reclaim_interval_after`);
`concentrate_interval` squeezes the siblings of the chain to the reindex root
and gives the rest to the chain.

Every loop takes a `fuel` argument and is `none` when it runs out; `u64`
arithmetic is checked for overflow, as every build of the workspace does. The fractions `split_exponential`
biases by are `f64` computations that the model does not follow: `offered` is
what they offer each part, and every result holds for each choice of it.
-/

namespace RustyKaspa.Consensus.Reachability

open Store Inquirer

variable (offered : List ℕ → ℕ → ℕ → ℕ)

/-- `a * b` on `u64`, `none` on overflow. -/
def mulU64 (a b : ℕ) : Option ℕ := if a * b ≤ U64_MAX then some (a * b) else none

/-- `ReindexOperationContext` (lines 9–14): the store, the subtree sizes counted
during this operation, and the slack. The depth is stored but never read. -/
structure Context where
  store : Store
  subtreeSizes : Hash → Option ℕ
  slack : ℕ

namespace Context

/-- `ReindexOperationContext::new` (lines 17–19). -/
def new (store : Store) (slack : ℕ) : Context := ⟨store, fun _ => none, slack⟩

/-- The context with the subtree size of `block` recorded. -/
def setSubtreeSize (ctx : Context) (block : Hash) (size : ℕ) : Context :=
  { ctx with subtreeSizes := Function.update ctx.subtreeSizes block (some size) }

/-- The context over another store. -/
def withStore (ctx : Context) (store : Store) : Context := { ctx with store }

@[simp] theorem setSubtreeSize_store (ctx : Context) (block : Hash) (size : ℕ) :
    (ctx.setSubtreeSize block size).store = ctx.store := rfl

@[simp] theorem withStore_store (ctx : Context) (store : Store) : (ctx.withStore store).store = store :=
  rfl

@[simp] theorem withStore_subtreeSizes (ctx : Context) (store : Store) :
    (ctx.withStore store).subtreeSizes = ctx.subtreeSizes := rfl

@[simp] theorem withStore_slack (ctx : Context) (store : Store) :
    (ctx.withStore store).slack = ctx.slack := rfl

@[simp] theorem setSubtreeSize_slack (ctx : Context) (block : Hash) (size : ℕ) :
    (ctx.setSubtreeSize block size).slack = ctx.slack := rfl

/-! ## Counting subtrees (lines 102–162) -/

/-- The climb of `count_subtrees` (lines 140–159): from a block whose subtree
size is known, go up to the parent and count one more child ready; when all its
children are ready, its size is their sum plus one, and the climb goes on. It
stops at `block`, where the search started. -/
def pushUp (block : Hash) : ℕ → Context → (Hash → ℕ) → Hash → Option (Context × (Hash → ℕ))
  | 0, _, _, _ => none
  | fuel + 1, ctx, counts, current =>
    if current = block then some (ctx, counts)
    else do
      let parent ← ctx.store.getParent current
      let count := counts parent + 1
      let counts := Function.update counts parent count
      let children := ctx.store.getChildren parent
      if count < children.length then some (ctx, counts)
      else
        -- `self.subtree_sizes[c]` panics on a child without a size
        let sizes ← children.mapM ctx.subtreeSizes
        let subtreeSum ← sumU64 sizes
        let size ← addU64 subtreeSum 1
        pushUp block fuel (ctx.setSubtreeSize parent size) counts parent

/-- The search of `count_subtrees` (lines 124–160): a leaf gets size one, a
block with a known size is not entered, any other block queues its children;
the first two push their size up. -/
def countSubtreesLoop (block : Hash) : ℕ → Context → (Hash → ℕ) → List Hash → Option Context
  | 0, _, _, _ => none
  | _ + 1, ctx, _, [] => some ctx
  | fuel + 1, ctx, counts, current :: queue =>
    let children := ctx.store.getChildren current
    if children.isEmpty then do
      let (ctx, counts) ← pushUp block fuel (ctx.setSubtreeSize current 1) counts current
      countSubtreesLoop block fuel ctx counts queue
    else if (ctx.subtreeSizes current).isNone then
      countSubtreesLoop block fuel ctx counts (queue ++ children)
    else do
      let (ctx, counts) ← pushUp block fuel ctx counts current
      countSubtreesLoop block fuel ctx counts queue

/-- `count_subtrees` (lines 119–162). -/
def countSubtrees (fuel : ℕ) (ctx : Context) (block : Hash) : Option Context :=
  if (ctx.subtreeSizes block).isSome then some ctx
  else countSubtreesLoop block fuel ctx (fun _ => 0) [block]

/-! ## Propagating intervals (lines 164–185) -/

/-- The `for (c, ci) in … .zip(intervals)` loop: set each interval in turn. -/
def setIntervals (store : Store) (assignments : List (Hash × Interval)) : Option Store :=
  assignments.foldlM (fun store a => store.setInterval a.1 a.2) store

/-- The search of `propagate_interval` (lines 172–183): each block's children
get `split_exponential` of its capacity by their subtree sizes, and are queued. -/
def propagateLoop : ℕ → Context → List Hash → Option Context
  | 0, _, _ => none
  | _ + 1, ctx, [] => some ctx
  | fuel + 1, ctx, current :: queue =>
    let children := ctx.store.getChildren current
    if children.isEmpty then propagateLoop fuel ctx queue
    else do
      let sizes ← children.mapM ctx.subtreeSizes
      let interval ← ctx.store.intervalChildrenCapacity current
      let intervals ← interval.splitExponential offered sizes
      let store ← setIntervals ctx.store (children.zip intervals)
      propagateLoop fuel (ctx.withStore store) (queue ++ children)

/-- `propagate_interval` (lines 167–185). -/
def propagateInterval (fuel : ℕ) (ctx : Context) (block : Hash) : Option Context := do
  let ctx ← countSubtrees fuel ctx block
  propagateLoop offered fuel ctx [block]

/-- `apply_interval_op` (lines 360–363). -/
def applyIntervalOp (ctx : Context) (block : Hash) (offset : ℕ)
    (op : Interval → ℕ → Option Interval) : Option Context := do
  let interval ← ctx.store.getInterval block
  let interval ← op interval offset
  let store ← ctx.store.setInterval block interval
  pure (ctx.withStore store)

/-- `apply_interval_op_and_propagate` (lines 365–369). -/
def applyIntervalOpAndPropagate (fuel : ℕ) (ctx : Context) (block : Hash) (offset : ℕ)
    (op : Interval → ℕ → Option Interval) : Option Context := do
  let ctx ← ctx.applyIntervalOp block offset op
  propagateInterval offered fuel ctx block

end Context

/-- `split_children` (lines 470–476): the children before `pivot` and after it;
`DataInconsistency` when `pivot` is not a child. -/
def splitChildren (children : List Hash) (pivot : Hash) : Option (List Hash × List Hash) :=
  (children.idxOf? pivot).map fun index => (children.take index, children.drop (index + 1))

/-- What tells `reclaim_interval_before` from `reclaim_interval_after`, and
`offset_siblings_before` from `offset_siblings_after`: the side of the chain
block they take space from. -/
structure Side where
  /-- `interval_remaining_before` or `interval_remaining_after`. -/
  remaining : Store → Hash → Option Interval
  /-- `Interval::increase_start` or `Interval::decrease_end`: give up room on the side. -/
  shrink : Interval → ℕ → Option Interval
  /-- The siblings on the side, nearest first. -/
  siblings : List Hash × List Hash → List Hash
  /-- `Interval::increase` or `Interval::decrease`: move a sibling away. -/
  shift : Interval → ℕ → Option Interval
  /-- `Interval::increase_end` or `Interval::decrease_start`: grow the allocation block. -/
  grow : Interval → ℕ → Option Interval

/-- The side before the chain (lines 190–271 and 328–342). -/
def Side.before : Side :=
  ⟨Store.intervalRemainingBefore, Interval.increaseStart, fun split => split.1.reverse,
    Interval.increase, Interval.increaseEnd⟩

/-- The side after the chain (lines 273–326 and 344–358). -/
def Side.after : Side :=
  ⟨Store.intervalRemainingAfter, Interval.decreaseEnd, fun split => split.2,
    Interval.decrease, Interval.decreaseStart⟩

namespace Context

variable (side : Side)

/-- The loop of `offset_siblings_*`: move each sibling on the side away by
`offset`, until the allocation block, which grows by it instead. -/
def offsetSiblingsLoop (fuel : ℕ) (allocationBlock : Hash) (offset : ℕ) :
    List Hash → Context → Option Context
  | [], ctx => some ctx
  | sibling :: siblings, ctx =>
    if sibling = allocationBlock then
      ctx.applyIntervalOpAndPropagate offered fuel allocationBlock offset side.grow
    else do
      let ctx ← ctx.applyIntervalOpAndPropagate offered fuel sibling offset side.shift
      offsetSiblingsLoop fuel allocationBlock offset siblings ctx

/-- `offset_siblings_before` and `offset_siblings_after` (lines 328–358). -/
def offsetSiblings (fuel : ℕ) (ctx : Context) (allocationBlock current : Hash) (offset : ℕ) :
    Option Context := do
  let parent ← ctx.store.getParent current
  let split ← splitChildren (ctx.store.getChildren parent) current
  offsetSiblingsLoop offered side fuel allocationBlock offset (side.siblings split) ctx

/-- `offset_siblings_before` (lines 328–342). -/
def offsetSiblingsBefore (fuel : ℕ) (ctx : Context) (allocationBlock current : Hash) (offset : ℕ) :
    Option Context :=
  offsetSiblings offered Side.before fuel ctx allocationBlock current offset

/-- `offset_siblings_after` (lines 344–358). -/
def offsetSiblingsAfter (fuel : ℕ) (ctx : Context) (allocationBlock current : Hash) (offset : ℕ) :
    Option Context :=
  offsetSiblings offered Side.after fuel ctx allocationBlock current offset

/-- The first loop of `reclaim_interval_*` (lines 207–242): walk down the chain
from the chosen child towards the reindex root, summing the slack on the side,
until it covers the required allocation, or the reindex root is reached and
gives the rest, with new slack for the chain walked. Returns the block it
stopped at and the slack to leave on each chain block on the way back. -/
def reclaimIntervalDown (fuel : ℕ) (allocationBlock reindexRoot : Hash) (requiredAllocation : ℕ) :
    ℕ → Context → Hash → ℕ → ℕ → Option (Context × Hash × ℕ)
  | 0, _, _, _, _ => none
  | steps + 1, ctx, current, slackSum, pathLen =>
    if current = reindexRoot then do
      let reserved ← mulU64 ctx.slack pathLen
      let total ← addU64 requiredAllocation reserved
      let offset ← subU64 total slackSum
      let ctx ← ctx.applyIntervalOpAndPropagate offered fuel current offset side.shrink
      let ctx ← offsetSiblings offered side fuel ctx allocationBlock current offset
      pure (ctx, current, ctx.slack)
    else do
      let slackCurrent := (← side.remaining ctx.store current).size
      let slackSum ← addU64 slackSum slackCurrent
      if requiredAllocation ≤ slackSum then do
        let offset ← subU64 slackCurrent (slackSum - requiredAllocation)
        let ctx ← ctx.applyIntervalOp current offset side.shrink
        let ctx ← offsetSiblings offered side fuel ctx allocationBlock current offset
        pure (ctx, current, 0)
      else do
        let current ← getNextChainAncestorUnchecked ctx.store reindexRoot current
        reclaimIntervalDown fuel allocationBlock reindexRoot requiredAllocation steps ctx current
          slackSum (pathLen + 1)

/-- The second loop of `reclaim_interval_*` (lines 244–260): back up towards the
common ancestor, each chain block giving up its slack on the side but the
reserved amount, passed on to the siblings and at last to the allocation block. -/
def reclaimIntervalUp (fuel : ℕ) (allocationBlock commonAncestor : Hash) (pathSlackAlloc : ℕ) :
    ℕ → Context → Hash → Option Context
  | 0, _, _ => none
  | steps + 1, ctx, current => do
    let current ← ctx.store.getParent current
    if current = commonAncestor then pure ctx
    else do
      let slackCurrent := (← side.remaining ctx.store current).size
      let offset ← subU64 slackCurrent pathSlackAlloc
      let ctx ← ctx.applyIntervalOp current offset side.shrink
      let ctx ← offsetSiblings offered side fuel ctx allocationBlock current offset
      reclaimIntervalUp fuel allocationBlock commonAncestor pathSlackAlloc steps ctx current

/-- `reclaim_interval_before` and `reclaim_interval_after` (lines 190–326). -/
def reclaimInterval (fuel : ℕ) (ctx : Context)
    (allocationBlock commonAncestor chosenChild reindexRoot : Hash) (requiredAllocation : ℕ) :
    Option Context := do
  let (ctx, current, pathSlackAlloc) ← reclaimIntervalDown offered side fuel allocationBlock
    reindexRoot requiredAllocation fuel ctx chosenChild 0 0
  reclaimIntervalUp offered side fuel allocationBlock commonAncestor pathSlackAlloc fuel ctx current

/-- `reclaim_interval_before` (lines 190–271). -/
def reclaimIntervalBefore (fuel : ℕ) (ctx : Context)
    (allocationBlock commonAncestor chosenChild reindexRoot : Hash) (requiredAllocation : ℕ) :
    Option Context :=
  reclaimInterval offered Side.before fuel ctx allocationBlock commonAncestor chosenChild reindexRoot
    requiredAllocation

/-- `reclaim_interval_after` (lines 273–326). -/
def reclaimIntervalAfter (fuel : ℕ) (ctx : Context)
    (allocationBlock commonAncestor chosenChild reindexRoot : Hash) (requiredAllocation : ℕ) :
    Option Context :=
  reclaimInterval offered Side.after fuel ctx allocationBlock commonAncestor chosenChild reindexRoot
    requiredAllocation

/-- `reindex_intervals_earlier_than_root` (lines 187–205): take the space from
the side of the chain to the reindex root that the allocation block is on. -/
def reindexIntervalsEarlierThanRoot (fuel : ℕ) (ctx : Context)
    (allocationBlock reindexRoot commonAncestor : Hash) (requiredAllocation : ℕ) :
    Option Context := do
  let chosenChild ← getNextChainAncestorUnchecked ctx.store reindexRoot commonAncestor
  let blockInterval ← ctx.store.getInterval allocationBlock
  let chosenInterval ← ctx.store.getInterval chosenChild
  if blockInterval.start < chosenInterval.start then
    reclaimIntervalBefore offered fuel ctx allocationBlock commonAncestor chosenChild reindexRoot
      requiredAllocation
  else
    reclaimIntervalAfter offered fuel ctx allocationBlock commonAncestor chosenChild reindexRoot
      requiredAllocation

/-- The climb of `reindex_intervals` (lines 27–81): from the block out of space
up to the first ancestor whose interval holds its subtree, which is then
propagated; past the root or at the reindex root it is `DataOverflow`, and below
a strict chain ancestor of the reindex root the space is reclaimed from the
chain's slack. -/
def reindexIntervalsLoop (fuel : ℕ) (reindexRoot : Hash) : ℕ → Context → Hash → Option Context
  | 0, _, _ => none
  | steps + 1, ctx, current => do
    let currentInterval ← ctx.store.getInterval current
    let ctx ← countSubtrees fuel ctx current
    let size ← ctx.subtreeSizes current
    if size ≤ currentInterval.size then propagateInterval offered fuel ctx current
    else do
      let parent ← ctx.store.getParent current
      if parent = NONE then none
      else if current = reindexRoot then none
      else if ← isStrictChainAncestorOf ctx.store parent reindexRoot then
        reindexIntervalsEarlierThanRoot offered fuel ctx current reindexRoot parent size
      else reindexIntervalsLoop fuel reindexRoot steps ctx parent

/-- `reindex_intervals` (lines 27–82). -/
def reindexIntervals (fuel : ℕ) (ctx : Context) (newChild reindexRoot : Hash) : Option Context :=
  reindexIntervalsLoop offered fuel reindexRoot fuel ctx newChild

/-! ## Concentrating the interval on the chain (lines 371–468) -/

/-- `tighten_intervals_before` and `tighten_intervals_after` (lines 392–436): the
children on one side get intervals of their subtree sizes, packed next to the
slack at that end of the parent's interval (`place`), and are propagated. -/
def tightenIntervals (place : Interval → ℕ → ℕ → Option Interval) (fuel : ℕ) (ctx : Context)
    (parent : Hash) (children : List Hash) : Option (Context × ℕ) := do
  let (ctx, sizes) ← children.foldlM (fun (acc : Context × List ℕ) block => do
    let ctx ← countSubtrees fuel acc.1 block
    let size ← ctx.subtreeSizes block
    pure (ctx, acc.2 ++ [size])) (ctx, [])
  let sum ← sumU64 sizes
  let interval ← ctx.store.getInterval parent
  let placed ← place interval ctx.slack sum
  let intervals ← placed.splitExact sizes
  let ctx ← (children.zip intervals).foldlM (fun ctx a => do
    let store ← ctx.store.setInterval a.1 a.2
    propagateInterval offered fuel (ctx.withStore store) a.1) ctx
  pure (ctx, sum)

/-- `tighten_intervals_before` (lines 392–413): right after the slack at the start. -/
def tightenIntervalsBefore (fuel : ℕ) (ctx : Context) (parent : Hash) (childrenBefore : List Hash) :
    Option (Context × ℕ) :=
  tightenIntervals offered (fun interval slack sum => do
    let start ← addU64 interval.start slack
    let last ← (addU64 start sum).bind fun e => subU64 e 1
    Interval.new start last) fuel ctx parent childrenBefore

/-- `tighten_intervals_after` (lines 415–436): right before the slack at the end. -/
def tightenIntervalsAfter (fuel : ℕ) (ctx : Context) (parent : Hash) (childrenAfter : List Hash) :
    Option (Context × ℕ) :=
  tightenIntervals offered (fun interval slack sum => do
    let start ← (subU64 interval.last slack).bind fun e => subU64 e sum
    let last ← (subU64 interval.last slack).bind fun e => subU64 e 1
    Interval.new start last) fuel ctx parent childrenAfter

/-- `expand_interval_to_chosen` (lines 438–467): the chosen child gets all of the
parent's interval but the squeezed siblings and the slack on both sides; the
final reindex root, when that does not contain its interval, is first
propagated inside a narrower one. -/
def expandIntervalToChosen (fuel : ℕ) (ctx : Context) (parent child : Hash)
    (siblingsBeforeSubtreesSum siblingsAfterSubtreesSum : ℕ) (isFinalReindexRoot : Bool) :
    Option Context := do
  let interval ← ctx.store.getInterval parent
  let start ← (addU64 interval.start siblingsBeforeSubtreesSum).bind fun e => addU64 e ctx.slack
  let last ← ((subU64 interval.last siblingsAfterSubtreesSum).bind fun e => subU64 e ctx.slack).bind
    fun e => subU64 e 1
  let allocation ← Interval.new start last
  let current ← ctx.store.getInterval child
  let ctx ← if isFinalReindexRoot && !allocation.contains current then do
      let narrowedStart ← addU64 allocation.start ctx.slack
      let narrowedLast ← subU64 allocation.last ctx.slack
      let narrowed ← Interval.new narrowedStart narrowedLast
      let store ← ctx.store.setInterval child narrowed
      propagateInterval offered fuel (ctx.withStore store) child
    else pure ctx
  let store ← ctx.store.setInterval child allocation
  pure (ctx.withStore store)

/-- `concentrate_interval` (lines 371–390). -/
def concentrateInterval (fuel : ℕ) (ctx : Context) (parent child : Hash) (isFinalReindexRoot : Bool) :
    Option Context := do
  let (siblingsBefore, siblingsAfter) ← splitChildren (ctx.store.getChildren parent) child
  let (ctx, siblingsBeforeSubtreesSum) ← tightenIntervalsBefore offered fuel ctx parent siblingsBefore
  let (ctx, siblingsAfterSubtreesSum) ← tightenIntervalsAfter offered fuel ctx parent siblingsAfter
  expandIntervalToChosen offered fuel ctx parent child siblingsBeforeSubtreesSum
    siblingsAfterSubtreesSum isFinalReindexRoot

end Context

end RustyKaspa.Consensus.Reachability
