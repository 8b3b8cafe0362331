import RustyKaspa.Consensus.Basic
import RustyKaspa.Lib.ChainWalk

/-!
# Merge depth root and finality point

Model of `BlockDepthManager::calculate_block_at_depth`
(`consensus/src/processes/block_depth.rs` lines 51–105). The block at depth of
`B` starts from the one stored for `B`'s selected parent (or from the pruning
point when that is `ORIGIN`) and walks the selected chain forward while the
blue score stays below `blue_score(B) - depth`.

The depth store, the ghostdag store and the reachability service are the
answers they give (`BlockDepthManager`); `AnswersForChain` says that they
answer for a selected chain as the reachability service documents it.

Results:
* `calculateBlockAtDepth_eq_blockAtDepth`: when `blue_score(B)` exceeds
  `blue_score(pp) + depth`, every stored value below the required blue score
  gives the chain block with the largest blue score below it.
* `calculateBlockAtDepth_boundary`: at `blue_score(B) = blue_score(pp) + depth`
  the result depends on the pruning point the stored value was computed under.
-/

namespace RustyKaspa.Consensus

open ChainWalk

/-- The fields of `GhostdagData` (`consensus/src/model/stores/ghostdag.rs`)
that `calculate_block_at_depth` reads. -/
structure GhostdagData where
  blueScore : Nat
  selectedParent : Hash
  deriving DecidableEq, Repr

/-- `BlockDepthType` (`block_depth.rs` lines 15–18). -/
inductive BlockDepthType where
  | mergeRoot
  | finality
  deriving DecidableEq, Repr

/-- `BlockDepthManager` (`block_depth.rs` lines 20–29), with each store and
service as the answers it gives: the depth store's `merge_depth_root` and
`finality_point`, the ghostdag store's `get_blue_score`, and the reachability
service's `is_chain_ancestor_of` and `forward_chain_iterator(from, to, true)`,
collected. Every read the function makes is `unwrap`ped, so each is total. -/
structure BlockDepthManager where
  mergeDepth : Nat
  finalityDepth : Nat
  genesisHash : Hash
  mergeDepthRoot : Hash → Hash
  finalityPoint : Hash → Hash
  getBlueScore : Hash → Nat
  isChainAncestorOf : Hash → Hash → Bool
  forwardChainIterator : Hash → Hash → List Hash

/-- The depth of a `BlockDepthType` (`block_depth.rs` lines 63–66). -/
def BlockDepthManager.depth (m : BlockDepthManager) : BlockDepthType → Nat
  | .mergeRoot => m.mergeDepth
  | .finality => m.finalityDepth

/-- The depth store's value for a block (`block_depth.rs` lines 84–87). -/
def BlockDepthManager.storedAtDepth (m : BlockDepthManager) : BlockDepthType → Hash → Hash
  | .mergeRoot => m.mergeDepthRoot
  | .finality => m.finalityPoint

/-- `calculate_block_at_depth` (`block_depth.rs` lines 59–105). Blue scores and
depths are `u64`; they are far below `2⁶⁴`, so `pp_bs + depth` does not wrap,
and `blue_score - depth` is reached only when `depth ≤ blue_score`. -/
def BlockDepthManager.calculateBlockAtDepth (m : BlockDepthManager) (ghostdagData : GhostdagData)
    (depthType : BlockDepthType) (pruningPoint : Hash) : Hash :=
  if ghostdagData.selectedParent = ORIGIN then ORIGIN
  else if ghostdagData.blueScore < m.depth depthType then m.genesisHash
  else if ghostdagData.blueScore < m.getBlueScore pruningPoint + m.depth depthType then ORIGIN
  else if !m.isChainAncestorOf pruningPoint ghostdagData.selectedParent then ORIGIN
  else
    let stored := m.storedAtDepth depthType ghostdagData.selectedParent
    let current := if stored = ORIGIN then pruningPoint else stored
    let requiredBlueScore := ghostdagData.blueScore - m.depth depthType
    -- `if get_blue_score(chain_block) >= required_blue_score { break }; current = chain_block`
    advanceWhile (fun chainBlock => m.getBlueScore chainBlock < requiredBlueScore) current
      (m.forwardChainIterator current ghostdagData.selectedParent)

/-- `calc_merge_depth_root` (`block_depth.rs` lines 51–53). -/
def BlockDepthManager.calcMergeDepthRoot (m : BlockDepthManager) (ghostdagData : GhostdagData)
    (pruningPoint : Hash) : Hash :=
  m.calculateBlockAtDepth ghostdagData .mergeRoot pruningPoint

/-- `calc_finality_point` (`block_depth.rs` lines 55–57). -/
def BlockDepthManager.calcFinalityPoint (m : BlockDepthManager) (ghostdagData : GhostdagData)
    (pruningPoint : Hash) : Hash :=
  m.calculateBlockAtDepth ghostdagData .finality pruningPoint

/-! ## The selected chain -/

/-- The ghostdag store and the reachability service answer for `chain`, the
selected chain of `tip` oldest block first: blue scores increase strictly along
it, its blocks are the chain ancestors of `tip` (`tip` included), and the
forward chain iterator from one of its blocks to `tip` yields the chain from
that block on (`consensus/src/model/services/reachability.rs` lines 12–16 and
135–144). -/
structure AnswersForChain (m : BlockDepthManager) (chain : List Hash) (tip : Hash) : Prop where
  last : chain.getLast? = some tip
  increasing : chain.Pairwise (fun a b => m.getBlueScore a < m.getBlueScore b)
  isChainAncestorOf_tip : ∀ a, m.isChainAncestorOf a tip = true ↔ a ∈ chain
  forwardChainIterator_tip : ∀ a ∈ chain, m.forwardChainIterator a tip = suffixFrom a chain

/-- The block at depth read off the selected chain alone, whatever was stored
before: on the selected chain `chain` of the selected parent, the block at or
above the pruning point `pp` with the largest blue score below `required`, or
`pp` when there is none. -/
def blockAtDepth (getBlueScore : Hash → Nat) (chain : List Hash) (pp : Hash) (required : Nat) :
    Hash :=
  (lastBelow getBlueScore required (suffixFrom pp chain)).getD pp

section Walk

variable {m : BlockDepthManager} {chain : List Hash} {ghostdagData : GhostdagData}
  {depthType : BlockDepthType} {pp : Hash}

/-- Past its early returns, `calculate_block_at_depth` is the forward walk from
the stored value, or from the pruning point when the stored value is `ORIGIN`. -/
theorem calculateBlockAtDepth_of_walk (hsp : ghostdagData.selectedParent ≠ ORIGIN)
    (hdepth : m.getBlueScore pp + m.depth depthType ≤ ghostdagData.blueScore)
    (hanc : m.isChainAncestorOf pp ghostdagData.selectedParent = true) :
    m.calculateBlockAtDepth ghostdagData depthType pp =
      advanceWhile (fun b => m.getBlueScore b < ghostdagData.blueScore - m.depth depthType)
        (if m.storedAtDepth depthType ghostdagData.selectedParent = ORIGIN then pp
          else m.storedAtDepth depthType ghostdagData.selectedParent)
        (m.forwardChainIterator
          (if m.storedAtDepth depthType ghostdagData.selectedParent = ORIGIN then pp
            else m.storedAtDepth depthType ghostdagData.selectedParent)
          ghostdagData.selectedParent) := by
  have hgen : ¬ ghostdagData.blueScore < m.depth depthType := by omega
  have hpp : ¬ ghostdagData.blueScore < m.getBlueScore pp + m.depth depthType := by omega
  simp only [BlockDepthManager.calculateBlockAtDepth, if_neg hsp, if_neg hgen, if_neg hpp, hanc,
    Bool.not_true, Bool.false_eq_true, if_false]

/-- A walk from a chain block below the required blue score ends at the chain
block with the largest blue score below it, which is at or above any other
chain block below it. -/
theorem walk_eq_blockAtDepth (hc : AnswersForChain m chain ghostdagData.selectedParent)
    {current : Hash} {required : Nat} (hcur : current ∈ chain)
    (hcurlt : m.getBlueScore current < required) (hpp : pp ∈ chain)
    (hpplt : m.getBlueScore pp < required) :
    advanceWhile (fun b => m.getBlueScore b < required) current
        (m.forwardChainIterator current ghostdagData.selectedParent) =
      blockAtDepth m.getBlueScore chain pp required := by
  rw [hc.forwardChainIterator_tip current hcur]
  have hwalk := advanceWhile_from_mem hc.increasing hcur hcurlt
  unfold blockAtDepth
  rw [lastBelow_from_mem hpp hpplt, ← hwalk]
  rfl

/-- **History independence away from the boundary.** When the block's blue
score exceeds the pruning point's by more than the depth, every stored value
that is `ORIGIN` or a chain block below the required blue score gives the same
block: the chain block at or above the pruning point with the largest blue
score below `blue_score - depth`. -/
theorem calculateBlockAtDepth_eq_blockAtDepth (hc : AnswersForChain m chain ghostdagData.selectedParent)
    (hsp : ghostdagData.selectedParent ≠ ORIGIN) (hpp : pp ∈ chain)
    (hlt : m.getBlueScore pp + m.depth depthType < ghostdagData.blueScore)
    (hstored : m.storedAtDepth depthType ghostdagData.selectedParent = ORIGIN ∨
      (m.storedAtDepth depthType ghostdagData.selectedParent ∈ chain ∧
        m.getBlueScore (m.storedAtDepth depthType ghostdagData.selectedParent) + m.depth depthType <
          ghostdagData.blueScore)) :
    m.calculateBlockAtDepth ghostdagData depthType pp =
      blockAtDepth m.getBlueScore chain pp (ghostdagData.blueScore - m.depth depthType) := by
  rw [calculateBlockAtDepth_of_walk hsp hlt.le ((hc.isChainAncestorOf_tip pp).mpr hpp)]
  have hpplt : m.getBlueScore pp < ghostdagData.blueScore - m.depth depthType := by omega
  by_cases horigin : m.storedAtDepth depthType ghostdagData.selectedParent = ORIGIN
  · rw [if_pos horigin]
    exact walk_eq_blockAtDepth hc hpp hpplt hpp hpplt
  · -- a stored block is below the required blue score, so the walk starts there
    obtain ⟨hmem, hbs⟩ := hstored.resolve_left horigin
    rw [if_neg horigin]
    exact walk_eq_blockAtDepth hc hmem (by omega) hpp hpplt

/-- **The depth store's invariant.** If the stored value of the selected parent
is `ORIGIN` or a chain block at least `depth` below the block, so is the value
`calculate_block_at_depth` returns, unless it is the genesis. -/
theorem calculateBlockAtDepth_stored (hc : AnswersForChain m chain ghostdagData.selectedParent)
    (hstored : m.storedAtDepth depthType ghostdagData.selectedParent = ORIGIN ∨
      (m.storedAtDepth depthType ghostdagData.selectedParent ∈ chain ∧
        m.getBlueScore (m.storedAtDepth depthType ghostdagData.selectedParent) + m.depth depthType ≤
          ghostdagData.blueScore)) :
    m.calculateBlockAtDepth ghostdagData depthType pp = ORIGIN ∨
      m.calculateBlockAtDepth ghostdagData depthType pp = m.genesisHash ∨
      (m.calculateBlockAtDepth ghostdagData depthType pp ∈ chain ∧
        m.getBlueScore (m.calculateBlockAtDepth ghostdagData depthType pp) + m.depth depthType ≤
          ghostdagData.blueScore) := by
  by_cases hsp : ghostdagData.selectedParent = ORIGIN
  · left
    simp [BlockDepthManager.calculateBlockAtDepth, hsp]
  by_cases hgen : ghostdagData.blueScore < m.depth depthType
  · right; left
    simp [BlockDepthManager.calculateBlockAtDepth, hsp, hgen]
  by_cases hdepth : ghostdagData.blueScore < m.getBlueScore pp + m.depth depthType
  · left
    simp [BlockDepthManager.calculateBlockAtDepth, hsp, hgen, hdepth]
  by_cases hanc : m.isChainAncestorOf pp ghostdagData.selectedParent = true
  swap
  · left
    simp [BlockDepthManager.calculateBlockAtDepth, hsp, hgen, hdepth, hanc]
  right; right
  rw [calculateBlockAtDepth_of_walk hsp (by omega) hanc]
  -- the walk starts at a chain block `depth` below the block, and moves only to
  -- chain blocks below the required blue score
  obtain ⟨hcur, hcurle⟩ : (if m.storedAtDepth depthType ghostdagData.selectedParent = ORIGIN then pp
      else m.storedAtDepth depthType ghostdagData.selectedParent) ∈ chain ∧
      m.getBlueScore (if m.storedAtDepth depthType ghostdagData.selectedParent = ORIGIN then pp
        else m.storedAtDepth depthType ghostdagData.selectedParent) + m.depth depthType ≤
        ghostdagData.blueScore := by
    by_cases horigin : m.storedAtDepth depthType ghostdagData.selectedParent = ORIGIN
    · rw [if_pos horigin]
      exact ⟨(hc.isChainAncestorOf_tip pp).mp hanc, by omega⟩
    · rw [if_neg horigin]
      exact hstored.resolve_left horigin
  rw [hc.forwardChainIterator_tip _ hcur]
  rcases advanceWhile_eq_or_mem (fun b => decide (m.getBlueScore b < ghostdagData.blueScore -
      m.depth depthType)) _ (suffixFrom _ chain) with h | ⟨hmem, hpass⟩
  · rw [h]
    exact ⟨hcur, hcurle⟩
  · refine ⟨(suffixFrom_sublist _ chain).subset hmem, ?_⟩
    simp only [decide_eq_true_eq] at hpass
    omega

end Walk

/-! ## The boundary -/

/-- The chain `0 ← 1 ← 2 ← 3` of blocks whose hashes are their blue scores, with
merge and finality depth `2`, genesis `0`, and the depth store `stored`. -/
def boundaryManager (stored : Hash → Hash) : BlockDepthManager where
  mergeDepth := 2
  finalityDepth := 2
  genesisHash := 0#256
  mergeDepthRoot := stored
  finalityPoint := stored
  getBlueScore := fun h => h.toNat
  isChainAncestorOf := fun a b => decide (a.toNat ≤ b.toNat)
  forwardChainIterator := fun a b =>
    (List.range' a.toNat (b.toNat + 1 - a.toNat)).map (BitVec.ofNat 256)

/-- The selected chain of block `3`. -/
def boundaryChain : List Hash := [0#256, 1#256, 2#256, 3#256]

/-- The services of `boundaryManager` answer for the chain of block `3`. -/
theorem boundaryManager_answersForChain (stored : Hash → Hash) :
    AnswersForChain (boundaryManager stored) boundaryChain 3#256 where
  last := rfl
  increasing := by
    simp only [boundaryManager]
    decide
  isChainAncestorOf_tip := by
    intro a
    have hmem : a ∈ boundaryChain ↔ a.toNat ≤ 3 := by
      simp only [boundaryChain, List.mem_cons, List.not_mem_nil, or_false, BitVec.toNat_eq]
      have := a.isLt
      simp only [BitVec.toNat_ofNat]
      omega
    simp [boundaryManager, hmem]
  forwardChainIterator_tip := by
    intro a ha
    simp only [boundaryChain, List.mem_cons, List.not_mem_nil, or_false] at ha
    rcases ha with rfl | rfl | rfl | rfl <;> rfl

/-- At the boundary `blue_score(B) = blue_score(pp) + depth` the merge depth root
depends on the history. In the first one, every block of the chain was processed
under pruning point `0` and stored merge depth root `0`; in the second, block `3`
was processed under pruning point `2` and stored `ORIGIN`. For `B` with blue
score `4` and selected parent `3` under pruning point `2`, the first history
gives block `1`, below the pruning point, and the second gives `2`, the block
at depth read off the chain (`blockAtDepth`). -/
theorem calculateBlockAtDepth_boundary :
    AnswersForChain (boundaryManager fun _ => 0#256) boundaryChain 3#256 ∧
      (boundaryManager fun _ => 0#256).calcMergeDepthRoot ⟨1, 0#256⟩ 0#256 = 0#256 ∧
      (boundaryManager fun _ => 0#256).calcMergeDepthRoot ⟨2, 1#256⟩ 0#256 = 0#256 ∧
      (boundaryManager fun _ => 0#256).calcMergeDepthRoot ⟨3, 2#256⟩ 0#256 = 0#256 ∧
      (boundaryManager fun _ => 0#256).calcMergeDepthRoot ⟨3, 2#256⟩ 2#256 = ORIGIN ∧
      (boundaryManager fun _ => 0#256).calcMergeDepthRoot ⟨4, 3#256⟩ 2#256 = 1#256 ∧
      (boundaryManager fun h => if h = 3#256 then ORIGIN else 0#256).calcMergeDepthRoot
        ⟨4, 3#256⟩ 2#256 = 2#256 ∧
      blockAtDepth (fun h => h.toNat) boundaryChain 2#256 2 = 2#256 :=
  ⟨boundaryManager_answersForChain _, by decide⟩

end RustyKaspa.Consensus
