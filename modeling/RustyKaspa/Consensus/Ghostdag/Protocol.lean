import RustyKaspa.Consensus.Basic
import RustyKaspa.Consensus.Difficulty
import RustyKaspa.Lib.Worklist
import Mathlib.Data.List.AList
import Mathlib.Data.List.Sort
import Mathlib.Data.Prod.Lex

/-!
# GHOSTDAG

Model of `GhostdagManager::ghostdag` (`consensus/src/processes/ghostdag/protocol.rs`
lines 99–283), the mergeset it colors (`ghostdag/mergeset.rs` lines 9–50,
`ghostdag/ordering.rs` lines 14–50) and the `GhostdagData` it builds
(`consensus/src/model/stores/ghostdag.rs` lines 22–30 and 84–223).

The new block's selected parent is its parent of largest blue work (ties broken
by hash). The other blocks of its past that are not in the past of the selected
parent form the mergeset; they are found by a queue search over the parents and
visited in ascending blue-work order. A candidate is colored blue unless the
blue set would break the `k`-cluster rule: the candidate has at most `k` blues
in its anticone, and each of those has fewer than `k` blues in its own
anticone. Both are found by walking the selected chain down from the new block.

The stores and the reachability service are the answers they give
(`GhostdagManager`): every read is `unwrap`ped, so a missing entry is a panic,
`none`. The three `loop`s of the source (the mergeset search and the two chain
walks) take a `fuel` argument; `none` is also the fuel running out.

`KType` is `u16`: the manager's `k` leaves room for `k + 1`, which
`check_blue_candidate` forms, and every count the coloring keeps is at most
`k + 1`, so the counts are numbers. The blue score is a `u64`, whose `+`
panics on overflow in every build of the workspace (`Math.overflowCheckedAdd`).
The blue work is a `Uint192`, whose `+` and `Sum` (`Math.checkedAdd`,
`Math.checkedSum`) panic on overflow in a debug build and wrap in a release
build.
-/

namespace RustyKaspa.Consensus.Ghostdag

/-- `BlockHashMap<V>`: a map keyed by block hashes. -/
abbrev BlockHashMap (V : Type) := AList fun _ : Hash => V

/-- `GhostdagData` (`stores/ghostdag.rs` lines 22–30). -/
structure GhostdagData where
  blueScore : ℕ
  blueWork : ℕ
  selectedParent : Hash
  mergesetBlues : List Hash
  mergesetReds : List Hash
  bluesAnticoneSizes : BlockHashMap ℕ

namespace GhostdagData

/-- `GhostdagData::new_with_selected_parent` (lines 95–109): the selected parent
is the first mergeset blue, with no blue in its anticone. The `k` argument is
only a capacity hint. -/
def newWithSelectedParent (selectedParent : Hash) : GhostdagData where
  blueScore := 0
  blueWork := 0
  selectedParent := selectedParent
  mergesetBlues := [selectedParent]
  mergesetReds := []
  bluesAnticoneSizes := (∅ : BlockHashMap ℕ).insert selectedParent 0

/-- `GhostdagData::add_blue` (lines 199–213): the block joins the mergeset blues
with its blue anticone size, and every blue in its anticone gets one more. -/
def addBlue (d : GhostdagData) (block : Hash) (blueAnticoneSize : ℕ)
    (blockBluesAnticoneSizes : BlockHashMap ℕ) : GhostdagData :=
  { d with
    mergesetBlues := d.mergesetBlues ++ [block]
    bluesAnticoneSizes := blockBluesAnticoneSizes.entries.foldl (fun sizes e => sizes.insert e.1 (e.2 + 1))
      (d.bluesAnticoneSizes.insert block blueAnticoneSize) }

/-- `GhostdagData::add_red` (lines 215–218). -/
def addRed (d : GhostdagData) (block : Hash) : GhostdagData :=
  { d with mergesetReds := d.mergesetReds ++ [block] }

/-- `GhostdagData::finalize_score_and_work` (lines 220–223). -/
def finalizeScoreAndWork (d : GhostdagData) (blueScore blueWork : ℕ) : GhostdagData :=
  { d with blueScore := blueScore, blueWork := blueWork }

@[simp] theorem newWithSelectedParent_selectedParent (sp : Hash) :
    (newWithSelectedParent sp).selectedParent = sp := rfl

@[simp] theorem newWithSelectedParent_mergesetBlues (sp : Hash) :
    (newWithSelectedParent sp).mergesetBlues = [sp] := rfl

@[simp] theorem newWithSelectedParent_mergesetReds (sp : Hash) :
    (newWithSelectedParent sp).mergesetReds = [] := rfl

@[simp] theorem newWithSelectedParent_bluesAnticoneSizes (sp : Hash) :
    (newWithSelectedParent sp).bluesAnticoneSizes = (∅ : BlockHashMap ℕ).insert sp 0 := rfl

@[simp] theorem addBlue_selectedParent (d : GhostdagData) (block : Hash) (size : ℕ) (sizes : BlockHashMap ℕ) :
    (d.addBlue block size sizes).selectedParent = d.selectedParent := rfl

@[simp] theorem addBlue_mergesetBlues (d : GhostdagData) (block : Hash) (size : ℕ) (sizes : BlockHashMap ℕ) :
    (d.addBlue block size sizes).mergesetBlues = d.mergesetBlues ++ [block] := rfl

@[simp] theorem addBlue_mergesetReds (d : GhostdagData) (block : Hash) (size : ℕ) (sizes : BlockHashMap ℕ) :
    (d.addBlue block size sizes).mergesetReds = d.mergesetReds := rfl

@[simp] theorem addRed_selectedParent (d : GhostdagData) (block : Hash) :
    (d.addRed block).selectedParent = d.selectedParent := rfl

@[simp] theorem addRed_mergesetBlues (d : GhostdagData) (block : Hash) :
    (d.addRed block).mergesetBlues = d.mergesetBlues := rfl

@[simp] theorem addRed_mergesetReds (d : GhostdagData) (block : Hash) :
    (d.addRed block).mergesetReds = d.mergesetReds ++ [block] := rfl

@[simp] theorem addRed_bluesAnticoneSizes (d : GhostdagData) (block : Hash) :
    (d.addRed block).bluesAnticoneSizes = d.bluesAnticoneSizes := rfl

@[simp] theorem finalizeScoreAndWork_selectedParent (d : GhostdagData) (s w : ℕ) :
    (d.finalizeScoreAndWork s w).selectedParent = d.selectedParent := rfl

@[simp] theorem finalizeScoreAndWork_mergesetBlues (d : GhostdagData) (s w : ℕ) :
    (d.finalizeScoreAndWork s w).mergesetBlues = d.mergesetBlues := rfl

@[simp] theorem finalizeScoreAndWork_mergesetReds (d : GhostdagData) (s w : ℕ) :
    (d.finalizeScoreAndWork s w).mergesetReds = d.mergesetReds := rfl

@[simp] theorem finalizeScoreAndWork_bluesAnticoneSizes (d : GhostdagData) (s w : ℕ) :
    (d.finalizeScoreAndWork s w).bluesAnticoneSizes = d.bluesAnticoneSizes := rfl

end GhostdagData

/-- `GhostdagManager::genesis_ghostdag_data` (lines 77–86). -/
def genesisGhostdagData : GhostdagData where
  blueScore := 0
  blueWork := 0
  selectedParent := ORIGIN
  mergesetBlues := []
  mergesetReds := []
  bluesAnticoneSizes := ∅

/-! ## Ordering blocks -/

/-- `SortableBlock` (`ghostdag/ordering.rs` lines 14–43). -/
structure SortableBlock where
  hash : Hash
  blueWork : ℕ
  deriving DecidableEq

namespace SortableBlock

/-- What `cmp` compares: the blue work, then the hash. -/
def key (b : SortableBlock) : Lex (ℕ × ℕ) := toLex (b.blueWork, b.hash.toNat)

theorem key_injective : Function.Injective key := by
  rintro ⟨h₁, w₁⟩ ⟨h₂, w₂⟩ heq
  simp only [key, toLex_inj, Prod.mk.injEq] at heq
  rw [heq.1, BitVec.toNat_inj.mp heq.2]

/-- `Ord for SortableBlock`. -/
instance : LinearOrder SortableBlock := LinearOrder.lift' key key_injective

theorem lt_iff {a b : SortableBlock} :
    a < b ↔ a.blueWork < b.blueWork ∨ (a.blueWork = b.blueWork ∧ a.hash.toNat < b.hash.toNat) :=
  Prod.Lex.toLex_lt_toLex

end SortableBlock

/-! ## The manager -/

/-- `GhostdagManager` (`protocol.rs` lines 24–41), with each store and service
as the answers it gives: the ghostdag data of a block (`get_data` and the reads
of its fields), the parents of a block (`get_parents`), the `bits` of its header
(`get_bits`) and `is_dag_ancestor_of`. -/
structure GhostdagManager where
  genesisHash : Hash
  k : ℕ
  /-- `k + 1` is a `KType`. -/
  k_lt : k + 1 < 2 ^ 16
  ghostdagStore : Hash → Option GhostdagData
  relationsStore : Hash → Option (List Hash)
  headersStore : Hash → Option (BitVec 32)
  reachabilityService : Hash → Hash → Bool
  levelWork : ℕ
  /-- The level work is a `BlueWorkType`. -/
  levelWork_lt : levelWork < 2 ^ 192

namespace GhostdagManager

variable (m : GhostdagManager)

/-- `get_blue_work`. -/
def blueWork (hash : Hash) : Option ℕ := (m.ghostdagStore hash).map GhostdagData.blueWork

/-- `get_blue_score`. -/
def blueScore (hash : Hash) : Option ℕ := (m.ghostdagStore hash).map GhostdagData.blueScore

/-- A block with the blue work the store holds for it. -/
def sortableBlock (hash : Hash) : Option SortableBlock := (SortableBlock.mk hash) <$> m.blueWork hash

/-- `find_selected_parent` (lines 99–106): `max` keeps the later of two equal
elements, as Rust's `Iterator::max` does. -/
def findSelectedParent (parents : List Hash) : Option Hash :=
  (parents.mapM m.sortableBlock).bind fun
    | [] => none
    | first :: rest => some (rest.foldl max first).hash

/-- `unordered_mergeset_without_selected_parent` (`mergeset.rs` lines 9–40): the
queue search from the parents other than the selected parent, over the parents
of each block, that stops at the blocks in the past of the selected parent. -/
def unorderedMergesetWithoutSelectedParent (fuel : ℕ) (selectedParent : Hash) (parents : List Hash) :
    Option (List Hash) :=
  Worklist.search m.relationsStore (fun parent => m.reachabilityService parent selectedParent) fuel
    (Worklist.init (parents.filter (· ≠ selectedParent)))

/-- `sort_blocks` (`ordering.rs` lines 45–50): `sort_by_cached_key` sorts the
pairs of a key and a position, which are all different, so it returns the
stable sort by the key, here the insertion sort. -/
def sortBlocks (blocks : List Hash) : Option (List Hash) :=
  (blocks.mapM m.sortableBlock).map fun sortable =>
    (sortable.insertionSort fun a b => a ≤ b).map SortableBlock.hash

/-- `ordered_mergeset_without_selected_parent` (`mergeset.rs` lines 43–45). -/
def orderedMergesetWithoutSelectedParent (fuel : ℕ) (selectedParent : Hash) (parents : List Hash) :
    Option (List Hash) :=
  (m.unorderedMergesetWithoutSelectedParent fuel selectedParent parents).bind m.sortBlocks

/-- The loop of `blue_anticone_size` (lines 230–245), at most `fuel` turns: the
first map of blue anticone sizes down the selected chain that has the block. -/
def blueAnticoneSizeLoop (block : Hash) : ℕ → BlockHashMap ℕ → Hash → Option ℕ
  | 0, _, _ => none
  | fuel + 1, currentBluesAnticoneSizes, currentSelectedParent =>
    match currentBluesAnticoneSizes.lookup block with
    | some size => some size
    | none =>
      -- `panic!`: the block is not in the blue set of the context
      if currentSelectedParent = m.genesisHash ∨ currentSelectedParent = ORIGIN then none
      else (m.ghostdagStore currentSelectedParent).bind fun data =>
        blueAnticoneSizeLoop block fuel data.bluesAnticoneSizes data.selectedParent

/-- `blue_anticone_size` (lines 228–245). -/
def blueAnticoneSize (fuel : ℕ) (block : Hash) (context : GhostdagData) : Option ℕ :=
  m.blueAnticoneSizeLoop block fuel context.bluesAnticoneSizes context.selectedParent

/-- `ColoringState` (lines 292–297). -/
inductive ColoringState where
  | blue
  | red
  | pending
  deriving DecidableEq, Repr

/-- `ColoringOutput` (lines 299–303): a blue candidate carries its blue
anticone size and the blue anticone sizes of the blues in its anticone. -/
inductive ColoringOutput where
  | blue (blueAnticoneSize : ℕ) (bluesAnticoneSizes : BlockHashMap ℕ)
  | red

/-- `ChainBlock` (lines 286–290): `hash` is `none` for the new block. -/
structure ChainBlock where
  hash : Option Hash
  data : GhostdagData

/-- The loop over the mergeset blues of a chain block in
`check_blue_candidate_with_chain_block` (lines 193–225), on the candidate's map
of blue anticone sizes and its blue anticone size. -/
def checkPeers (fuel : ℕ) (newBlockData : GhostdagData) (blueCandidate : Hash) :
    List Hash → BlockHashMap ℕ → ℕ → Option (ColoringState × BlockHashMap ℕ × ℕ)
  | [], candidateBluesAnticoneSizes, candidateBlueAnticoneSize =>
    some (.pending, candidateBluesAnticoneSizes, candidateBlueAnticoneSize)
  | peer :: peers, candidateBluesAnticoneSizes, candidateBlueAnticoneSize =>
    -- a peer in the past of the candidate is not in its anticone
    if m.reachabilityService peer blueCandidate then
      checkPeers fuel newBlockData blueCandidate peers candidateBluesAnticoneSizes candidateBlueAnticoneSize
    else
      (m.blueAnticoneSize fuel peer newBlockData).bind fun peerBlueAnticoneSize =>
        if candidateBlueAnticoneSize + 1 > m.k then
          some (.red, candidateBluesAnticoneSizes.insert peer peerBlueAnticoneSize, candidateBlueAnticoneSize + 1)
        else if peerBlueAnticoneSize = m.k then
          some (.red, candidateBluesAnticoneSizes.insert peer peerBlueAnticoneSize, candidateBlueAnticoneSize + 1)
        -- `assert!(peer_blue_anticone_size <= k)`
        else if peerBlueAnticoneSize ≤ m.k then
          checkPeers fuel newBlockData blueCandidate peers
            (candidateBluesAnticoneSizes.insert peer peerBlueAnticoneSize) (candidateBlueAnticoneSize + 1)
        else none

/-- `check_blue_candidate_with_chain_block` (lines 168–226). -/
def checkBlueCandidateWithChainBlock (fuel : ℕ) (newBlockData : GhostdagData) (chainBlock : ChainBlock)
    (blueCandidate : Hash) (candidateBluesAnticoneSizes : BlockHashMap ℕ) (candidateBlueAnticoneSize : ℕ) :
    Option (ColoringState × BlockHashMap ℕ × ℕ) :=
  -- every remaining blue is in the past of a chain block that is in the past of the candidate
  if chainBlock.hash.any fun hash => m.reachabilityService hash blueCandidate then
    some (.blue, candidateBluesAnticoneSizes, candidateBlueAnticoneSize)
  else
    m.checkPeers fuel newBlockData blueCandidate chainBlock.data.mergesetBlues candidateBluesAnticoneSizes
      candidateBlueAnticoneSize

/-- The `loop` of `check_blue_candidate` (lines 262–282), at most `n` turns, from
the new block down its selected chain. -/
def checkBlueCandidateLoop (fuel : ℕ) (newBlockData : GhostdagData) (blueCandidate : Hash) :
    ℕ → ChainBlock → BlockHashMap ℕ → ℕ → Option ColoringOutput
  | 0, _, _, _ => none
  | n + 1, chainBlock, candidateBluesAnticoneSizes, candidateBlueAnticoneSize =>
    (m.checkBlueCandidateWithChainBlock fuel newBlockData chainBlock blueCandidate candidateBluesAnticoneSizes
      candidateBlueAnticoneSize).bind fun
      | (.blue, sizes, size) => some (.blue size sizes)
      | (.red, _, _) => some .red
      | (.pending, sizes, size) =>
        (m.ghostdagStore chainBlock.data.selectedParent).bind fun data =>
          checkBlueCandidateLoop fuel newBlockData blueCandidate n ⟨some chainBlock.data.selectedParent, data⟩
            sizes size

/-- `check_blue_candidate` (lines 247–283); `len() as KType` keeps the length
modulo `2 ^ 16`. -/
def checkBlueCandidate (fuel : ℕ) (newBlockData : GhostdagData) (blueCandidate : Hash) : Option ColoringOutput :=
  -- the mergeset blues hold at most `k + 1` blocks, the selected parent included
  if newBlockData.mergesetBlues.length % 2 ^ 16 = m.k + 1 then some .red
  else m.checkBlueCandidateLoop fuel newBlockData blueCandidate fuel ⟨none, newBlockData⟩ ∅ 0

/-- One turn of the coloring loop of `ghostdag` (lines 142–151). -/
def colorCandidate (fuel : ℕ) (newBlockData : GhostdagData) (blueCandidate : Hash) : Option GhostdagData :=
  (m.checkBlueCandidate fuel newBlockData blueCandidate).map fun
    | .blue blueAnticoneSize bluesAnticoneSizes => newBlockData.addBlue blueCandidate blueAnticoneSize bluesAnticoneSizes
    | .red => newBlockData.addRed blueCandidate

/-- The work the mergeset blues add (lines 155–160): the `Uint192` sum of the
`calc_work` of each, raised to the level work. -/
def addedBlueWork (profile : Math.Profile) (mergesetBlues : List Hash) : Option ℕ :=
  (mergesetBlues.mapM fun hash =>
    (m.headersStore hash).bind fun bits => (calcWork profile bits).map fun work => max work m.levelWork).bind
    (Math.checkedSum profile 192)

/-- `ghostdag` (lines 126–166) in a build of the given profile. -/
def ghostdag (profile : Math.Profile) (fuel : ℕ) (parents : List Hash) : Option GhostdagData :=
  -- `assert!(!parents.is_empty())`
  if parents = [] then none
  else (m.findSelectedParent parents).bind fun selectedParent =>
    if selectedParent = ORIGIN then some (GhostdagData.newWithSelectedParent selectedParent)
    else
      (m.orderedMergesetWithoutSelectedParent fuel selectedParent parents).bind fun orderedMergeset =>
      (orderedMergeset.foldlM (m.colorCandidate fuel) (GhostdagData.newWithSelectedParent selectedParent)).bind
        fun newBlockData =>
      (m.blueScore selectedParent).bind fun selectedParentBlueScore =>
      -- `u64` and `Uint192` additions
      (Math.overflowCheckedAdd 64 selectedParentBlueScore newBlockData.mergesetBlues.length).bind fun blueScore =>
      (m.addedBlueWork profile newBlockData.mergesetBlues).bind fun addedBlueWork =>
      (m.blueWork selectedParent).bind fun selectedParentBlueWork =>
      (Math.checkedAdd profile 192 selectedParentBlueWork addedBlueWork).map fun blueWork =>
        newBlockData.finalizeScoreAndWork blueScore blueWork

end GhostdagManager

end RustyKaspa.Consensus.Ghostdag
