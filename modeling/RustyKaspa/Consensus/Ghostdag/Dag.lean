import RustyKaspa.Consensus.Ghostdag.Mergeset
import Mathlib.Algebra.Order.BigOperators.Group.List

/-!
# `ghostdag` returns on a DAG grown from genesis

A node adds blocks one at a time: the header processor computes the ghostdag
data of a new header from its parents, commits the data, the parents and the
header to the stores, and the reachability service learns the block. `Stores`
is what the stores hold, and `Reachable` the stores a node reaches from
genesis so. `Valid` is what holds of each of them:

* every block has ghostdag data within the `k`-cluster bounds, its parents
  among the blocks, and header bits whose work `calc_work` computes; only
  blocks have headers;
* the selected parent of every block other than genesis is a block committed
  before it, so the selected chain of a block comes down to genesis;
* the reachability service puts genesis in the past of every block.

On such stores every loop of `ghostdag` ends and nothing it `unwrap`s is
missing. The mergeset search visits blocks only. Both walks down the selected
chain stop at genesis at the latest: the candidate is in the past of genesis as
a chain block, and a peer's blue anticone size is found in the data of the chain
block it was a blue of, which the walk reaches before genesis (`ChainTo`).

What is left are the adds of the blue score and the blue work. The `u64` blue
score is checked for overflow in every build; the `Uint192` blue work wraps in
a release build and panics on overflow in a debug build. So `ghostdag` returns
while the sums fit. Every block has a blue score of at most `k + 1` per block
held, and in a debug build a blue work of at most its blue score times the
largest work of a header (`Reachable.blue_le`).

Results:
* `Stores.Valid.ghostdag_isSome`: on valid stores `ghostdag` returns for every
  nonempty list of parents among the blocks, when the blue scores, and in a
  debug build the blue works, have room for one more block.
* `Stores.Valid.addBlock`: committing a block with the data `ghostdag` returns
  keeps the stores valid.
* `Stores.ghostdag_returns_of_reachable`: on every store a node reaches from
  genesis, `ghostdag` returns while the number of blocks held, one more, times
  `k + 1` fits a `u64`, and in a debug build that times the largest work a
  `Uint192`.
* `Stores.selectedChain_reaches_genesis`: on those stores the selected chain of
  every block comes down to genesis.
-/

namespace RustyKaspa.Consensus.Ghostdag

open RustyKaspa.Consensus.Ghostdag.GhostdagData

/-! ## What each step needs to return -/

namespace GhostdagManager

variable {m : GhostdagManager}

theorem findSelectedParent_mem {parents : List Hash} {sp : Hash} (h : m.findSelectedParent parents = some sp) :
    sp ∈ parents := by
  obtain ⟨sortable, hsortable, h⟩ := Option.bind_eq_some_iff.mp h
  have hmap := mapM_sortableBlock_eq_some hsortable
  match sortable, h with
  | first :: rest, h =>
    rw [Option.some_inj] at h
    have hmax : rest.foldl max first ∈ first :: rest := List.max?_mem List.max?_cons'
    rw [hmap.2] at hmax
    obtain ⟨b, hb, hkey⟩ := List.mem_map.mp hmax
    rw [← h, ← hkey, sortKey_hash]
    exact hb

theorem mapM_sortableBlock_of_isSome : ∀ {blocks : List Hash}, (∀ b ∈ blocks, (m.blueWork b).isSome) →
    blocks.mapM m.sortableBlock = some (blocks.map m.sortKey)
  | [], _ => rfl
  | b :: bs, h => by
    obtain ⟨work, hwork⟩ := Option.isSome_iff_exists.mp (h b List.mem_cons_self)
    have hrest := mapM_sortableBlock_of_isSome fun b' hb' => h b' (List.mem_cons_of_mem b hb')
    simp [List.mapM_cons, sortableBlock, hwork, hrest, sortKey]

theorem findSelectedParent_isSome {parents : List Hash} (hne : parents ≠ [])
    (h : ∀ p ∈ parents, (m.blueWork p).isSome) : ∃ sp, m.findSelectedParent parents = some sp := by
  obtain ⟨first, rest, rfl⟩ := List.exists_cons_of_ne_nil hne
  rw [findSelectedParent, mapM_sortableBlock_of_isSome h, List.map_cons]
  exact ⟨_, rfl⟩

theorem sortBlocks_isSome {blocks : List Hash} (h : ∀ b ∈ blocks, (m.blueWork b).isSome) :
    ∃ ordered, m.sortBlocks blocks = some ordered := by
  rw [sortBlocks, mapM_sortableBlock_of_isSome h]
  exact ⟨_, rfl⟩

theorem blueAnticoneSizeLoop_of_lookup {block : Hash} {sizes : BlockHashMap ℕ} {size : ℕ}
    (h : sizes.lookup block = some size) (n : ℕ) (current : Hash) :
    m.blueAnticoneSizeLoop block (n + 1) sizes current = some size := by
  simp [blueAnticoneSizeLoop, h]

/-- A block missing from the current map is looked up in the data of the
current selected parent, when that is neither genesis nor `ORIGIN`. -/
theorem blueAnticoneSizeLoop_of_lookup_none {block current : Hash} {sizes : BlockHashMap ℕ}
    {data : GhostdagData} (h : sizes.lookup block = none) (hgenesis : current ≠ m.genesisHash)
    (horigin : current ≠ ORIGIN) (hdata : m.ghostdagStore current = some data) (n : ℕ) :
    m.blueAnticoneSizeLoop block (n + 1) sizes current =
      m.blueAnticoneSizeLoop block n data.bluesAnticoneSizes data.selectedParent := by
  simp [blueAnticoneSizeLoop, h, hgenesis, horigin, hdata]

/-- The loop over a chain block's blues returns when every blue outside the past
of the candidate has a blue anticone size of at most `k`. -/
theorem checkPeers_isSome {fuel : ℕ} {newBlockData : GhostdagData} {blueCandidate : Hash} :
    ∀ {peers : List Hash}, (∀ p ∈ peers, m.reachabilityService p blueCandidate = false →
      ∃ size, m.blueAnticoneSize fuel p newBlockData = some size ∧ size ≤ m.k) →
    ∀ sizes size, ∃ r, m.checkPeers fuel newBlockData blueCandidate peers sizes size = some r
  | [], _, sizes, size => ⟨_, rfl⟩
  | peer :: peers, h, sizes, size => by
    have hrest : ∀ p ∈ peers, m.reachabilityService p blueCandidate = false →
        ∃ size, m.blueAnticoneSize fuel p newBlockData = some size ∧ size ≤ m.k :=
      fun p hp => h p (List.mem_cons_of_mem peer hp)
    rw [checkPeers]
    by_cases hpast : m.reachabilityService peer blueCandidate = true
    · rw [if_pos hpast]
      exact checkPeers_isSome hrest _ _
    · rw [if_neg hpast]
      obtain ⟨peerSize, hpeer, hle⟩ := h peer List.mem_cons_self (Bool.eq_false_iff.mpr hpast)
      rw [hpeer, Option.bind_some]
      split_ifs
      · exact ⟨_, rfl⟩
      · exact ⟨_, rfl⟩
      · exact checkPeers_isSome hrest _ _

/-- A turn of the chain walk returns once its chain block's check returns and,
if the candidate is still pending, the walk on from the selected parent does. -/
theorem checkBlueCandidateLoop_succ_isSome {fuel n : ℕ} {newBlockData : GhostdagData} {blueCandidate : Hash}
    {chainBlock : ChainBlock} {sizes : BlockHashMap ℕ} {size : ℕ} {r : ColoringState × BlockHashMap ℕ × ℕ}
    (hcheck : m.checkBlueCandidateWithChainBlock fuel newBlockData chainBlock blueCandidate sizes size = some r)
    (hpending : ∀ sizes' size', r = (.pending, sizes', size') →
      ∃ data, m.ghostdagStore chainBlock.data.selectedParent = some data ∧
        ∃ out, m.checkBlueCandidateLoop fuel newBlockData blueCandidate n
          ⟨some chainBlock.data.selectedParent, data⟩ sizes' size' = some out) :
    ∃ out, m.checkBlueCandidateLoop fuel newBlockData blueCandidate (n + 1) chainBlock sizes size = some out := by
  obtain ⟨state, sizes', size'⟩ := r
  cases state with
  | blue => simp [checkBlueCandidateLoop, hcheck]
  | red => simp [checkBlueCandidateLoop, hcheck]
  | pending =>
    obtain ⟨data, hdata, out, hout⟩ := hpending sizes' size' rfl
    exact ⟨out, by simp only [checkBlueCandidateLoop, hcheck, Option.bind_some, hdata, hout]⟩

/-- The works `added_blue_work` sums, one for each blue whose header bits have
a work. -/
theorem mapM_work_isSome {profile : Math.Profile} : ∀ {blues : List Hash},
    (∀ b ∈ blues, ∃ bits, m.headersStore b = some bits ∧ (calcWork profile bits).isSome) →
    ∃ works, (blues.mapM fun hash =>
      (m.headersStore hash).bind fun bits => (calcWork profile bits).map fun work => max work m.levelWork) =
        some works
  | [], _ => ⟨[], rfl⟩
  | b :: bs, h => by
    obtain ⟨bits, hbits, hwork⟩ := h b List.mem_cons_self
    obtain ⟨work, hwork⟩ := Option.isSome_iff_exists.mp hwork
    obtain ⟨works, hworks⟩ := mapM_work_isSome fun b' hb' => h b' (List.mem_cons_of_mem b hb')
    refine ⟨max work m.levelWork :: works, ?_⟩
    simp [List.mapM_cons, hbits, hwork, hworks]

/-- When every work and the level work are at most `W`, the works sum to at most
`W` per blue. -/
theorem sum_le_of_mapM_work {profile : Math.Profile} {W : ℕ} (hlevel : m.levelWork ≤ W) :
    ∀ {blues : List Hash} {works : List ℕ},
    (∀ b ∈ blues, ∀ bits w, m.headersStore b = some bits → calcWork profile bits = some w → w ≤ W) →
    (blues.mapM fun hash =>
      (m.headersStore hash).bind fun bits => (calcWork profile bits).map fun work => max work m.levelWork) =
        some works →
    works.sum ≤ blues.length * W
  | [], works, _, h => by
    simp only [List.mapM_nil, Option.pure_def, Option.some.injEq] at h
    simp [← h]
  | b :: bs, works, hW, h => by
    simp only [List.mapM_cons, Option.bind_eq_bind, Option.bind_eq_some_iff, Option.pure_def,
      Option.some.injEq] at h
    obtain ⟨x, hx, xs, hxs, rfl⟩ := h
    obtain ⟨bits, hbits, hx⟩ := hx
    obtain ⟨work, hwork, rfl⟩ := Option.map_eq_some_iff.mp hx
    have hhead : max work m.levelWork ≤ W := max_le (hW b List.mem_cons_self bits work hbits hwork) hlevel
    have htail := sum_le_of_mapM_work hlevel (fun b' hb' => hW b' (List.mem_cons_of_mem b hb')) hxs
    rw [List.sum_cons, List.length_cons, Nat.succ_mul]
    omega

/-- In a release build `added_blue_work` returns once every blue's header bits
have a work: the `Uint192` sum wraps. -/
theorem addedBlueWork_release_isSome {blues : List Hash}
    (h : ∀ b ∈ blues, ∃ bits, m.headersStore b = some bits ∧ (calcWork .release bits).isSome) :
    ∃ work, m.addedBlueWork .release blues = some work := by
  obtain ⟨works, hworks⟩ := mapM_work_isSome h
  obtain ⟨work, hwork⟩ := Math.checkedSum_release_isSome 192 works
  exact ⟨work, by rw [addedBlueWork, hworks, Option.bind_some, hwork]⟩

/-- In any build `added_blue_work` returns the sum of the works when each is at
most `W` and `W` per blue fits a `Uint192`. -/
theorem addedBlueWork_isSome_of_le {profile : Math.Profile} {blues : List Hash} {W : ℕ}
    (hlevel : m.levelWork ≤ W)
    (h : ∀ b ∈ blues, ∃ bits, m.headersStore b = some bits ∧ (calcWork profile bits).isSome)
    (hW : ∀ b ∈ blues, ∀ bits w, m.headersStore b = some bits → calcWork profile bits = some w → w ≤ W)
    (hfit : blues.length * W < 2 ^ 192) :
    ∃ work, m.addedBlueWork profile blues = some work ∧ work ≤ blues.length * W := by
  obtain ⟨works, hworks⟩ := mapM_work_isSome h
  have hsum := sum_le_of_mapM_work hlevel hW hworks
  refine ⟨works.sum, ?_, hsum⟩
  rw [addedBlueWork, hworks, Option.bind_some, Math.checkedSum_of_lt (by omega)]

/-- What a debug build's `added_blue_work` returns is at most `W` per blue. -/
theorem addedBlueWork_debug_le {blues : List Hash} {W added : ℕ} (hlevel : m.levelWork ≤ W)
    (hW : ∀ b ∈ blues, ∀ bits w, m.headersStore b = some bits → calcWork .debug bits = some w → w ≤ W)
    (h : m.addedBlueWork .debug blues = some added) : added ≤ blues.length * W := by
  obtain ⟨works, hworks, hsum⟩ := Option.bind_eq_some_iff.mp h
  rw [Math.checkedSum_debug hsum]
  exact sum_le_of_mapM_work hlevel hW hworks

end GhostdagManager

/-! ## The stores of a node -/

/-- What the stores of a node hold of its DAG: its blocks, newest first, and for
each its ghostdag data, its parents and the bits of its header, with the
reachability service over them. The node also stores `ORIGIN`, as the parent of
genesis with no parents of its own; `ghostdag` never reads those entries except
to stop the mergeset search at `ORIGIN`, which is in the past of every block,
so they are left out and genesis has no parents here. -/
structure Stores where
  blocks : List Hash
  ghostdagStore : Hash → Option GhostdagData
  relationsStore : Hash → Option (List Hash)
  headersStore : Hash → Option (BitVec 32)
  reachabilityService : Hash → Hash → Bool

namespace Stores

/-- The `GhostdagManager` over the stores, with the level work `0` of
`GhostdagManager::new`. -/
def manager (s : Stores) (genesisHash : Hash) (k : ℕ) (hk : k + 1 < 2 ^ 16) : GhostdagManager where
  genesisHash := genesisHash
  k := k
  k_lt := hk
  ghostdagStore := s.ghostdagStore
  relationsStore := s.relationsStore
  headersStore := s.headersStore
  reachabilityService := s.reachabilityService
  levelWork := 0
  levelWork_lt := by decide

/-- How many blocks the stores held once `b` was committed: the blocks are held
newest first. -/
def rank (s : Stores) (b : Hash) : ℕ := s.blocks.length - s.blocks.idxOf b

theorem rank_le_length (s : Stores) (b : Hash) : s.rank b ≤ s.blocks.length := Nat.sub_le _ _

/-- Every header bits of a block have a work of at most `W`. -/
def WorkAtMost (s : Stores) (profile : Math.Profile) (W : ℕ) : Prop :=
  ∀ b ∈ s.blocks, ∀ bits w, s.headersStore b = some bits → calcWork profile bits = some w → w ≤ W

/-- The works of the finitely many blocks have a bound: their sum. -/
theorem exists_workAtMost (s : Stores) (profile : Math.Profile) : ∃ W, s.WorkAtMost profile W := by
  refine ⟨(s.blocks.map fun b => ((s.headersStore b).bind (calcWork profile)).getD 0).sum, ?_⟩
  intro b hb bits w hbits hw
  have hmem : w ∈ s.blocks.map fun b => ((s.headersStore b).bind (calcWork profile)).getD 0 :=
    List.mem_map.mpr ⟨b, hb, by simp [hbits, hw]⟩
  exact List.le_sum_of_mem hmem

/-- The stores of a node that holds genesis only, with `genesis_ghostdag_data`. -/
def init (genesisHash : Hash) (bits : BitVec 32) (reachabilityService : Hash → Hash → Bool) : Stores where
  blocks := [genesisHash]
  ghostdagStore hash := if hash = genesisHash then some genesisGhostdagData else none
  relationsStore hash := if hash = genesisHash then some [] else none
  headersStore hash := if hash = genesisHash then some bits else none
  reachabilityService := reachabilityService

/-- The stores once a block is committed with its parents, the bits of its
header and its ghostdag data, and the reachability service has learnt it. -/
def addBlock (s : Stores) (block : Hash) (parents : List Hash) (bits : BitVec 32) (data : GhostdagData)
    (reachabilityService : Hash → Hash → Bool) : Stores where
  blocks := block :: s.blocks
  ghostdagStore := Function.update s.ghostdagStore block (some data)
  relationsStore := Function.update s.relationsStore block (some parents)
  headersStore := Function.update s.headersStore block (some bits)
  reachabilityService := reachabilityService

section AddBlock

variable {s : Stores} {block b : Hash} {parents : List Hash} {bits : BitVec 32} {data : GhostdagData}
  {reach : Hash → Hash → Bool}

/-- Committing a new block leaves what the stores hold of the other blocks as it was. -/
theorem addBlock_ghostdagStore_of_ne (h : b ≠ block) :
    (s.addBlock block parents bits data reach).ghostdagStore b = s.ghostdagStore b :=
  Function.update_of_ne h _ _

theorem addBlock_relationsStore_of_ne (h : b ≠ block) :
    (s.addBlock block parents bits data reach).relationsStore b = s.relationsStore b :=
  Function.update_of_ne h _ _

theorem addBlock_headersStore_of_ne (h : b ≠ block) :
    (s.addBlock block parents bits data reach).headersStore b = s.headersStore b :=
  Function.update_of_ne h _ _

@[simp] theorem addBlock_ghostdagStore_self :
    (s.addBlock block parents bits data reach).ghostdagStore block = some data :=
  Function.update_self _ _ _

/-- The new block is the last committed; the others keep their rank. -/
theorem addBlock_rank_self : (s.addBlock block parents bits data reach).rank block = s.blocks.length + 1 := by
  simp [rank, addBlock]

theorem addBlock_rank_of_ne (h : b ≠ block) : (s.addBlock block parents bits data reach).rank b = s.rank b := by
  simp only [rank, addBlock, List.length_cons, List.idxOf_cons_ne _ (Ne.symm h)]
  omega

/-- A bound on the works of the blocks bounds those of the blocks held before. -/
theorem WorkAtMost.of_addBlock {profile : Math.Profile} {W : ℕ} (hblock : block ∉ s.blocks)
    (h : (s.addBlock block parents bits data reach).WorkAtMost profile W) : s.WorkAtMost profile W := by
  intro b hb bits' w hbits hw
  have hne : b ≠ block := ne_of_mem_of_not_mem hb hblock
  refine h b (List.mem_cons_of_mem _ hb) bits' w ?_ hw
  rw [addBlock_headersStore_of_ne hne]
  exact hbits

end AddBlock

variable (genesis : Hash) (k : ℕ) (profile : Math.Profile) in
/-- What holds of the stores of a node that grew its DAG from genesis. -/
structure Valid (s : Stores) : Prop where
  genesis_mem : genesis ∈ s.blocks
  origin_not_mem : ORIGIN ∉ s.blocks
  data : ∀ b ∈ s.blocks, ∃ d, s.ghostdagStore b = some d ∧ GhostdagManager.Bounded k d
  dag : HoldsDag s.relationsStore s.blocks
  bits : ∀ b ∈ s.blocks, ∃ bits, s.headersStore b = some bits ∧ (calcWork profile bits).isSome
  headers : ∀ b bits, s.headersStore b = some bits → b ∈ s.blocks
  chain : ∀ b ∈ s.blocks, b ≠ genesis → ∀ d, s.ghostdagStore b = some d →
    d.selectedParent ∈ s.blocks ∧ s.rank d.selectedParent < s.rank b
  genesis_past : ∀ b ∈ s.blocks, s.reachabilityService genesis b = true

variable {genesis : Hash} {k : ℕ} {hk : k + 1 < 2 ^ 16} {profile : Math.Profile} {s : Stores}

/-- The selected chain from `a` comes down to `c` through blocks other than
genesis before `c`. -/
inductive ChainTo (s : Stores) (genesis : Hash) : Hash → Hash → Prop
  | refl (c : Hash) : ChainTo s genesis c c
  | step {a c : Hash} {d : GhostdagData} : a ∈ s.blocks → a ≠ genesis → s.ghostdagStore a = some d →
      ChainTo s genesis d.selectedParent c → ChainTo s genesis a c

theorem ChainTo.snoc {a c : Hash} {d : GhostdagData} (h : ChainTo s genesis a c) (hc : c ∈ s.blocks)
    (hgenesis : c ≠ genesis) (hd : s.ghostdagStore c = some d) : ChainTo s genesis a d.selectedParent := by
  induction h with
  | refl => exact .step hc hgenesis hd (.refl _)
  | step ha hag hda _ ih => exact .step ha hag hda (ih hc hgenesis hd)

namespace Valid

variable (hs : Valid genesis k profile s)
include hs

theorem ne_origin {b : Hash} (hb : b ∈ s.blocks) : b ≠ ORIGIN := by
  rintro rfl
  exact hs.origin_not_mem hb

theorem bounded {b : Hash} {d : GhostdagData} (hb : b ∈ s.blocks) (hd : s.ghostdagStore b = some d) :
    GhostdagManager.Bounded k d := by
  obtain ⟨d', hd', hbounded⟩ := hs.data b hb
  rw [hd, Option.some_inj] at hd'
  exact hd' ▸ hbounded

theorem blueWork_isSome {b : Hash} (hb : b ∈ s.blocks) : ((s.manager genesis k hk).blueWork b).isSome := by
  obtain ⟨d, hd, -⟩ := hs.data b hb
  simp [GhostdagManager.blueWork, manager, hd]

/-- A bound on the works of the blocks bounds the work of every header the
stores hold. -/
theorem work_le {W : ℕ} (hW : s.WorkAtMost profile W) :
    ∀ b bits w, s.headersStore b = some bits → calcWork profile bits = some w → w ≤ W :=
  fun b bits w hbits => hW b (hs.headers b bits hbits) bits w hbits

/-- The selected chain of every block comes down to genesis, in fewer steps
than a bound on the block's rank. -/
theorem chainTo_genesis : ∀ (n : ℕ) {b : Hash}, b ∈ s.blocks → s.rank b < n → ChainTo s genesis b genesis
  | 0, _, _, hn => absurd hn (Nat.not_lt_zero _)
  | n + 1, b, hb, hn => by
    by_cases hgenesis : b = genesis
    · rw [hgenesis]
      exact .refl _
    · obtain ⟨d, hd, -⟩ := hs.data b hb
      obtain ⟨hsp, hlt⟩ := hs.chain b hb hgenesis d hd
      exact .step hb hgenesis hd (chainTo_genesis n hsp (by omega))

/-- The walk for a blue anticone size, from a block whose selected chain comes
down to `c`, finds a block that is a blue of `c`, with a size of at most `k`.
Each turn moves to a selected parent committed earlier, which bounds the
turns. -/
theorem blueAnticoneSizeLoop_isSome {block c : Hash} {dc : GhostdagData} (hc : c ∈ s.blocks)
    (hgenesis : c ≠ genesis) (hdc : s.ghostdagStore c = some dc) (hblock : block ∈ dc.bluesAnticoneSizes)
    {current : Hash} (hchain : ChainTo s genesis current c) :
    ∀ {sizes : BlockHashMap ℕ} {n : ℕ}, (∀ b size, sizes.lookup b = some size → size ≤ k) →
      s.rank current + 2 ≤ n →
      ∃ size, (s.manager genesis k hk).blueAnticoneSizeLoop block n sizes current = some size ∧ size ≤ k := by
  induction hchain with
  | refl =>
    intro sizes n hsizes hn
    obtain ⟨n, rfl⟩ : ∃ n', n = n' + 1 + 1 := ⟨n - 2, by omega⟩
    cases hlookup : sizes.lookup block with
    | some size => exact ⟨size, GhostdagManager.blueAnticoneSizeLoop_of_lookup hlookup _ _, hsizes _ _ hlookup⟩
    | none =>
      -- `c` is neither genesis nor `ORIGIN`, so its blues are searched next
      obtain ⟨size, hsize⟩ := Option.isSome_iff_exists.mp (AList.lookup_isSome.mpr hblock)
      rw [GhostdagManager.blueAnticoneSizeLoop_of_lookup_none hlookup hgenesis (hs.ne_origin hc) hdc,
        GhostdagManager.blueAnticoneSizeLoop_of_lookup hsize]
      exact ⟨size, rfl, (hs.bounded hc hdc).le _ _ hsize⟩
  | step ha hagenesis hda _ ih =>
    intro sizes n hsizes hn
    obtain ⟨n, rfl⟩ : ∃ n', n = n' + 1 := ⟨n - 1, by omega⟩
    cases hlookup : sizes.lookup block with
    | some size => exact ⟨size, GhostdagManager.blueAnticoneSizeLoop_of_lookup hlookup _ _, hsizes _ _ hlookup⟩
    | none =>
      obtain ⟨-, hlt⟩ := hs.chain _ ha hagenesis _ hda
      rw [GhostdagManager.blueAnticoneSizeLoop_of_lookup_none hlookup hagenesis (hs.ne_origin ha) hda]
      exact ih hc hgenesis hdc (hs.bounded ha hda).le (by omega)

/-- The chain walk of a candidate, from a chain block below the new block's
selected parent, returns. Genesis ends it at the latest, since the candidate is
in its past. -/
theorem checkBlueCandidateLoop_isSome {newBlockData : GhostdagData} (hnew : GhostdagManager.Bounded k newBlockData)
    {blueCandidate : Hash} (hcandidate : blueCandidate ∈ s.blocks) {fuel : ℕ}
    (hfuel : s.rank newBlockData.selectedParent + 2 ≤ fuel) :
    ∀ {n : ℕ} {c : Hash} {dc : GhostdagData} {sizes : BlockHashMap ℕ} {size : ℕ},
      c ∈ s.blocks → s.ghostdagStore c = some dc → ChainTo s genesis newBlockData.selectedParent c →
      s.rank c + 1 ≤ n →
      ∃ out, (s.manager genesis k hk).checkBlueCandidateLoop fuel newBlockData blueCandidate n ⟨some c, dc⟩
        sizes size = some out := by
  intro n
  induction n with
  | zero => intro c dc sizes size _ _ _ hn; omega
  | succ n ih =>
    intro c dc sizes size hc hdc hchain hn
    by_cases hpast : s.reachabilityService c blueCandidate = true
    · apply GhostdagManager.checkBlueCandidateLoop_succ_isSome (r := (.blue, sizes, size))
      · simp [GhostdagManager.checkBlueCandidateWithChainBlock, manager, hpast]
      · intro _ _ h
        cases h
    · -- genesis is in the past of the candidate, so `c` is not genesis
      have hgenesis : c ≠ genesis := by
        rintro rfl
        exact hpast (hs.genesis_past _ hcandidate)
      have hpeers : ∀ p ∈ dc.mergesetBlues, (s.manager genesis k hk).reachabilityService p blueCandidate = false →
          ∃ size, (s.manager genesis k hk).blueAnticoneSize fuel p newBlockData = some size ∧ size ≤ k := by
        intro p hp _
        exact hs.blueAnticoneSizeLoop_isSome hc hgenesis hdc ((hs.bounded hc hdc).mem p hp) hchain hnew.le hfuel
      obtain ⟨r, hr⟩ := GhostdagManager.checkPeers_isSome hpeers sizes size
      apply GhostdagManager.checkBlueCandidateLoop_succ_isSome (r := r)
      · simpa [GhostdagManager.checkBlueCandidateWithChainBlock, manager, hpast] using hr
      · intro sizes' size' _
        obtain ⟨hsp, hlt⟩ := hs.chain c hc hgenesis dc hdc
        obtain ⟨dsp, hdsp, -⟩ := hs.data _ hsp
        exact ⟨dsp, hdsp, ih hsp hdsp (hchain.snoc hc hgenesis hdc) (by dsimp only; omega)⟩

variable (hk) in
/-- `check_blue_candidate` returns for a candidate among the blocks, given
fuel above the rank of the selected parent. -/
theorem checkBlueCandidate_isSome {newBlockData : GhostdagData} (hnew : GhostdagManager.Bounded k newBlockData)
    (hsp : newBlockData.selectedParent ∈ s.blocks) {dsp : GhostdagData}
    (hdsp : s.ghostdagStore newBlockData.selectedParent = some dsp) {blueCandidate : Hash}
    (hcandidate : blueCandidate ∈ s.blocks) {fuel : ℕ} (hfuel : s.rank newBlockData.selectedParent + 2 ≤ fuel) :
    ∃ out, (s.manager genesis k hk).checkBlueCandidate fuel newBlockData blueCandidate = some out := by
  unfold GhostdagManager.checkBlueCandidate
  split_ifs
  · exact ⟨_, rfl⟩
  obtain ⟨n, hn⟩ : ∃ n, fuel = n + 1 := ⟨fuel - 1, by omega⟩
  -- the new block's own blues are found in its own map at the first turn
  have hpeers : ∀ p ∈ newBlockData.mergesetBlues,
      (s.manager genesis k hk).reachabilityService p blueCandidate = false →
      ∃ size, (s.manager genesis k hk).blueAnticoneSize fuel p newBlockData = some size ∧ size ≤ k := by
    intro p hp _
    obtain ⟨size, hsize⟩ := Option.isSome_iff_exists.mp (AList.lookup_isSome.mpr (hnew.mem p hp))
    refine ⟨size, ?_, hnew.le _ _ hsize⟩
    rw [GhostdagManager.blueAnticoneSize, hn]
    exact GhostdagManager.blueAnticoneSizeLoop_of_lookup hsize _ _
  obtain ⟨r, hr⟩ := GhostdagManager.checkPeers_isSome hpeers ∅ 0
  nth_rewrite 2 [hn]
  apply GhostdagManager.checkBlueCandidateLoop_succ_isSome (r := r)
  · simpa [GhostdagManager.checkBlueCandidateWithChainBlock] using hr
  · intro sizes' size' _
    exact ⟨dsp, hdsp, hs.checkBlueCandidateLoop_isSome hnew hcandidate hfuel hsp hdsp (.refl _) (by dsimp only; omega)⟩

variable (hk) in
/-- The coloring loop returns on candidates among the blocks. -/
theorem foldlM_colorCandidate_isSome {sp : Hash} (hsp : sp ∈ s.blocks) {dsp : GhostdagData}
    (hdsp : s.ghostdagStore sp = some dsp) {fuel : ℕ} (hfuel : s.rank sp + 2 ≤ fuel) :
    ∀ {ordered : List Hash} {d : GhostdagData}, (∀ c ∈ ordered, c ∈ s.blocks) → GhostdagManager.Bounded k d →
      d.selectedParent = sp → ∃ d', ordered.foldlM ((s.manager genesis k hk).colorCandidate fuel) d = some d'
  | [], d, _, _, _ => ⟨d, rfl⟩
  | c :: cs, d, hordered, hd, hdsp' => by
    subst hdsp'
    obtain ⟨out, hout⟩ := hs.checkBlueCandidate_isSome hk hd hsp hdsp (hordered c List.mem_cons_self) hfuel
    obtain ⟨d₁, hcolor⟩ : ∃ d₁, (s.manager genesis k hk).colorCandidate fuel d c = some d₁ := by
      rw [GhostdagManager.colorCandidate, hout]
      exact ⟨_, rfl⟩
    have hsp₁ : d₁.selectedParent = d.selectedParent := by
      rcases GhostdagManager.colorCandidate_cases hcolor with ⟨_, _, -, rfl⟩ | rfl
      · exact addBlue_selectedParent _ _ _ _
      · exact addRed_selectedParent _ _
    rw [List.foldlM_cons, hcolor]
    exact foldlM_colorCandidate_isSome hsp hdsp hfuel (fun c' hc' => hordered c' (List.mem_cons_of_mem c hc'))
      (hd.colorCandidate hcolor) hsp₁

variable (hk) in
/-- The work sums that end `ghostdag` return for up to `k + 1` blues among the
blocks: a release build wraps them, and a debug build needs room for `k + 1`
blues, each of work at most `W`, above the blue work of every block. -/
theorem blueWorkSums_isSome {sp : Hash} (hsp : sp ∈ s.blocks) {dsp : GhostdagData}
    (hdsp : s.ghostdagStore sp = some dsp) {blues : List Hash} (hblues : ∀ b ∈ blues, b ∈ s.blocks)
    (hlen : blues.length ≤ k + 1)
    (hroom : profile = .debug → ∃ W, s.WorkAtMost profile W ∧ ∀ b ∈ s.blocks, ∀ d, s.ghostdagStore b = some d →
      d.blueWork + (k + 1) * W < 2 ^ 192) :
    ∃ added work, (s.manager genesis k hk).addedBlueWork profile blues = some added ∧
      Math.checkedAdd profile 192 dsp.blueWork added = some work := by
  have hbits : ∀ b ∈ blues, ∃ bits, (s.manager genesis k hk).headersStore b = some bits ∧
      (calcWork profile bits).isSome := fun b hb => hs.bits b (hblues b hb)
  cases profile with
  | release =>
    obtain ⟨added, hadded⟩ := GhostdagManager.addedBlueWork_release_isSome hbits
    exact ⟨added, _, hadded, Math.checkedAdd_release _ _ _⟩
  | debug =>
    obtain ⟨W, hW, hroom⟩ := hroom rfl
    have hwork := hroom sp hsp dsp hdsp
    have hlenW : blues.length * W ≤ (k + 1) * W := Nat.mul_le_mul_right W hlen
    obtain ⟨added, hadded, hle⟩ := GhostdagManager.addedBlueWork_isSome_of_le (Nat.zero_le W) hbits
      (fun b _ => hs.work_le hW b) (by omega)
    exact ⟨added, _, hadded, Math.checkedAdd_of_lt (by omega)⟩

/-- On valid stores, `ghostdag` returns for every nonempty list of parents among
the blocks, given fuel for the mergeset search and for the chain walks, when
the `u64` blue score of every block has room for `k + 1` more blues, and in a
debug build its blue work for `k + 1` blues of work at most `W`. -/
theorem ghostdag_isSome {parents : List Hash} (hne : parents ≠ []) (hparents : ∀ p ∈ parents, p ∈ s.blocks)
    (hscore : ∀ b ∈ s.blocks, ∀ d, s.ghostdagStore b = some d → d.blueScore + (k + 1) < 2 ^ 64)
    (hwork : profile = .debug → ∃ W, s.WorkAtMost profile W ∧ ∀ b ∈ s.blocks, ∀ d, s.ghostdagStore b = some d →
      d.blueWork + (k + 1) * W < 2 ^ 192) :
    ∃ fuel D, (s.manager genesis k hk).ghostdag profile fuel parents = some D := by
  obtain ⟨sp, hfind⟩ := GhostdagManager.findSelectedParent_isSome (m := s.manager genesis k hk) hne
    fun p hp => hs.blueWork_isSome (hparents p hp)
  have hsp : sp ∈ s.blocks := hparents sp (GhostdagManager.findSelectedParent_mem hfind)
  obtain ⟨dsp, hdsp, -⟩ := hs.data sp hsp
  set fuel := parents.length + s.blocks.length + 2 with hfuel_def
  have hfuel : s.rank sp + 2 ≤ fuel := by
    have := s.rank_le_length sp
    omega
  -- the mergeset search over the DAG the stores hold
  have hstart : ∀ p ∈ parents.filter (· ≠ sp), p ∈ s.blocks := fun p hp => hparents p (List.mem_filter.mp hp).1
  have hlen : (parents.filter (· ≠ sp)).length + s.blocks.length < fuel := by
    have := List.length_filter_le (· ≠ sp) parents
    omega
  obtain ⟨mergeset, hmergeset, -, -, hsub⟩ :=
    search_of_holdsDag hs.dag (fun parent => s.reachabilityService parent sp) hstart hlen
  obtain ⟨ordered, hsort⟩ :=
    GhostdagManager.sortBlocks_isSome (m := s.manager genesis k hk) fun b hb => hs.blueWork_isSome (hsub b hb)
  have hordered : ∀ c ∈ ordered, c ∈ s.blocks :=
    fun c hc => hsub c ((GhostdagManager.sortBlocks_spec hsort).1.mem_iff.mp hc)
  obtain ⟨newBlockData, hfold⟩ := hs.foldlM_colorCandidate_isSome hk hsp hdsp hfuel hordered
    (GhostdagManager.bounded_newWithSelectedParent k sp) rfl
  -- the mergeset blues are the selected parent and blue candidates, all blocks
  have hblues : ∀ b ∈ newBlockData.mergesetBlues, b ∈ s.blocks := by
    obtain ⟨blues, -, hblues, -, -, -, hbsub, -⟩ := GhostdagManager.foldlM_colorCandidate_split hfold
    intro b hb
    rw [hblues, newWithSelectedParent_mergesetBlues, List.singleton_append, List.mem_cons] at hb
    rcases hb with rfl | hb
    · exact hsp
    · exact hordered b (hbsub.subset hb)
  have hbounded : GhostdagManager.Bounded k newBlockData :=
    (GhostdagManager.bounded_newWithSelectedParent (s.manager genesis k hk).k sp).foldlM_colorCandidate hfold
  have hscoreSum : Math.overflowCheckedAdd 64 dsp.blueScore newBlockData.mergesetBlues.length =
      some (dsp.blueScore + newBlockData.mergesetBlues.length) := by
    have := hscore sp hsp dsp hdsp
    have := hbounded.length_le
    exact Math.overflowCheckedAdd_of_lt (by omega)
  obtain ⟨added, work, hadded, hworkSum⟩ := hs.blueWorkSums_isSome hk hsp hdsp hblues hbounded.length_le hwork
  have hscore : (s.manager genesis k hk).blueScore sp = some dsp.blueScore := by
    simp [GhostdagManager.blueScore, manager, hdsp]
  have hspWork : (s.manager genesis k hk).blueWork sp = some dsp.blueWork := by
    simp [GhostdagManager.blueWork, manager, hdsp]
  have hmergeset' : (s.manager genesis k hk).unorderedMergesetWithoutSelectedParent fuel sp parents =
      some mergeset :=
    hmergeset
  refine ⟨fuel, newBlockData.finalizeScoreAndWork (dsp.blueScore + newBlockData.mergesetBlues.length) work, ?_⟩
  simp only [GhostdagManager.ghostdag, if_neg hne, hfind, Option.bind_some, if_neg (hs.ne_origin hsp),
    GhostdagManager.orderedMergesetWithoutSelectedParent, hmergeset', hsort, hfold, hscore, hscoreSum, hadded,
    hspWork, hworkSum, Option.map_some]

/-- Committing a new block with the data `ghostdag` returns for its parents
keeps the stores valid, when the reachability service after it puts genesis in
the past of every block. -/
theorem addBlock {block : Hash} {parents : List Hash} {bits : BitVec 32} {reach : Hash → Hash → Bool}
    {fuel : ℕ} {D : GhostdagData} (hblock : block ∉ s.blocks) (horigin : block ≠ ORIGIN)
    (hparents : ∀ p ∈ parents, p ∈ s.blocks) (hbits : (calcWork profile bits).isSome)
    (hreach : ∀ b ∈ block :: s.blocks, reach genesis b = true)
    (hD : (s.manager genesis k hk).ghostdag profile fuel parents = some D) :
    Valid genesis k profile (s.addBlock block parents bits D reach) := by
  have hne : ∀ {b}, b ∈ s.blocks → b ≠ block := fun hb => ne_of_mem_of_not_mem hb hblock
  -- the selected parent of the new block is one of its parents, so a block
  have hsp : D.selectedParent ∈ s.blocks := by
    rcases GhostdagManager.ghostdag_cases hD with ⟨hfind, -⟩ | ⟨-, hfind, -⟩
    · exact absurd (hparents _ (GhostdagManager.findSelectedParent_mem hfind)) hs.origin_not_mem
    · exact hparents _ (GhostdagManager.findSelectedParent_mem hfind)
  refine ⟨List.mem_cons_of_mem _ hs.genesis_mem, ?_, ?_, ?_, ?_, ?_, ?_, hreach⟩
  · rintro (_ | ⟨_, horig⟩)
    · exact horigin rfl
    · exact hs.origin_not_mem horig
  · rintro b (_ | ⟨_, hb⟩)
    · exact ⟨D, addBlock_ghostdagStore_self, GhostdagManager.Bounded.ghostdag hD⟩
    · rw [addBlock_ghostdagStore_of_ne (hne hb)]
      exact hs.data b hb
  · rintro b (_ | ⟨_, hb⟩)
    · exact ⟨parents, Function.update_self _ _ _, fun p hp => List.mem_cons_of_mem _ (hparents p hp)⟩
    · obtain ⟨ps, hps, hsub⟩ := hs.dag b hb
      rw [addBlock_relationsStore_of_ne (hne hb)]
      exact ⟨ps, hps, fun p hp => List.mem_cons_of_mem _ (hsub p hp)⟩
  · rintro b (_ | ⟨_, hb⟩)
    · exact ⟨bits, Function.update_self _ _ _, hbits⟩
    · rw [addBlock_headersStore_of_ne (hne hb)]
      exact hs.bits b hb
  · intro b bits' hb
    by_cases hblock' : b = block
    · exact hblock' ▸ List.mem_cons_self
    · rw [addBlock_headersStore_of_ne hblock'] at hb
      exact List.mem_cons_of_mem _ (hs.headers b bits' hb)
  · -- the selected parent of the new block was committed before it; other ranks stay
    rintro b (_ | ⟨_, hb⟩) hgenesis d hd
    · rw [addBlock_ghostdagStore_self, Option.some_inj] at hd
      subst hd
      rw [addBlock_rank_of_ne (hne hsp), addBlock_rank_self]
      exact ⟨List.mem_cons_of_mem _ hsp, Nat.lt_succ_of_le (s.rank_le_length _)⟩
    · rw [addBlock_ghostdagStore_of_ne (hne hb)] at hd
      obtain ⟨hmem, hlt⟩ := hs.chain b hb hgenesis d hd
      rw [addBlock_rank_of_ne (hne hmem), addBlock_rank_of_ne (hne hb)]
      exact ⟨List.mem_cons_of_mem _ hmem, hlt⟩

end Valid

theorem valid_init {bits : BitVec 32} {reach : Hash → Hash → Bool} (horigin : genesis ≠ ORIGIN)
    (hbits : (calcWork profile bits).isSome) (hreach : reach genesis genesis = true) :
    Valid genesis k profile (init genesis bits reach) where
  genesis_mem := List.mem_singleton_self _
  origin_not_mem h := horigin (List.mem_singleton.mp h).symm
  data b hb := by
    rw [List.mem_singleton.mp hb]
    refine ⟨genesisGhostdagData, if_pos rfl, ⟨?_, ?_, ?_⟩⟩ <;> simp [genesisGhostdagData]
  dag b hb := by
    rw [List.mem_singleton.mp hb]
    exact ⟨[], if_pos rfl, fun _ h => absurd h List.not_mem_nil⟩
  bits b hb := by
    rw [List.mem_singleton.mp hb]
    exact ⟨bits, if_pos rfl, hbits⟩
  headers b bits' hb := by
    by_cases hgenesis : b = genesis
    · exact hgenesis ▸ List.mem_singleton_self _
    · simp [init, hgenesis] at hb
  chain b hb hgenesis := absurd (List.mem_singleton.mp hb) hgenesis
  genesis_past b hb := by
    rw [List.mem_singleton.mp hb]
    exact hreach

/-! ## Runs from genesis -/

variable (genesis : Hash) (k : ℕ) (hk : k + 1 < 2 ^ 16) (profile : Math.Profile) in
/-- The stores a node reaches from genesis, committing each new block (not yet
held, not `ORIGIN`, on parents it holds, with header bits whose work is
defined) with the data `ghostdag` returns for it, the reachability service
putting genesis in the past of every block. -/
inductive Reachable : Stores → Prop
  | init {bits : BitVec 32} {reach : Hash → Hash → Bool} : genesis ≠ ORIGIN → (calcWork profile bits).isSome →
      reach genesis genesis = true → Reachable (init genesis bits reach)
  | addBlock {s : Stores} {block : Hash} {parents : List Hash} {bits : BitVec 32} {reach : Hash → Hash → Bool}
      {fuel : ℕ} {D : GhostdagData} : Reachable s → block ∉ s.blocks → block ≠ ORIGIN →
      (∀ p ∈ parents, p ∈ s.blocks) → (calcWork profile bits).isSome →
      (∀ b ∈ block :: s.blocks, reach genesis b = true) →
      (s.manager genesis k hk).ghostdag profile fuel parents = some D →
      Reachable (s.addBlock block parents bits D reach)

theorem Reachable.valid (h : Reachable genesis k hk profile s) : Valid genesis k profile s := by
  induction h with
  | init horigin hbits hreach => exact valid_init horigin hbits hreach
  | addBlock _ hblock horigin hparents hbits hreach hD ih => exact ih.addBlock hblock horigin hparents hbits hreach hD

/-- The sums of one commit: the new block's blue score is its selected parent's
plus its number of blues, and in a debug build its blue work is at most its
selected parent's plus `W` for each blue. -/
theorem blue_of_ghostdag (hs : Valid genesis k profile s) {W : ℕ} (hW : profile = .debug → s.WorkAtMost profile W)
    {fuel : ℕ} {parents : List Hash} {D : GhostdagData} (hparents : ∀ p ∈ parents, p ∈ s.blocks)
    (hD : (s.manager genesis k hk).ghostdag profile fuel parents = some D) :
    D.selectedParent ∈ s.blocks ∧ ∃ dsp, s.ghostdagStore D.selectedParent = some dsp ∧
      D.blueScore = dsp.blueScore + D.mergesetBlues.length ∧
      (profile = .debug → D.blueWork ≤ dsp.blueWork + D.mergesetBlues.length * W) := by
  rcases GhostdagManager.ghostdag_cases hD with ⟨hfind, -⟩ |
    ⟨-, hfind, -, -, newBlockData, -, -, -, hblues, -, -, score, hscore, hscoreSum, added, spWork, hadded, hspWork,
      hworkSum⟩
  · exact absurd (hparents _ (GhostdagManager.findSelectedParent_mem hfind)) hs.origin_not_mem
  · obtain ⟨dsp, hdsp, rfl⟩ := Option.map_eq_some_iff.mp hscore
    obtain ⟨dsp', hdsp', rfl⟩ := Option.map_eq_some_iff.mp hspWork
    rw [hdsp, Option.some_inj] at hdsp'
    subst hdsp'
    obtain ⟨-, hscoreEq⟩ := Math.overflowCheckedAdd_eq_some hscoreSum
    refine ⟨hparents _ (GhostdagManager.findSelectedParent_mem hfind), dsp, hdsp, hblues ▸ hscoreEq, ?_⟩
    -- a debug build adds the works exactly, each at most `W`
    rintro rfl
    obtain ⟨-, hworkEq⟩ := Math.checkedAdd_debug hworkSum
    have hadded : added ≤ newBlockData.mergesetBlues.length * W :=
      GhostdagManager.addedBlueWork_debug_le (Nat.zero_le W) (fun b _ => hs.work_le (hW rfl) b) hadded
    rw [hworkEq, hblues]
    omega

/-- Every block has a blue score of at most `k + 1` for each block held, and in
a debug build a blue work of at most its blue score times `W` when `W` bounds
the works of the blocks' headers: each commit adds at most `k + 1` blues, each
of work at most `W`. -/
theorem Reachable.blue_le (h : Reachable genesis k hk profile s) {W : ℕ}
    (hW : profile = .debug → s.WorkAtMost profile W) :
    ∀ b ∈ s.blocks, ∀ d, s.ghostdagStore b = some d →
      d.blueScore ≤ (k + 1) * s.blocks.length ∧ (profile = .debug → d.blueWork ≤ d.blueScore * W) := by
  induction h with
  | init =>
    intro b hb d hd
    rw [List.mem_singleton.mp hb] at hd
    simp only [Stores.init, if_true, Option.some.injEq] at hd
    subst hd
    simp [genesisGhostdagData]
  | @addBlock s block parents bits reach fuel D hs hblock _ hparents _ _ hD ih =>
    have hW' : profile = .debug → s.WorkAtMost profile W := fun hdebug => (hW hdebug).of_addBlock hblock
    have ih := ih hW'
    have hne : ∀ {b}, b ∈ s.blocks → b ≠ block := fun hb => ne_of_mem_of_not_mem hb hblock
    intro b hb d hd
    have hlength : (s.addBlock block parents bits D reach).blocks.length = s.blocks.length + 1 := rfl
    rw [hlength]
    rcases List.mem_cons.mp hb with rfl | hb
    · -- the new block: its selected parent's bounds, and one block's worth more
      rw [addBlock_ghostdagStore_self, Option.some_inj] at hd
      subst hd
      obtain ⟨hsp, dsp, hdsp, hscore, hwork⟩ := blue_of_ghostdag hs.valid hW' hparents hD
      obtain ⟨hspScore, hspWork⟩ := ih _ hsp dsp hdsp
      have hlen : D.mergesetBlues.length ≤ k + 1 := (GhostdagManager.Bounded.ghostdag hD).length_le
      constructor
      · rw [hscore, Nat.mul_succ]
        omega
      · intro hdebug
        calc D.blueWork ≤ dsp.blueWork + D.mergesetBlues.length * W := hwork hdebug
          _ ≤ dsp.blueScore * W + D.mergesetBlues.length * W := Nat.add_le_add_right (hspWork hdebug) _
          _ = D.blueScore * W := by rw [hscore, Nat.add_mul]
    · rw [addBlock_ghostdagStore_of_ne (hne hb)] at hd
      obtain ⟨hscore, hwork⟩ := ih b hb d hd
      exact ⟨by rw [Nat.mul_succ]; omega, hwork⟩

/-- On every store a node reaches from genesis, `ghostdag` returns for any
nonempty list of parents the node holds: each loop ends, and no `panic!`,
`assert!`, `debug_assert!`, `unwrap` or overflow check in it fails. The `u64`
blue score is checked for overflow in every build, so the number of blocks
held, one more, times `k + 1` must fit a `u64`. A release build wraps the
`Uint192` blue work; a debug build asserts that it does not overflow, so that
times a bound on the works of the blocks must fit a `Uint192`. -/
theorem ghostdag_returns_of_reachable (hs : Reachable genesis k hk profile s) {parents : List Hash}
    (hne : parents ≠ []) (hparents : ∀ p ∈ parents, p ∈ s.blocks)
    (hscore : (s.blocks.length + 1) * (k + 1) < 2 ^ 64)
    (hwork : profile = .debug → ∃ W, s.WorkAtMost profile W ∧ (s.blocks.length + 1) * (k + 1) * W < 2 ^ 192) :
    ∃ fuel D, (s.manager genesis k hk).ghostdag profile fuel parents = some D := by
  obtain ⟨W₀, hW₀⟩ := s.exists_workAtMost profile
  have hroom : ∀ b ∈ s.blocks, ∀ d, s.ghostdagStore b = some d →
      d.blueScore + (k + 1) ≤ (s.blocks.length + 1) * (k + 1) := by
    intro b hb d hd
    have hle := (hs.blue_le (fun _ => hW₀) b hb d hd).1
    have hsplit : (s.blocks.length + 1) * (k + 1) = (k + 1) * s.blocks.length + (k + 1) := by ring
    omega
  refine hs.valid.ghostdag_isSome hne hparents (fun b hb d hd => ?_) fun hdebug => ?_
  · have := hroom b hb d hd
    omega
  · obtain ⟨W, hW, hworkFit⟩ := hwork hdebug
    refine ⟨W, hW, fun b hb d hd => ?_⟩
    obtain ⟨-, hwork⟩ := hs.blue_le (fun _ => hW) b hb d hd
    calc d.blueWork + (k + 1) * W ≤ d.blueScore * W + (k + 1) * W := Nat.add_le_add_right (hwork hdebug) _
      _ = (d.blueScore + (k + 1)) * W := (Nat.add_mul _ _ _).symm
      _ ≤ (s.blocks.length + 1) * (k + 1) * W := Nat.mul_le_mul_right W (hroom b hb d hd)
      _ < 2 ^ 192 := hworkFit

/-- On every store a node reaches from genesis, the selected chain of every
block comes down to genesis, through blocks that hold their ghostdag data. -/
theorem selectedChain_reaches_genesis (hs : Reachable genesis k hk profile s) {b : Hash} (hb : b ∈ s.blocks) :
    ChainTo s genesis b genesis :=
  hs.valid.chainTo_genesis (s.rank b + 1) hb (Nat.lt_succ_self _)

/-- The reachability service of the stores below: genesis is in the past of
every block. -/
def genesisPast (a b : Hash) : Bool := a = b || a = 1#256

/-- The data of a block on genesis alone, with the work of the bits `0x1d00ffff`. -/
def tipData : GhostdagData := ⟨1, 4295032833, 1#256, [1#256], [], (∅ : BlockHashMap ℕ).insert 1#256 0⟩

/-- The stores of `twoTipsManager`, grown from genesis: two blocks on genesis. -/
def twoTips : Stores :=
  ((init 1#256 0x1d00ffff#32 genesisPast).addBlock 2#256 [1#256] 0x1d00ffff#32 tipData genesisPast).addBlock
    3#256 [1#256] 0x1d00ffff#32 tipData genesisPast

theorem reachable_twoTips : Reachable 1#256 1 (by decide) .debug twoTips := by
  have hinit : Reachable 1#256 1 (by decide) .debug (init 1#256 0x1d00ffff#32 genesisPast) :=
    .init (by decide) (by decide) rfl
  have hfirst : Reachable 1#256 1 (by decide) .debug
      ((init 1#256 0x1d00ffff#32 genesisPast).addBlock 2#256 [1#256] 0x1d00ffff#32 tipData genesisPast) :=
    hinit.addBlock (by decide) (by decide) (by simp [init]) (by decide) (by simp [genesisPast])
      (show ((init 1#256 0x1d00ffff#32 genesisPast).manager 1#256 1 (by decide)).ghostdag .debug 4 [1#256] =
        some tipData from rfl)
  unfold twoTips
  exact hfirst.addBlock (by decide) (by decide) (by simp [init, addBlock]) (by decide) (by simp [genesisPast])
    (show (((init 1#256 0x1d00ffff#32 genesisPast).addBlock 2#256 [1#256] 0x1d00ffff#32 tipData
      genesisPast).manager 1#256 1 (by decide)).ghostdag .debug 4 [1#256] = some tipData from rfl)

/-- Every header of `twoTips` has the bits `0x1d00ffff`, whose work is that of `tipData`. -/
theorem twoTips_workAtMost : twoTips.WorkAtMost .debug 4295032833 := by
  intro b _ bits w hbits hw
  have hbits' : bits = 0x1d00ffff#32 := by
    simp only [twoTips, addBlock, init, Function.update_apply] at hbits
    split_ifs at hbits <;> simp_all
  subst hbits'
  rw [show calcWork .debug 0x1d00ffff#32 = some 4295032833 from rfl, Option.some_inj] at hw
  exact hw.ge

/-- The block merging the two tips gets its data in a debug build. -/
theorem ghostdag_returns_of_reachable_twoTips :
    ∃ fuel D, (twoTips.manager 1#256 1 (by decide)).ghostdag .debug fuel [2#256, 3#256] = some D :=
  ghostdag_returns_of_reachable reachable_twoTips (by simp) (by simp [twoTips, addBlock])
    (by simp [twoTips, addBlock, init])
    fun _ => ⟨4295032833, twoTips_workAtMost, by simp [twoTips, addBlock, init]⟩

theorem selectedChain_reaches_genesis_twoTips : ChainTo twoTips 1#256 3#256 1#256 :=
  selectedChain_reaches_genesis reachable_twoTips (by simp [twoTips, addBlock])

/-- The data of a block on genesis alone, with the work of the bits `0x0b000001`
(the target `2 ^ 64`), just below `2 ^ 192`. -/
def heavyTipData : GhostdagData :=
  ⟨1, 6277101735386680763495507056286727952657427581105975853055, 1#256, [1#256], [],
    (∅ : BlockHashMap ℕ).insert 1#256 0⟩

/-- Genesis and a block on it, both with the bits `0x0b000001`. -/
def heavyChain : Stores :=
  (init 1#256 0x0b000001#32 genesisPast).addBlock 2#256 [1#256] 0x0b000001#32 heavyTipData genesisPast

-- the block's data is what `ghostdag` gives it
example : ((init 1#256 0x0b000001#32 genesisPast).manager 1#256 1 (by decide)).ghostdag .debug 4 [1#256] =
    some heavyTipData := rfl

-- a block on it would have a blue work past `2 ^ 192`: a debug build panics, a release build wraps
example : (heavyChain.manager 1#256 1 (by decide)).ghostdag .debug 4 [2#256] = none := rfl

example : ((heavyChain.manager 1#256 1 (by decide)).ghostdag .release 4 [2#256]).isSome := rfl

end Stores

end RustyKaspa.Consensus.Ghostdag
