import RustyKaspa.Consensus.Ghostdag.Protocol
import Mathlib.Data.List.Sigma

/-!
# What the coloring of a mergeset keeps

Properties of every run of `ghostdag`, whatever the stores and the reachability
service answer. One turn of the coloring loop appends the candidate to the
mergeset blues or to the mergeset reds (`colorCandidate_cases`), so the blues
after the selected parent and the reds split the mergeset, each in the
ascending blue-work order the mergeset is visited in.

The `k`-cluster checks bound what the new block's data records: a candidate is
colored blue only while fewer than `k + 1` blues exist, only with at most `k`
blues in its anticone, and only when each of those has fewer than `k` in its own
(`assert!` panics on more than `k`). So every blue anticone size the data
records is at most `k` (`Bounded`).

Results:
* `ghostdag_coloring_partition`: the mergeset blues are the selected parent
  followed by some of the mergeset, the reds are the rest, and both are strictly
  ascending by blue work and hash.
* `ghostdag_kCluster_bounds`: the data has at most `k + 1` mergeset blues, each
  with a recorded blue anticone size, and every recorded size is at most `k`.
-/

namespace RustyKaspa.Consensus.Ghostdag

open RustyKaspa.Consensus.Ghostdag.GhostdagData

/-! ## Maps of blue anticone sizes -/

section Sizes

/-- The entries of the candidate's map, each one more, inserted over a map. -/
def insertSuccs (sizes : BlockHashMap ℕ) (entries : List (Σ _ : Hash, ℕ)) : BlockHashMap ℕ :=
  entries.foldl (fun acc e => acc.insert e.1 (e.2 + 1)) sizes

theorem addBlue_bluesAnticoneSizes (d : GhostdagData) (block : Hash) (size : ℕ) (sizes : BlockHashMap ℕ) :
    (d.addBlue block size sizes).bluesAnticoneSizes =
      insertSuccs (d.bluesAnticoneSizes.insert block size) sizes.entries := rfl

theorem mem_insertSuccs {sizes : BlockHashMap ℕ} {b : Hash} (entries : List (Σ _ : Hash, ℕ))
    (hb : b ∈ sizes) : b ∈ insertSuccs sizes entries := by
  induction entries generalizing sizes with
  | nil => exact hb
  | cons e es ih => exact ih ((AList.mem_insert _).mpr (Or.inr hb))

theorem lookup_insertSuccs {sizes : BlockHashMap ℕ} {b : Hash} {s : ℕ} (entries : List (Σ _ : Hash, ℕ))
    (h : (insertSuccs sizes entries).lookup b = some s) :
    sizes.lookup b = some s ∨ ∃ e ∈ entries, s = e.2 + 1 := by
  induction entries generalizing sizes with
  | nil => exact Or.inl h
  | cons e es ih =>
    rcases ih h with h | ⟨e', he', hs⟩
    · by_cases hbe : b = e.1
      · subst hbe
        rw [AList.lookup_insert, Option.some_inj] at h
        exact Or.inr ⟨e, List.mem_cons_self, h.symm⟩
      · rw [AList.lookup_insert_ne hbe] at h
        exact Or.inl h
    · exact Or.inr ⟨e', List.mem_cons_of_mem e he', hs⟩

/-- Every entry of the map is below `bound`. -/
def EntriesBelow (sizes : BlockHashMap ℕ) (bound : ℕ) : Prop := ∀ e ∈ sizes.entries, e.2 < bound

theorem entriesBelow_empty (bound : ℕ) : EntriesBelow ∅ bound := fun _ he => absurd he List.not_mem_nil

theorem EntriesBelow.insert {sizes : BlockHashMap ℕ} {bound : ℕ} (h : EntriesBelow sizes bound) {b : Hash} {s : ℕ}
    (hs : s < bound) : EntriesBelow (sizes.insert b s) bound := by
  intro e he
  rw [AList.entries_insert, List.mem_cons] at he
  rcases he with rfl | he
  · exact hs
  · exact h e ((List.kerase_sublist _ _).subset he)

end Sizes

/-! ## The checks of one candidate -/

namespace GhostdagManager

variable {m : GhostdagManager} {fuel : ℕ} {newBlockData : GhostdagData} {blueCandidate : Hash}

/-- The loop over a chain block's blues never concludes blue, and while it goes
on the candidate's anticone has at most `k` blues, each with fewer than `k`. -/
theorem checkPeers_inv {peers : List Hash} :
    ∀ {sizes sizes' : BlockHashMap ℕ} {size size' : ℕ} {state : ColoringState},
      m.checkPeers fuel newBlockData blueCandidate peers sizes size = some (state, sizes', size') →
      size ≤ m.k → EntriesBelow sizes m.k →
      state ≠ .blue ∧ (state = .pending → size' ≤ m.k ∧ EntriesBelow sizes' m.k) := by
  induction peers with
  | nil =>
    intro sizes sizes' size size' state h hsize hsizes
    simp only [checkPeers, Option.some.injEq, Prod.mk.injEq] at h
    obtain ⟨rfl, rfl, rfl⟩ := h
    exact ⟨nofun, fun _ => ⟨hsize, hsizes⟩⟩
  | cons peer peers ih =>
    intro sizes sizes' size size' state h hsize hsizes
    rw [checkPeers] at h
    by_cases hpast : m.reachabilityService peer blueCandidate = true
    · rw [if_pos hpast] at h
      exact ih h hsize hsizes
    · rw [if_neg hpast] at h
      obtain ⟨peerSize, -, h⟩ := Option.bind_eq_some_iff.mp h
      split_ifs at h with hbig hfull hle
      · simp only [Option.some.injEq, Prod.mk.injEq] at h
        obtain ⟨rfl, -, -⟩ := h
        exact ⟨nofun, nofun⟩
      · simp only [Option.some.injEq, Prod.mk.injEq] at h
        obtain ⟨rfl, -, -⟩ := h
        exact ⟨nofun, nofun⟩
      · exact ih h (by omega) (hsizes.insert (lt_of_le_of_ne hle hfull))

theorem checkBlueCandidateWithChainBlock_inv {chainBlock : ChainBlock} {sizes sizes' : BlockHashMap ℕ}
    {size size' : ℕ} {state : ColoringState}
    (h : m.checkBlueCandidateWithChainBlock fuel newBlockData chainBlock blueCandidate sizes size =
      some (state, sizes', size'))
    (hsize : size ≤ m.k) (hsizes : EntriesBelow sizes m.k) :
    state ≠ .red → size' ≤ m.k ∧ EntriesBelow sizes' m.k := by
  intro hred
  unfold checkBlueCandidateWithChainBlock at h
  split_ifs at h
  · simp only [Option.some.injEq, Prod.mk.injEq] at h
    obtain ⟨-, rfl, rfl⟩ := h
    exact ⟨hsize, hsizes⟩
  · have hpeers := checkPeers_inv h hsize hsizes
    cases state
    · exact absurd rfl hpeers.1
    · exact absurd rfl hred
    · exact hpeers.2 rfl

/-- A candidate the chain walk colors blue has at most `k` blues in its
anticone, each with fewer than `k` in its own. -/
theorem checkBlueCandidateLoop_blue {n : ℕ} :
    ∀ {chainBlock : ChainBlock} {sizes sizes' : BlockHashMap ℕ} {size size' : ℕ},
      m.checkBlueCandidateLoop fuel newBlockData blueCandidate n chainBlock sizes size = some (.blue size' sizes') →
      size ≤ m.k → EntriesBelow sizes m.k → size' ≤ m.k ∧ EntriesBelow sizes' m.k := by
  induction n with
  | zero => intro _ _ _ _ _ h; simp [checkBlueCandidateLoop] at h
  | succ n ih =>
    intro chainBlock sizes sizes' size size' h hsize hsizes
    unfold checkBlueCandidateLoop at h
    obtain ⟨⟨state, sizes₁, size₁⟩, hstep, h⟩ := Option.bind_eq_some_iff.mp h
    have hinv := checkBlueCandidateWithChainBlock_inv hstep hsize hsizes
    cases state with
    | blue =>
      simp only [Option.some.injEq, ColoringOutput.blue.injEq] at h
      obtain ⟨rfl, rfl⟩ := h
      exact hinv nofun
    | red => simp at h
    | pending =>
      obtain ⟨data, -, h⟩ := Option.bind_eq_some_iff.mp h
      obtain ⟨hsize₁, hsizes₁⟩ := hinv nofun
      exact ih h hsize₁ hsizes₁

theorem checkBlueCandidate_blue {size : ℕ} {sizes : BlockHashMap ℕ}
    (h : m.checkBlueCandidate fuel newBlockData blueCandidate = some (.blue size sizes)) :
    newBlockData.mergesetBlues.length % 2 ^ 16 ≠ m.k + 1 ∧ size ≤ m.k ∧ EntriesBelow sizes m.k := by
  unfold checkBlueCandidate at h
  split_ifs at h with hfull
  · simp at h
  · exact ⟨hfull, checkBlueCandidateLoop_blue h (Nat.zero_le _) (entriesBelow_empty _)⟩

/-- One turn of the coloring loop colors the candidate blue or red. -/
theorem colorCandidate_cases {d d' : GhostdagData} {c : Hash} (h : m.colorCandidate fuel d c = some d') :
    (∃ size sizes, m.checkBlueCandidate fuel d c = some (.blue size sizes) ∧ d' = d.addBlue c size sizes) ∨
      d' = d.addRed c := by
  unfold colorCandidate at h
  obtain ⟨out, hout, rfl⟩ := Option.map_eq_some_iff.mp h
  cases out with
  | blue size sizes => exact Or.inl ⟨size, sizes, hout, rfl⟩
  | red => exact Or.inr rfl

/-! ## The coloring loop -/

/-- The coloring loop appends each candidate to the blues or to the reds. -/
theorem foldlM_colorCandidate_split : ∀ {mergeset : List Hash} {d d' : GhostdagData},
    mergeset.foldlM (m.colorCandidate fuel) d = some d' →
    ∃ blues reds, d'.mergesetBlues = d.mergesetBlues ++ blues ∧ d'.mergesetReds = d.mergesetReds ++ reds ∧
      d'.selectedParent = d.selectedParent ∧ (blues ++ reds).Perm mergeset ∧
      blues.Sublist mergeset ∧ reds.Sublist mergeset
  | [], d, d', h => by
    simp only [List.foldlM_nil, Option.pure_def, Option.some.injEq] at h
    subst h
    exact ⟨[], [], by simp, by simp, rfl, List.Perm.refl _, List.Sublist.slnil, List.Sublist.slnil⟩
  | c :: cs, d, d', h => by
    obtain ⟨d₁, hstep, hrest⟩ := Option.bind_eq_some_iff.mp h
    obtain ⟨blues, reds, hblues, hreds, hsp, hperm, hbsub, hrsub⟩ := foldlM_colorCandidate_split hrest
    rcases colorCandidate_cases hstep with ⟨size, sizes, -, rfl⟩ | rfl
    · refine ⟨c :: blues, reds, ?_, hreds, hsp, (hperm.cons c), hbsub.cons_cons c, hrsub.cons c⟩
      rw [hblues, addBlue_mergesetBlues, List.append_assoc, List.singleton_append]
    · refine ⟨blues, c :: reds, hblues, ?_, hsp, List.perm_middle.trans (hperm.cons c), hbsub.cons c,
        hrsub.cons_cons c⟩
      rw [hreds, addRed_mergesetReds, List.append_assoc, List.singleton_append]

/-- What the data of the new block records stays within the `k`-cluster bounds. -/
structure Bounded (k : ℕ) (d : GhostdagData) : Prop where
  length_le : d.mergesetBlues.length ≤ k + 1
  mem : ∀ b ∈ d.mergesetBlues, b ∈ d.bluesAnticoneSizes
  le : ∀ b s, d.bluesAnticoneSizes.lookup b = some s → s ≤ k

theorem bounded_newWithSelectedParent (k : ℕ) (sp : Hash) : Bounded k (newWithSelectedParent sp) where
  length_le := by simp
  mem b hb := by
    rw [newWithSelectedParent_mergesetBlues, List.mem_singleton] at hb
    rw [hb, newWithSelectedParent_bluesAnticoneSizes]
    exact (AList.mem_insert _).mpr (Or.inl rfl)
  le b s h := by
    rw [newWithSelectedParent_bluesAnticoneSizes] at h
    by_cases hb : b = sp
    · rw [hb, AList.lookup_insert, Option.some_inj] at h
      omega
    · rw [AList.lookup_insert_ne hb, AList.lookup_empty] at h
      cases h

theorem Bounded.colorCandidate {d d' : GhostdagData} {c : Hash} (hd : Bounded m.k d)
    (h : m.colorCandidate fuel d c = some d') : Bounded m.k d' := by
  rcases colorCandidate_cases h with ⟨size, sizes, hblue, rfl⟩ | rfl
  · obtain ⟨hlen, hsize, hsizes⟩ := checkBlueCandidate_blue hblue
    refine ⟨?_, ?_, ?_⟩
    · -- the length is below `2 ^ 16`, so the `KType` cast keeps it
      have := hd.length_le
      have := m.k_lt
      rw [Nat.mod_eq_of_lt (by omega)] at hlen
      simp only [addBlue_mergesetBlues, List.length_append, List.length_singleton]
      omega
    · intro b hb
      rw [addBlue_bluesAnticoneSizes]
      apply mem_insertSuccs
      rw [AList.mem_insert]
      rw [addBlue_mergesetBlues, List.mem_append, List.mem_singleton] at hb
      rcases hb with hb | rfl
      · exact Or.inr (hd.mem b hb)
      · exact Or.inl rfl
    · intro b s hs
      rw [addBlue_bluesAnticoneSizes] at hs
      rcases lookup_insertSuccs _ hs with hs | ⟨e, he, rfl⟩
      · by_cases hbc : b = c
        · subst hbc
          rw [AList.lookup_insert, Option.some_inj] at hs
          exact hs ▸ hsize
        · rw [AList.lookup_insert_ne hbc] at hs
          exact hd.le b s hs
      · exact hsizes e he
  · exact ⟨hd.length_le, hd.mem, hd.le⟩

theorem Bounded.foldlM_colorCandidate : ∀ {mergeset : List Hash} {d d' : GhostdagData},
    Bounded m.k d → mergeset.foldlM (m.colorCandidate fuel) d = some d' → Bounded m.k d'
  | [], d, d', hd, h => by
    simp only [List.foldlM_nil, Option.pure_def, Option.some.injEq] at h
    exact h ▸ hd
  | c :: cs, d, d', hd, h => by
    obtain ⟨d₁, hstep, hrest⟩ := Option.bind_eq_some_iff.mp h
    exact Bounded.foldlM_colorCandidate (hd.colorCandidate hstep) hrest

/-! ## The order of the mergeset -/

/-- The sort key of a block: its hash and the blue work the store holds. -/
def sortKey (m : GhostdagManager) (hash : Hash) : SortableBlock := ⟨hash, (m.blueWork hash).getD 0⟩

@[simp] theorem sortKey_hash (hash : Hash) : (m.sortKey hash).hash = hash := rfl

@[simp] theorem hash_comp_sortKey : SortableBlock.hash ∘ m.sortKey = id := rfl

theorem sortKey_injective : Function.Injective m.sortKey := fun a b h => by
  simpa using congrArg SortableBlock.hash h

theorem sortableBlock_eq_some {hash : Hash} {b : SortableBlock} (h : m.sortableBlock hash = some b) :
    (m.blueWork hash).isSome ∧ b = m.sortKey hash := by
  unfold sortableBlock at h
  obtain ⟨w, hw, rfl⟩ := Option.map_eq_some_iff.mp h
  simp [sortKey, hw]

theorem mapM_sortableBlock_eq_some : ∀ {blocks : List Hash} {sortable : List SortableBlock},
    blocks.mapM m.sortableBlock = some sortable →
      (∀ b ∈ blocks, (m.blueWork b).isSome) ∧ sortable = blocks.map m.sortKey
  | [], sortable, h => by
    simp only [List.mapM_nil, Option.pure_def, Option.some.injEq] at h
    exact ⟨nofun, h.symm⟩
  | b :: bs, sortable, h => by
    simp only [List.mapM_cons, Option.bind_eq_bind, Option.bind_eq_some_iff, Option.pure_def,
      Option.some.injEq] at h
    obtain ⟨x, hx, xs, hxs, rfl⟩ := h
    obtain ⟨hb, rfl⟩ := sortableBlock_eq_some hx
    obtain ⟨hbs, rfl⟩ := mapM_sortableBlock_eq_some hxs
    refine ⟨fun b' hb' => ?_, rfl⟩
    rcases List.mem_cons.mp hb' with rfl | hb'
    · exact hb
    · exact hbs b' hb'

/-- `sort_blocks` returns the blocks ordered by blue work and hash. -/
theorem sortBlocks_spec {blocks ordered : List Hash} (h : m.sortBlocks blocks = some ordered) :
    ordered.Perm blocks ∧ ordered.Pairwise (fun a b => m.sortKey a ≤ m.sortKey b) := by
  unfold sortBlocks at h
  obtain ⟨sortable, hsortable, rfl⟩ := Option.map_eq_some_iff.mp h
  obtain ⟨-, rfl⟩ := mapM_sortableBlock_eq_some hsortable
  constructor
  · have hperm := ((List.perm_insertionSort (fun a b => a ≤ b) (blocks.map m.sortKey)).map SortableBlock.hash)
    simpa [List.map_map] using hperm
  · rw [List.pairwise_map]
    apply (List.pairwise_insertionSort (fun a b => a ≤ b) (blocks.map m.sortKey)).imp_of_mem
    intro a b ha hb hab
    rw [List.mem_insertionSort, List.mem_map] at ha hb
    obtain ⟨a', -, rfl⟩ := ha
    obtain ⟨b', -, rfl⟩ := hb
    simpa using hab

/-- Sorted blocks that are all different are in strictly ascending order. -/
theorem pairwise_lt_of_sortBlocks {blocks ordered : List Hash} (h : m.sortBlocks blocks = some ordered)
    (hnodup : blocks.Nodup) : ordered.Pairwise (fun a b => m.sortKey a < m.sortKey b) := by
  obtain ⟨hperm, hsorted⟩ := sortBlocks_spec h
  apply (hsorted.and (hperm.nodup_iff.mpr hnodup)).imp
  rintro a b ⟨hle, hne⟩
  exact lt_of_le_of_ne hle (sortKey_injective.ne hne)

end GhostdagManager

/-! ## What `ghostdag` returns -/

namespace GhostdagManager

variable {m : GhostdagManager} {profile : Math.Profile} {fuel : ℕ} {parents : List Hash} {D : GhostdagData}

/-- What `ghostdag` does: a child of `ORIGIN` gets the data of
`new_with_selected_parent`; otherwise the mergeset is searched, sorted and
colored, and the score and work are added up. -/
theorem ghostdag_cases (h : m.ghostdag profile fuel parents = some D) :
    (m.findSelectedParent parents = some ORIGIN ∧ D = newWithSelectedParent ORIGIN) ∨
      (D.selectedParent ≠ ORIGIN ∧ m.findSelectedParent parents = some D.selectedParent ∧
        ∃ mergeset ordered newBlockData,
          m.unorderedMergesetWithoutSelectedParent fuel D.selectedParent parents = some mergeset ∧
          m.sortBlocks mergeset = some ordered ∧
          ordered.foldlM (m.colorCandidate fuel) (newWithSelectedParent D.selectedParent) = some newBlockData ∧
          D.mergesetBlues = newBlockData.mergesetBlues ∧ D.mergesetReds = newBlockData.mergesetReds ∧
          D.bluesAnticoneSizes = newBlockData.bluesAnticoneSizes ∧
          ∃ score, m.blueScore D.selectedParent = some score ∧
            Math.overflowCheckedAdd 64 score newBlockData.mergesetBlues.length = some D.blueScore ∧
            ∃ added spWork, m.addedBlueWork profile newBlockData.mergesetBlues = some added ∧
              m.blueWork D.selectedParent = some spWork ∧
              Math.checkedAdd profile 192 spWork added = some D.blueWork) := by
  unfold ghostdag at h
  split_ifs at h with hempty
  obtain ⟨sp, hfind, h⟩ := Option.bind_eq_some_iff.mp h
  split_ifs at h with horigin
  · simp only [Option.some.injEq] at h
    subst horigin h
    exact Or.inl ⟨hfind, rfl⟩
  · obtain ⟨ordered, hordered, h⟩ := Option.bind_eq_some_iff.mp h
    obtain ⟨newBlockData, hfold, h⟩ := Option.bind_eq_some_iff.mp h
    obtain ⟨score, hscore, h⟩ := Option.bind_eq_some_iff.mp h
    obtain ⟨blueScore, hblueScore, h⟩ := Option.bind_eq_some_iff.mp h
    obtain ⟨added, hadded, h⟩ := Option.bind_eq_some_iff.mp h
    obtain ⟨spWork, hspWork, h⟩ := Option.bind_eq_some_iff.mp h
    obtain ⟨blueWork, hblueWork, rfl⟩ := Option.map_eq_some_iff.mp h
    obtain ⟨mergeset, hmergeset, hsort⟩ := Option.bind_eq_some_iff.mp hordered
    obtain ⟨-, -, -, -, hsp, -⟩ := foldlM_colorCandidate_split hfold
    have hspD : (newBlockData.finalizeScoreAndWork blueScore blueWork).selectedParent = sp := by
      simpa using hsp
    rw [hspD]
    exact Or.inr ⟨horigin, hfind, mergeset, ordered, newBlockData, hmergeset, hsort, hfold, rfl, rfl, rfl,
      score, hscore, hblueScore, added, spWork, hadded, hspWork, hblueWork⟩

theorem ghostdag_eq_some (h : m.ghostdag profile fuel parents = some D) (hsp : D.selectedParent ≠ ORIGIN) :
    m.findSelectedParent parents = some D.selectedParent ∧
      ∃ mergeset ordered newBlockData,
        m.unorderedMergesetWithoutSelectedParent fuel D.selectedParent parents = some mergeset ∧
        m.sortBlocks mergeset = some ordered ∧
        ordered.foldlM (m.colorCandidate fuel) (newWithSelectedParent D.selectedParent) = some newBlockData ∧
        D.mergesetBlues = newBlockData.mergesetBlues ∧ D.mergesetReds = newBlockData.mergesetReds ∧
        D.bluesAnticoneSizes = newBlockData.bluesAnticoneSizes ∧
        ∃ score, m.blueScore D.selectedParent = some score ∧
          Math.overflowCheckedAdd 64 score newBlockData.mergesetBlues.length = some D.blueScore ∧
          ∃ added spWork, m.addedBlueWork profile newBlockData.mergesetBlues = some added ∧
            m.blueWork D.selectedParent = some spWork ∧
            Math.checkedAdd profile 192 spWork added = some D.blueWork := by
  rcases ghostdag_cases h with ⟨-, rfl⟩ | ⟨-, hsteps⟩
  · exact absurd rfl hsp
  · exact hsteps

/-- Whatever the stores answer, the blocks the mergeset search returns are
split by the coloring: the mergeset blues are the selected parent followed by
some of them, the mergeset reds are the others, and both are strictly
ascending by blue work and hash. -/
theorem ghostdag_coloring_partition (h : m.ghostdag profile fuel parents = some D)
    (hsp : D.selectedParent ≠ ORIGIN) :
    m.findSelectedParent parents = some D.selectedParent ∧
      ∃ mergeset blues, m.unorderedMergesetWithoutSelectedParent fuel D.selectedParent parents = some mergeset ∧
        D.mergesetBlues = D.selectedParent :: blues ∧ (blues ++ D.mergesetReds).Perm mergeset ∧
        blues.Pairwise (fun a b => m.sortKey a < m.sortKey b) ∧
        D.mergesetReds.Pairwise (fun a b => m.sortKey a < m.sortKey b) := by
  obtain ⟨hfind, mergeset, ordered, newBlockData, hmergeset, hsort, hfold, hblues, hreds, -⟩ :=
    ghostdag_eq_some h hsp
  obtain ⟨blues, reds, hblues', hreds', -, hperm, hbsub, hrsub⟩ := foldlM_colorCandidate_split hfold
  have hascending := pairwise_lt_of_sortBlocks hsort (Worklist.nodup_of_search_eq_some
    (List.nodup_dedup _) hmergeset)
  refine ⟨hfind, mergeset, blues, hmergeset, ?_, ?_, hascending.sublist hbsub, ?_⟩
  · rw [hblues, hblues']
    rfl
  · rw [hreds, hreds']
    exact hperm.trans (sortBlocks_spec hsort).1
  · rw [hreds, hreds']
    exact hascending.sublist hrsub

/-- Two blocks on genesis, the second of larger blue work, as the stores of a
node that has them hold them; `k = 1`. -/
def twoTipsManager : GhostdagManager where
  genesisHash := 1#256
  k := 1
  k_lt := by decide
  ghostdagStore hash :=
    if hash = 1#256 then some genesisGhostdagData
    else if hash = 2#256 then some ⟨1, 10, 1#256, [1#256], [], (∅ : BlockHashMap ℕ).insert 1#256 0⟩
    else if hash = 3#256 then some ⟨1, 11, 1#256, [1#256], [], (∅ : BlockHashMap ℕ).insert 1#256 0⟩
    else none
  relationsStore hash :=
    if hash = 1#256 then some [] else if hash = 2#256 ∨ hash = 3#256 then some [1#256] else none
  headersStore _ := some 0x1d00ffff#32
  reachabilityService a b := a = b || a = 1#256
  levelWork := 0
  levelWork_lt := Nat.two_pow_pos 192

theorem ghostdag_twoTips_isSome : (twoTipsManager.ghostdag .release 4 [2#256, 3#256]).isSome := by decide

/-- The block merging the two: the first is blue in the anticone of the second. -/
theorem ghostdag_coloring_partition_twoTips :
    ∃ D, twoTipsManager.ghostdag .release 4 [2#256, 3#256] = some D ∧
      twoTipsManager.findSelectedParent [2#256, 3#256] = some D.selectedParent ∧
      ∃ mergeset blues,
        twoTipsManager.unorderedMergesetWithoutSelectedParent 4 D.selectedParent [2#256, 3#256] = some mergeset ∧
        D.mergesetBlues = D.selectedParent :: blues ∧ (blues ++ D.mergesetReds).Perm mergeset ∧
        blues.Pairwise (fun a b => twoTipsManager.sortKey a < twoTipsManager.sortKey b) ∧
        D.mergesetReds.Pairwise (fun a b => twoTipsManager.sortKey a < twoTipsManager.sortKey b) :=
  ⟨_, (Option.some_get ghostdag_twoTips_isSome).symm,
    ghostdag_coloring_partition (Option.some_get ghostdag_twoTips_isSome).symm (by decide)⟩

theorem Bounded.ghostdag (h : m.ghostdag profile fuel parents = some D) : Bounded m.k D := by
  rcases ghostdag_cases h with ⟨-, rfl⟩ |
    ⟨-, -, mergeset, ordered, newBlockData, -, -, hfold, hblues, -, hsizes, -⟩
  · exact bounded_newWithSelectedParent m.k ORIGIN
  · have hb := (bounded_newWithSelectedParent m.k D.selectedParent).foldlM_colorCandidate hfold
    exact ⟨hblues ▸ hb.length_le, hblues ▸ hsizes ▸ hb.mem, hsizes ▸ hb.le⟩

/-- Whatever the stores answer, the data `ghostdag` returns has at most `k + 1`
mergeset blues, records a blue anticone size for each, and records no size
above `k`. -/
theorem ghostdag_kCluster_bounds (h : m.ghostdag profile fuel parents = some D) :
    D.mergesetBlues.length ≤ m.k + 1 ∧ (∀ b ∈ D.mergesetBlues, b ∈ D.bluesAnticoneSizes) ∧
      ∀ b s, D.bluesAnticoneSizes.lookup b = some s → s ≤ m.k := by
  have hbounded := Bounded.ghostdag h
  exact ⟨hbounded.length_le, hbounded.mem, hbounded.le⟩

theorem ghostdag_kCluster_bounds_twoTips :
    ∃ D, twoTipsManager.ghostdag .release 4 [2#256, 3#256] = some D ∧
      D.mergesetBlues.length ≤ twoTipsManager.k + 1 ∧ (∀ b ∈ D.mergesetBlues, b ∈ D.bluesAnticoneSizes) ∧
      ∀ b s, D.bluesAnticoneSizes.lookup b = some s → s ≤ twoTipsManager.k :=
  ⟨_, (Option.some_get ghostdag_twoTips_isSome).symm,
    ghostdag_kCluster_bounds (Option.some_get ghostdag_twoTips_isSome).symm⟩

end GhostdagManager

end RustyKaspa.Consensus.Ghostdag
