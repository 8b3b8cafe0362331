import RustyKaspa.Lib.Maxima
import RustyKaspa.Consensus.ParentsBuilder

/-!
# Level tips of a past

What the level parents of a block stand for: at level `l`, the maximal blocks,
under DAG ancestry, of the direct parents and their past whose block level is at
least `l`, with genesis standing for the empty set. The DAG is the one the
header store and the reachability service of a `ParentsManager` describe, over
a finite set of stored blocks (`StoredDag`): genesis lies below every block and
has the highest level, and every stored header lists the level tips of its own
direct parents.

Results:
* `parentsAtLevel_levelTips`: `parents_at_level` of a stored header reads the
  level tips of its direct parents, also past its stored levels.
* `levelTips_eq_maxima_split`: the level tips of a set of blocks are the maxima
  of its members at the level together with the level tips of its other
  members' direct parents. This is the set the builder assembles.
* `levelTips_zero`: at level 0 the tips of an antichain are the antichain.
-/

namespace RustyKaspa.Consensus

open RelMaxima

namespace ParentsManager

variable (m : ParentsManager)

/-- The block level of a stored block. -/
def blockLevel (hash : Hash) : Nat :=
  (m.getHeaderWithBlockLevel hash).blockLevel

/-- The stored blocks of the inclusive past of `P` at level `l` or above. -/
def levelSet (blocks : Finset Hash) (P : List Hash) (l : Nat) : Finset Hash :=
  blocks.filter (fun x => l ≤ m.blockLevel x ∧ P.any (fun p => m.isDagAncestorOf x p) = true)

/-- The level tips of `P` at level `l`: the maxima of `levelSet`, or genesis
when it is empty. -/
def levelTips (blocks : Finset Hash) (P : List Hash) (l : Nat) : Finset Hash :=
  if m.levelSet blocks P l = ∅ then {m.genesisHash}
  else maxima m.isDagAncestorOf (m.levelSet blocks P l)

/-- `levels` holds the level tips of `P` level by level, each without
duplicates, and stops exactly before the first level above 0 whose tips are
genesis alone. -/
structure LevelTipsOf (blocks : Finset Hash) (P : List Hash) (levels : List (List Hash)) :
    Prop where
  length_pos : 0 < levels.length
  tips : ∀ l (hl : l < levels.length), levels[l].toFinset = m.levelTips blocks P l
  nodup : ∀ l (hl : l < levels.length), levels[l].Nodup
  continues : ∀ l, 0 < l → l < levels.length → m.levelTips blocks P l ≠ {m.genesisHash}
  stops : m.levelTips blocks P levels.length = {m.genesisHash}

/-- The direct parents of a stored block: level 0 of its header. -/
def directParents (hash : Hash) : List Hash :=
  ((m.getHeader hash).parentsByLevel.expanded.head?).getD []

/-- The stores over the stored blocks `blocks`: ancestry is a partial order
with genesis at the bottom, every stored block has reachability data, genesis
has the highest level, and every other stored header lists the level tips of
its direct parents, whose inclusive past is its strict past. -/
structure StoredDag (blocks : Finset Hash) : Prop where
  order : IsPartialOrder m.isDagAncestorOf
  reachability : ∀ x ∈ blocks, m.hasReachabilityData x = true
  hash : ∀ x ∈ blocks, (m.getHeader x).hash = x
  genesis_mem : m.genesisHash ∈ blocks
  genesis_le : ∀ x ∈ blocks, m.isDagAncestorOf m.genesisHash x = true
  genesis_level : m.blockLevel m.genesisHash = m.maxBlockLevel
  level_le : ∀ x ∈ blocks, m.blockLevel x ≤ m.maxBlockLevel
  wellFormed : ∀ x ∈ blocks, (m.getHeader x).parentsByLevel.WellFormed
  stored : ∀ x ∈ blocks, x ≠ m.genesisHash →
    m.LevelTipsOf blocks (m.directParents x) (m.getHeader x).parentsByLevel.expanded
  past : ∀ x ∈ blocks, x ≠ m.genesisHash → ∀ y ∈ blocks,
    (m.isDagAncestorOf y x = true ∧ y ≠ x) ↔
      ∃ q ∈ m.directParents x, m.isDagAncestorOf y q = true

variable {m} {blocks : Finset Hash} {P : List Hash} {l : Nat}

theorem mem_levelSet {x : Hash} :
    x ∈ m.levelSet blocks P l ↔
      x ∈ blocks ∧ l ≤ m.blockLevel x ∧ ∃ p ∈ P, m.isDagAncestorOf x p = true := by
  simp [levelSet]

theorem levelSet_antitone {l l' : Nat} (hll' : l ≤ l') :
    m.levelSet blocks P l' ⊆ m.levelSet blocks P l := by
  intro x hx
  obtain ⟨hxb, hlx, hxP⟩ := mem_levelSet.mp hx
  exact mem_levelSet.mpr ⟨hxb, le_trans hll' hlx, hxP⟩

theorem levelSet_subset_blocks : m.levelSet blocks P l ⊆ blocks :=
  Finset.filter_subset _ _

theorem levelTips_of_mem {x : Hash} (hx : x ∈ m.levelSet blocks P l) :
    m.levelTips blocks P l = maxima m.isDagAncestorOf (m.levelSet blocks P l) := by
  rw [levelTips, if_neg (Finset.ne_empty_of_mem hx)]

theorem isAntichain_levelTips (blocks : Finset Hash) (P : List Hash) (l : Nat) :
    IsAntichain m.isDagAncestorOf (m.levelTips blocks P l) := by
  unfold levelTips
  split_ifs
  · intro x hx y hy _
    rw [Finset.mem_singleton.mp hx, Finset.mem_singleton.mp hy]
  · exact isAntichain_maxima _

section StoredDag

variable (hd : m.StoredDag blocks)
include hd

/-- A block below a level up to the highest is not genesis, which has the
highest level. -/
theorem ne_genesis_of_blockLevel_lt {p : Hash} (hpl : m.blockLevel p < l)
    (hl : l ≤ m.maxBlockLevel) : p ≠ m.genesisHash := by
  rintro rfl
  rw [hd.genesis_level] at hpl
  omega

theorem genesis_mem_levelSet {p : Hash} (hp : p ∈ P) (hpb : p ∈ blocks)
    (hl : l ≤ m.maxBlockLevel) : m.genesisHash ∈ m.levelSet blocks P l :=
  mem_levelSet.mpr ⟨hd.genesis_mem, hd.genesis_level ▸ hl, p, hp, hd.genesis_le p hpb⟩

/-- Above the highest level nothing is left but genesis standing for it. -/
theorem levelTips_above_max : m.levelTips blocks P (m.maxBlockLevel + 1) = {m.genesisHash} := by
  have hempty : m.levelSet blocks P (m.maxBlockLevel + 1) = ∅ := by
    refine Finset.eq_empty_of_forall_notMem fun x hx => ?_
    obtain ⟨hxb, hlx, -⟩ := mem_levelSet.mp hx
    have := hd.level_le x hxb
    omega
  rw [levelTips, if_pos hempty]

/-- Once the tips are genesis alone, they stay so at every higher level. -/
theorem levelTips_eq_genesis_of_le {l l' : Nat} (h : m.levelTips blocks P l = {m.genesisHash})
    (hll' : l ≤ l') : m.levelTips blocks P l' = {m.genesisHash} := by
  have hsub : m.levelSet blocks P l ⊆ {m.genesisHash} := by
    unfold levelTips at h
    split_ifs at h with hempty
    · rw [hempty]
      exact Finset.empty_subset _
    · intro x hx
      have hbot : ∀ y ∈ m.levelSet blocks P l, m.isDagAncestorOf m.genesisHash y = true :=
        fun y hy => hd.genesis_le y (levelSet_subset_blocks hy)
      exact Finset.mem_singleton.mpr (eq_of_maxima_eq_singleton hd.order hbot h hx)
  rcases Finset.subset_singleton_iff.mp ((levelSet_antitone hll').trans hsub) with hempty | hone
  · rw [levelTips, if_pos hempty]
  · rw [levelTips, if_neg (by simp [hone]), hone,
      maxima_of_isAntichain (isAntichain_levelTips blocks P l |>.mono (by simp [h]))]

theorem mem_levelSet_directParents {p x : Hash} (hpb : p ∈ blocks) (hpg : p ≠ m.genesisHash) :
    x ∈ m.levelSet blocks (m.directParents p) l ↔
      x ∈ blocks ∧ l ≤ m.blockLevel x ∧ m.isDagAncestorOf x p = true ∧ x ≠ p := by
  rw [mem_levelSet]
  constructor
  · rintro ⟨hxb, hlx, hq⟩
    exact ⟨hxb, hlx, ((hd.past p hpb hpg x hxb).mpr hq)⟩
  · rintro ⟨hxb, hlx, hxp⟩
    exact ⟨hxb, hlx, (hd.past p hpb hpg x hxb).mp hxp⟩

theorem levelTips_directParents {p : Hash} (hpb : p ∈ blocks) (hpg : p ≠ m.genesisHash)
    (hl : l ≤ m.maxBlockLevel) :
    m.levelTips blocks (m.directParents p) l =
      maxima m.isDagAncestorOf (m.levelSet blocks (m.directParents p) l) := by
  refine levelTips_of_mem ((mem_levelSet_directParents hd hpb hpg).mpr ⟨hd.genesis_mem, ?_, ?_, ?_⟩)
  · exact hd.genesis_level ▸ hl
  · exact hd.genesis_le p hpb
  · exact Ne.symm hpg

/-- `parents_at_level` of a stored header: the level tips of its direct
parents, past the stored levels too, where it answers genesis. -/
theorem parentsAtLevel_levelTips {p : Hash} (hpb : p ∈ blocks) (hpg : p ≠ m.genesisHash)
    (l : Nat) :
    (m.parentsAtLevel (m.getHeader p) l).toFinset = m.levelTips blocks (m.directParents p) l ∧
      (m.parentsAtLevel (m.getHeader p) l).Nodup := by
  have hstored := hd.stored p hpb hpg
  have hget := CompressedParents.get_eq_expanded (hd.wellFormed p hpb) l
  by_cases hl : l < (m.getHeader p).parentsByLevel.expanded.length
  · rw [List.getElem?_eq_getElem hl] at hget
    simp only [parentsAtLevel, hget]
    exact ⟨hstored.tips l hl, hstored.nodup l hl⟩
  · -- past the stored levels: the header is not genesis's, so the answer is genesis
    rw [List.getElem?_eq_none (by omega)] at hget
    have hruns : (m.getHeader p).parentsByLevel.isEmpty = false := by
      have hpos := hstored.length_pos
      cases hr : (m.getHeader p).parentsByLevel.runs with
      | nil => simp [CompressedParents.expanded, hr, CompressedParents.expandRuns] at hpos
      | cons r rs => simp [CompressedParents.isEmpty, hr]
    simp only [parentsAtLevel, hget, hruns]
    refine ⟨?_, List.nodup_singleton _⟩
    rw [levelTips_eq_genesis_of_le hd hstored.stops (by omega)]
    rfl

/-- The level tips of `P` split as the builder assembles them: the members at
the level, and the level tips of the direct parents of the members below it. -/
theorem levelTips_eq_maxima_split (hP : ∀ p ∈ P, p ∈ blocks) (hne : P ≠ [])
    (hl : l ≤ m.maxBlockLevel) :
    m.levelTips blocks P l =
      maxima m.isDagAncestorOf ((P.filter (fun p => l ≤ m.blockLevel p)).toFinset ∪
        ((P.filter (fun p => m.blockLevel p < l)).flatMap
          (fun p => m.parentsAtLevel (m.getHeader p) l)).toFinset) := by
  obtain ⟨p₀, hp₀⟩ := List.exists_mem_of_ne_nil P hne
  rw [levelTips_of_mem (genesis_mem_levelSet hd hp₀ (hP p₀ hp₀) hl)]
  have hlow : ∀ p, m.blockLevel p < l → p ≠ m.genesisHash :=
    fun p hpl => ne_genesis_of_blockLevel_lt hd hpl hl
  apply maxima_eq_of_dominated hd.order
  · intro x hx
    simp only [Finset.mem_union, List.mem_toFinset, List.mem_filter, List.mem_flatMap,
      decide_eq_true_eq] at hx
    rcases hx with ⟨hxP, hlx⟩ | ⟨p, ⟨hpP, hpl⟩, hx⟩
    · exact mem_levelSet.mpr ⟨hP x hxP, hlx, x, hxP, hd.order.refl x⟩
    · have hpb := hP p hpP
      have hxtips : x ∈ m.levelTips blocks (m.directParents p) l := by
        rw [← (parentsAtLevel_levelTips hd hpb (hlow p hpl) l).1]
        exact List.mem_toFinset.mpr hx
      rw [levelTips_directParents hd hpb (hlow p hpl) hl] at hxtips
      obtain ⟨hxb, hlx, hxp, -⟩ :=
        (mem_levelSet_directParents hd hpb (hlow p hpl)).mp (maxima_subset _ hxtips)
      exact mem_levelSet.mpr ⟨hxb, hlx, p, hpP, hxp⟩
  · intro x hx
    obtain ⟨hxb, hlx, p, hpP, hxp⟩ := mem_levelSet.mp hx
    by_cases hpl : l ≤ m.blockLevel p
    · exact ⟨p, by simp [hpP, hpl], hxp⟩
    · -- `x` is at the level and `p` below it, so `x` lies in the past of `p`'s direct parents
      have hpl' : m.blockLevel p < l := by omega
      have hpb := hP p hpP
      have hxp' : x ≠ p := by
        rintro rfl
        omega
      have hxset : x ∈ m.levelSet blocks (m.directParents p) l :=
        (mem_levelSet_directParents hd hpb (hlow p hpl')).mpr ⟨hxb, hlx, hxp, hxp'⟩
      obtain ⟨y, hy, hxy⟩ := exists_maxima_le hd.order hxset
      rw [← levelTips_directParents hd hpb (hlow p hpl') hl,
        ← (parentsAtLevel_levelTips hd hpb (hlow p hpl') l).1] at hy
      refine ⟨y, ?_, hxy⟩
      simp only [Finset.mem_union, List.mem_toFinset, List.mem_filter, List.mem_flatMap,
        decide_eq_true_eq]
      exact Or.inr ⟨p, ⟨hpP, hpl'⟩, List.mem_toFinset.mp hy⟩

/-- At level 0 the tips of an antichain of stored blocks are the antichain. -/
theorem levelTips_zero (hP : ∀ p ∈ P, p ∈ blocks) (hne : P ≠ [])
    (hanti : IsAntichain m.isDagAncestorOf P.toFinset) :
    m.levelTips blocks P 0 = P.toFinset := by
  obtain ⟨p₀, hp₀⟩ := List.exists_mem_of_ne_nil P hne
  rw [levelTips_of_mem (genesis_mem_levelSet hd hp₀ (hP p₀ hp₀) (Nat.zero_le _)),
    ← maxima_of_isAntichain hanti]
  apply maxima_eq_of_dominated hd.order
  · intro x hx
    have hxP := List.mem_toFinset.mp hx
    exact mem_levelSet.mpr ⟨hP x hxP, Nat.zero_le _, x, hxP, hd.order.refl x⟩
  · intro x hx
    obtain ⟨-, -, p, hpP, hxp⟩ := mem_levelSet.mp hx
    exact ⟨p, List.mem_toFinset.mpr hpP, hxp⟩

end StoredDag

end ParentsManager

end RustyKaspa.Consensus
