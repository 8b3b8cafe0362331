import RustyKaspa.Consensus.LevelTips

/-!
# The parents builder computes the level tips

`calc_block_parents` returns, level by level, the level tips of the direct
parents' past, when every block has reachability data and every stored header
lists the level tips of its own direct parents.

The grandparents loop keeps its candidates the maxima of what it has seen
(`CandidatesFor`): a checked grandparent is the antichain update of
`maxima_insert_retain`, and the first parent's level parents, taken without
checks, are an antichain already. The fast path returns those of the first
parent when no other parent brings a new one, which are then the maxima too.

Results:
* `processGrandparents_candidatesFor`: the checked part of the loop keeps the
  candidates the maxima of the processed grandparents.
* `levelParents_maxima`: one level is the maxima of the direct parents at the
  level and of the level parents of the others.
* `levelsLoop_levelTipsOf`: the loop over levels emits the level tips and stops
  before the first level above 0 whose tips are genesis alone.
* `calcBlockParents_levelTips`: the whole builder.
-/

namespace RustyKaspa.Consensus

open RelMaxima

namespace ParentsManager

variable {m : ParentsManager}

/-! ## The candidates map -/

/-- Every candidate is its own only reference block, as for blocks with
reachability data. -/
def SelfReferenced (cands : List (Hash × List Hash)) : Prop :=
  ∀ entry ∈ cands, entry.2 = [entry.1]

/-- The candidates hold the maxima of `S` under `le`, each once and its own
reference block. -/
structure CandidatesFor (le : Hash → Hash → Bool) (cands : List (Hash × List Hash))
    (S : Finset Hash) : Prop where
  selfReferenced : SelfReferenced cands
  nodup : (cands.map Prod.fst).Nodup
  keys : (cands.map Prod.fst).toFinset = maxima le S

theorem selfReferenced_nil : SelfReferenced [] :=
  fun _ h => nomatch h

theorem SelfReferenced.indexMapInsert {cands : List (Hash × List Hash)}
    (h : SelfReferenced cands) (key : Hash) :
    SelfReferenced (ParentsManager.indexMapInsert cands key [key]) := by
  intro entry he
  rcases mem_indexMapInsert he with rfl | he
  · rfl
  · exact h entry he

theorem toFinset_keys_indexMapInsert (cands : List (Hash × List Hash)) (key : Hash)
    (value : List Hash) :
    ((indexMapInsert cands key value).map Prod.fst).toFinset =
      insert key (cands.map Prod.fst).toFinset := by
  rw [keys_indexMapInsert]
  split_ifs with hk
  · exact (Finset.insert_eq_of_mem (List.mem_toFinset.mpr hk)).symm
  · rw [List.toFinset_append, Finset.insert_eq, Finset.union_comm]
    rfl

theorem nodup_keys_indexMapInsert {cands : List (Hash × List Hash)}
    (h : (cands.map Prod.fst).Nodup) (key : Hash) (value : List Hash) :
    ((indexMapInsert cands key value).map Prod.fst).Nodup := by
  rw [keys_indexMapInsert]
  split_ifs with hk
  · exact h
  · exact h.append (List.nodup_singleton key) (by simpa using hk)

/-- Inserting each of `xs` as its own reference block. -/
theorem foldl_indexMapInsert {α : Type} (f : α → Hash) (xs : List α)
    {cands : List (Hash × List Hash)} (hc : SelfReferenced cands) (hn : (cands.map Prod.fst).Nodup) :
    SelfReferenced (xs.foldl (fun map x => indexMapInsert map (f x) [f x]) cands) ∧
      ((xs.foldl (fun map x => indexMapInsert map (f x) [f x]) cands).map Prod.fst).Nodup ∧
      ((xs.foldl (fun map x => indexMapInsert map (f x) [f x]) cands).map Prod.fst).toFinset =
        (cands.map Prod.fst).toFinset ∪ (xs.map f).toFinset := by
  induction xs generalizing cands with
  | nil => simp [hc, hn]
  | cons x xs ih =>
    obtain ⟨hc', hn', hk'⟩ := ih (hc.indexMapInsert (f x)) (nodup_keys_indexMapInsert hn (f x) [f x])
    refine ⟨hc', hn', ?_⟩
    rw [List.foldl_cons, hk', toFinset_keys_indexMapInsert, List.map_cons, List.toFinset_cons,
      Finset.insert_union, Finset.union_insert]

/-- Candidates inserted without checks hold the maxima when they form an
antichain. -/
theorem candidatesFor_foldl {α : Type} {le : Hash → Hash → Bool} (f : α → Hash) (xs : List α)
    (hanti : IsAntichain le (xs.map f).toFinset) :
    CandidatesFor le (xs.foldl (fun map x => indexMapInsert map (f x) [f x]) []) (xs.map f).toFinset := by
  obtain ⟨hc, hn, hk⟩ := foldl_indexMapInsert f xs selfReferenced_nil List.nodup_nil
  refine ⟨hc, hn, ?_⟩
  rw [hk, maxima_of_isAntichain hanti]
  simp

theorem length_eq_card_keys {cands : List (Hash × List Hash)} (hn : (cands.map Prod.fst).Nodup) :
    cands.length = (cands.map Prod.fst).toFinset.card := by
  rw [List.toFinset_card_of_nodup hn, List.length_map]

/-! ## One grandparent -/

/-- The candidates kept by `retain`, as keys. -/
theorem keys_retain {cands : List (Hash × List Hash)} (hc : SelfReferenced cands) (g : Hash) :
    (cands.filter (fun entry => !entry.2.any (fun r => m.isDagAncestorOf r g))).map Prod.fst =
      (cands.map Prod.fst).filter (fun c => !m.isDagAncestorOf c g) := by
  rw [List.filter_map]
  congr 1
  apply List.filter_congr
  intro entry he
  simp [hc entry he]

/-- A grandparent before the marker joins without checks. -/
theorem processGrandparent_of_lt_marker {blockLevel firstParentMarker i : Nat} {g : Hash}
    (cands : List (Hash × List Hash)) (hi : i < firstParentMarker)
    (hg : m.hasReachabilityData g = true) :
    m.processGrandparent blockLevel firstParentMarker cands i g = indexMapInsert cands g [g] := by
  simp [processGrandparent, referenceBlocks, hi, hg]

/-- Of candidates that are their own references, some reference passes `p`
exactly when some key does. -/
theorem any_references {cands : List (Hash × List Hash)} (hc : SelfReferenced cands)
    (p : Hash → Bool) :
    cands.any (fun entry => entry.2.any p) = (cands.map Prod.fst).any p := by
  induction cands with
  | nil => rfl
  | cons entry rest ih =>
    have hrest : SelfReferenced rest := fun e he => hc e (List.mem_cons_of_mem _ he)
    rw [List.any_cons, hc entry List.mem_cons_self, ih hrest, List.map_cons, List.any_cons]
    simp

/-- A checked grandparent updates the candidates to the maxima with it. -/
theorem processGrandparent_candidatesFor (hp : IsPartialOrder m.isDagAncestorOf)
    (blockLevel : Nat) {firstParentMarker i : Nat} {g : Hash} {cands : List (Hash × List Hash)}
    {S : Finset Hash} (hi : firstParentMarker ≤ i) (hg : m.hasReachabilityData g = true)
    (hc : CandidatesFor m.isDagAncestorOf cands S) :
    CandidatesFor m.isDagAncestorOf (m.processGrandparent blockLevel firstParentMarker cands i g)
      (insert g S) := by
  -- the kept candidates: the maxima of `S` not below `g`
  set retained := cands.filter (fun entry => !entry.2.any (fun r => m.isDagAncestorOf r g))
  have hselfR : SelfReferenced retained := fun e he => hc.selfReferenced e (List.mem_of_mem_filter he)
  have hnodupR : (retained.map Prod.fst).Nodup := by
    rw [keys_retain hc.selfReferenced g]
    exact hc.nodup.filter _
  have hkeysR : (retained.map Prod.fst).toFinset =
      (maxima m.isDagAncestorOf S).filter (fun c => m.isDagAncestorOf c g = false) := by
    rw [keys_retain hc.selfReferenced g, List.toFinset_filter, hc.keys]
    simp
  have hstep : m.processGrandparent blockLevel firstParentMarker cands i g =
      if (decide (retained.length < cands.length) ||
          !retained.any (fun entry => entry.2.any (fun r => m.isDagAncestorOf g r))) = true then
        indexMapInsert retained g [g]
      else retained := by
    simp [processGrandparent, referenceBlocks, hg, Nat.not_lt.mpr hi, retained]
  -- the code's test is the one of `maxima_insert_retain`, read on the keys
  have htest : (decide (retained.length < cands.length) ||
        !retained.any (fun entry => entry.2.any (fun r => m.isDagAncestorOf g r))) = true ↔
      (((maxima m.isDagAncestorOf S).filter (fun c => m.isDagAncestorOf c g = false)).card <
          (maxima m.isDagAncestorOf S).card ∨
        ¬ ∃ c ∈ (maxima m.isDagAncestorOf S).filter (fun c => m.isDagAncestorOf c g = false),
          m.isDagAncestorOf g c = true) := by
    rw [length_eq_card_keys hnodupR, hkeysR, length_eq_card_keys hc.nodup, hc.keys,
      any_references hselfR, ← hkeysR]
    simp
  rw [hstep]
  have hmax := maxima_insert_retain hp S g
  by_cases hupdate : ((maxima m.isDagAncestorOf S).filter
      (fun c => m.isDagAncestorOf c g = false)).card < (maxima m.isDagAncestorOf S).card ∨
    ¬ ∃ c ∈ (maxima m.isDagAncestorOf S).filter (fun c => m.isDagAncestorOf c g = false),
      m.isDagAncestorOf g c = true
  · rw [if_pos hupdate] at hmax
    rw [if_pos (htest.mpr hupdate)]
    exact ⟨hselfR.indexMapInsert g, nodup_keys_indexMapInsert hnodupR g [g],
      by rw [hmax, toFinset_keys_indexMapInsert, hkeysR]⟩
  · rw [if_neg hupdate] at hmax
    rw [if_neg (mt htest.mp hupdate)]
    exact ⟨hselfR, hnodupR, by rw [hmax, hkeysR]⟩

/-! ## The grandparents loop -/

theorem processGrandparents_append {blockLevel firstParentMarker : Nat}
    (cands : List (Hash × List Hash)) (i : Nat) (xs ys : List Hash) :
    m.processGrandparents blockLevel firstParentMarker cands i (xs ++ ys) =
      m.processGrandparents blockLevel firstParentMarker
        (m.processGrandparents blockLevel firstParentMarker cands i xs) (i + xs.length) ys := by
  induction xs generalizing cands i with
  | nil => rfl
  | cons x xs ih =>
    rw [List.cons_append, processGrandparents, processGrandparents, ih, List.length_cons,
      Nat.add_assoc, Nat.add_comm 1]

/-- Before the marker the loop inserts every grandparent without checks. -/
theorem processGrandparents_of_le_marker {blockLevel firstParentMarker : Nat}
    (cands : List (Hash × List Hash)) (i : Nat) (xs : List Hash)
    (hi : i + xs.length ≤ firstParentMarker) (hreach : ∀ g ∈ xs, m.hasReachabilityData g = true) :
    m.processGrandparents blockLevel firstParentMarker cands i xs =
      xs.foldl (fun map g => indexMapInsert map g [g]) cands := by
  induction xs generalizing cands i with
  | nil => rfl
  | cons x xs ih =>
    have hx : i < firstParentMarker := by
      simp only [List.length_cons] at hi
      omega
    rw [processGrandparents, processGrandparent_of_lt_marker cands hx (hreach x List.mem_cons_self),
      ih _ _ (by simp only [List.length_cons] at hi; omega)
        (fun g hg => hreach g (List.mem_cons_of_mem _ hg)),
      List.foldl_cons]

/-- From the marker on, the loop keeps the candidates the maxima of everything
seen: the run lemma of `processGrandparent_candidatesFor`. -/
theorem processGrandparents_candidatesFor (hp : IsPartialOrder m.isDagAncestorOf)
    (blockLevel firstParentMarker : Nat) {cands : List (Hash × List Hash)} {S : Finset Hash}
    (i : Nat) (gs : List Hash) (hi : firstParentMarker ≤ i)
    (hreach : ∀ g ∈ gs, m.hasReachabilityData g = true)
    (hc : CandidatesFor m.isDagAncestorOf cands S) :
    CandidatesFor m.isDagAncestorOf (m.processGrandparents blockLevel firstParentMarker cands i gs)
      (S ∪ gs.toFinset) := by
  induction gs generalizing cands S i with
  | nil => simpa [processGrandparents] using hc
  | cons g gs ih =>
    have hstep := processGrandparent_candidatesFor hp blockLevel hi (hreach g List.mem_cons_self) hc
    have hrun := ih (i + 1) (by omega) (fun g' hg' => hreach g' (List.mem_cons_of_mem _ hg')) hstep
    rw [processGrandparents]
    rwa [List.toFinset_cons, Finset.union_insert, ← Finset.insert_union]

/-! ## One level -/

/-- The direct parents at the level, as a set. -/
theorem toFinset_keys_levelCandidates (first : HeaderWithBlockLevel)
    (rest : List HeaderWithBlockLevel) (l : Nat) :
    ((levelCandidates first rest l).map Prod.fst).toFinset =
      (((first :: rest).filter (fun h => l ≤ h.blockLevel)).map (fun h => h.header.hash)).toFinset := by
  rw [levelCandidates, (foldl_indexMapInsert (fun h : HeaderWithBlockLevel => h.header.hash) _
    selfReferenced_nil List.nodup_nil).2.2]
  simp

theorem levelCandidates_eq_nil_iff (first : HeaderWithBlockLevel)
    (rest : List HeaderWithBlockLevel) (l : Nat) :
    levelCandidates first rest l = [] ↔ ∀ h ∈ first :: rest, h.blockLevel < l := by
  have hkeys := toFinset_keys_levelCandidates first rest l
  constructor
  · intro hnil h hh
    rw [hnil] at hkeys
    by_contra hl
    have : h.header.hash ∈ (((first :: rest).filter (fun h => l ≤ h.blockLevel)).map
        (fun h => h.header.hash)).toFinset := by
      simp only [List.mem_toFinset, List.mem_map, List.mem_filter, decide_eq_true_eq]
      exact ⟨h, ⟨hh, by omega⟩, rfl⟩
    simp [← hkeys] at this
  · intro hlow
    have hfilter : (first :: rest).filter (fun h => l ≤ h.blockLevel) = [] :=
      List.filter_eq_nil_iff.mpr fun h hh => by simpa using hlow h hh
    rw [levelCandidates, hfilter]
    rfl

/-- The grandparents of a level are the level parents of the direct parents
below it. -/
theorem reachability_of_mem_lowerParents {hs : List HeaderWithBlockLevel} {l : Nat}
    (hreach : ∀ h ∈ hs, h.blockLevel < l →
      ∀ g ∈ m.parentsAtLevel h.header l, m.hasReachabilityData g = true)
    {g : Hash} (hg : g ∈ ((hs.filter (fun h => h.blockLevel < l)).flatMap
      (fun h => m.parentsAtLevel h.header l)).toFinset) :
    m.hasReachabilityData g = true := by
  obtain ⟨h, hh, hgh⟩ := List.mem_flatMap.mp (List.mem_toFinset.mp hg)
  obtain ⟨hh, hlt⟩ := List.mem_filter.mp hh
  exact hreach h hh (by simpa using hlt) g hgh

/-- One level of the builder: the maxima of the direct parents at the level and
of the level parents of the direct parents below it. -/
theorem levelParents_maxima (hp : IsPartialOrder m.isDagAncestorOf)
    (first : HeaderWithBlockLevel) (rest : List HeaderWithBlockLevel) (l : Nat)
    (hanti : IsAntichain m.isDagAncestorOf
      (((first :: rest).filter (fun h => l ≤ h.blockLevel)).map (fun h => h.header.hash)).toFinset)
    (hfirst : first.blockLevel < l →
      IsAntichain m.isDagAncestorOf (m.parentsAtLevel first.header l).toFinset)
    (hreach : ∀ h ∈ first :: rest, h.blockLevel < l →
      ∀ g ∈ m.parentsAtLevel h.header l, m.hasReachabilityData g = true) :
    (m.levelParents first rest l).Nodup ∧
      (m.levelParents first rest l).toFinset = maxima m.isDagAncestorOf
        ((((first :: rest).filter (fun h => l ≤ h.blockLevel)).map (fun h => h.header.hash)).toFinset ∪
          (((first :: rest).filter (fun h => h.blockLevel < l)).flatMap
            (fun h => m.parentsAtLevel h.header l)).toFinset) := by
  by_cases hc : levelCandidates first rest l = []
  · -- no direct parent at the level: the first parent's level parents come first
    have hlow := (levelCandidates_eq_nil_iff first rest l).mp hc
    have hA : ((first :: rest).filter (fun h => l ≤ h.blockLevel)) = [] :=
      List.filter_eq_nil_iff.mpr fun h hh => by simpa using hlow h hh
    have hG : (first :: rest).filter (fun h => h.blockLevel < l) = first :: rest :=
      List.filter_eq_self.mpr fun h hh => by simpa using hlow h hh
    set firstParents := indexSetExtend [] (m.parentsAtLevel first.header l)
    set grandparents := indexSetExtend firstParents
      (rest.flatMap (fun h => m.parentsAtLevel h.header l))
    have hfpNodup : firstParents.Nodup := nodup_indexSetExtend List.nodup_nil _
    have hfpSet : firstParents.toFinset = (m.parentsAtLevel first.header l).toFinset := by
      ext x
      simp [firstParents, mem_indexSetExtend]
    have hfpAnti : IsAntichain m.isDagAncestorOf firstParents.toFinset :=
      hfpSet ▸ hfirst (hlow first List.mem_cons_self)
    have hgpSet : grandparents.toFinset =
        (((first :: rest).filter (fun h => h.blockLevel < l)).flatMap
          (fun h => m.parentsAtLevel h.header l)).toFinset := by
      rw [hG]
      ext x
      simp [grandparents, firstParents, mem_indexSetExtend]
    obtain ⟨extra, hextra⟩ : ∃ extra, firstParents ++ extra = grandparents :=
      prefix_indexSetExtend _ _
    have hreachGp : ∀ g ∈ grandparents, m.hasReachabilityData g = true :=
      fun g hg => reachability_of_mem_lowerParents hreach (hgpSet ▸ List.mem_toFinset.mpr hg)
    have hlevel : m.levelParents first rest l =
        if firstParents.length = grandparents.length then grandparents
        else (m.processGrandparents l firstParents.length [] 0 grandparents).map Prod.fst := by
      simp [levelParents, levelGrandparents, hc, firstParents, grandparents]
    rw [hlevel, hA, List.map_nil, List.toFinset_nil, Finset.empty_union, ← hgpSet]
    split_ifs with hfast
    · -- the fast path: no other parent brings a new grandparent
      have hnil : extra = [] := by
        rw [← hextra, List.length_append] at hfast
        exact List.eq_nil_of_length_eq_zero (by omega)
      rw [← hextra, hnil, List.append_nil] at hfast ⊢
      exact ⟨hfpNodup, (maxima_of_isAntichain hfpAnti).symm⟩
    · rw [← hextra, processGrandparents_append,
        processGrandparents_of_le_marker [] 0 firstParents (by omega)
          (fun g hg => hreachGp g (hextra ▸ List.mem_append_left _ hg))]
      have hstart := candidatesFor_foldl (fun g => g) firstParents (by simpa using hfpAnti)
      simp only [List.map_id'] at hstart
      have hrun := processGrandparents_candidatesFor hp l firstParents.length firstParents.length
        extra (Nat.le_refl _)
        (fun g hg => hreachGp g (hextra ▸ List.mem_append_right _ hg)) hstart
      rw [Nat.zero_add, List.toFinset_append]
      exact ⟨hrun.nodup, hrun.keys⟩
  · -- some direct parent at the level: every grandparent is checked
    have hstart : CandidatesFor m.isDagAncestorOf (levelCandidates first rest l)
        (((first :: rest).filter (fun h => l ≤ h.blockLevel)).map (fun h => h.header.hash)).toFinset :=
      candidatesFor_foldl (fun h : HeaderWithBlockLevel => h.header.hash) _ hanti
    set grandparents := indexSetExtend []
      (((first :: rest).filter (fun h => l > h.blockLevel)).flatMap
        (fun h => m.parentsAtLevel h.header l))
    have hgpSet : grandparents.toFinset =
        (((first :: rest).filter (fun h => h.blockLevel < l)).flatMap
          (fun h => m.parentsAtLevel h.header l)).toFinset := by
      ext x
      simp [grandparents, mem_indexSetExtend]
    have hreachGp : ∀ g ∈ grandparents, m.hasReachabilityData g = true :=
      fun g hg => reachability_of_mem_lowerParents hreach (hgpSet ▸ List.mem_toFinset.mpr hg)
    have hlevel : m.levelParents first rest l =
        (m.processGrandparents l 0 (levelCandidates first rest l) 0 grandparents).map Prod.fst := by
      simp [levelParents, levelGrandparents, hc, grandparents]
    have hrun := processGrandparents_candidatesFor hp l 0 0 grandparents (Nat.le_refl 0) hreachGp
      hstart
    rw [hlevel, ← hgpSet]
    exact ⟨hrun.nodup, hrun.keys⟩

/-! ## All levels -/

/-- A list without duplicates whose set is `{a}` is `[a]`. -/
theorem eq_singleton_of_toFinset {xs : List Hash} {a : Hash} (hn : xs.Nodup)
    (h : xs.toFinset = {a}) : xs = [a] :=
  List.perm_singleton.mp
    (List.perm_of_nodup_nodup_toFinset_eq hn (List.nodup_singleton a) (by rw [h]; rfl))

section Levels

variable {blocks : Finset Hash} {P : List Hash} {first : HeaderWithBlockLevel}
  {rest : List HeaderWithBlockLevel}

/-- The levels below `L` of the builder list the level tips, and `L` is where
they stop. -/
theorem levelTipsOf_range
    (hlevel : ∀ l ≤ m.maxBlockLevel, (m.levelParents first rest l).Nodup ∧
      (m.levelParents first rest l).toFinset = m.levelTips blocks P l)
    {L : Nat} (hpos : 0 < L) (hL : L ≤ m.maxBlockLevel + 1)
    (hcont : ∀ l, 0 < l → l < L → m.levelTips blocks P l ≠ {m.genesisHash})
    (hstop : m.levelTips blocks P L = {m.genesisHash}) :
    m.LevelTipsOf blocks P ((List.range L).map (m.levelParents first rest)) where
  length_pos := by simpa using hpos
  tips l hl := by
    rw [List.length_map, List.length_range] at hl
    rw [List.getElem_map, List.getElem_range]
    exact (hlevel l (by omega)).2
  nodup l hl := by
    rw [List.length_map, List.length_range] at hl
    rw [List.getElem_map, List.getElem_range]
    exact (hlevel l (by omega)).1
  continues l hl0 hl := hcont l hl0 (by simpa using hl)
  stops := by simpa using hstop

/-- The loop over levels, from level `l` with the levels below it pushed: it
pushes the level tips until they are genesis alone above level 0 or the levels
run out. Induction on the levels left, with `push` as the step. -/
theorem levelsLoop_levelTipsOf (hd : m.StoredDag blocks)
    (hlevel : ∀ l ≤ m.maxBlockLevel, (m.levelParents first rest l).Nodup ∧
      (m.levelParents first rest l).toFinset = m.levelTips blocks P l) :
    ∀ (n l : Nat) (parents : CompressedParents), l + n = m.maxBlockLevel + 1 →
      parents.WellFormed → parents.expanded = (List.range l).map (m.levelParents first rest) →
      (∀ j, 0 < j → j < l → m.levelTips blocks P j ≠ {m.genesisHash}) →
      (m.levelsLoop first rest n l parents).WellFormed ∧
        m.LevelTipsOf blocks P (m.levelsLoop first rest n l parents).expanded
  | 0, l, parents, hn, hwf, hexp, hcont => by
    rw [levelsLoop, hexp]
    refine ⟨hwf, levelTipsOf_range hlevel (by omega) (by omega) hcont ?_⟩
    rw [show l = m.maxBlockLevel + 1 by omega]
    exact levelTips_above_max hd
  | n + 1, l, parents, hn, hwf, hexp, hcont => by
    have hl := hlevel l (by omega)
    rw [levelsLoop]
    split_ifs with hstop
    · -- the level is `[genesis]` above level 0: the loop breaks before pushing it
      rw [hexp]
      refine ⟨hwf, levelTipsOf_range hlevel hstop.1 (by omega) hcont ?_⟩
      rw [← hl.2, hstop.2]
      rfl
    · have hexp' : (parents.push (m.levelParents first rest l)).expanded =
          (List.range (l + 1)).map (m.levelParents first rest) := by
        rw [CompressedParents.expanded_push hwf, hexp, List.range_succ, List.map_append]
        rfl
      refine levelsLoop_levelTipsOf hd hlevel n (l + 1) _ (by omega)
        (CompressedParents.wellFormed_push hwf _) hexp' ?_
      intro j hj0 hj
      rcases Nat.lt_succ_iff_lt_or_eq.mp hj with hj | rfl
      · exact hcont j hj0 hj
      · intro htips
        exact hstop ⟨hj0, eq_singleton_of_toFinset hl.1 (hl.2.trans htips)⟩

/-- The direct parent headers, in any order, give the two sets of
`levelTips_eq_maxima_split`. -/
theorem levelSets_of_perm (hd : m.StoredDag blocks) {hs : List HeaderWithBlockLevel}
    (hperm : hs.Perm (P.map m.getHeaderWithBlockLevel)) (hP : ∀ p ∈ P, p ∈ blocks) (l : Nat) :
    ((hs.filter (fun h => l ≤ h.blockLevel)).map (fun h => h.header.hash)).toFinset =
        (P.filter (fun p => l ≤ m.blockLevel p)).toFinset ∧
      ((hs.filter (fun h => h.blockLevel < l)).flatMap (fun h => m.parentsAtLevel h.header l)).toFinset =
        ((P.filter (fun p => m.blockLevel p < l)).flatMap
          (fun p => m.parentsAtLevel (m.getHeader p) l)).toFinset := by
  have hhash : ∀ p ∈ P, (m.getHeaderWithBlockLevel p).header.hash = p :=
    fun p hp => hd.hash p (hP p hp)
  constructor
  · ext x
    simp only [List.mem_toFinset, List.mem_map, List.mem_filter, hperm.mem_iff,
      decide_eq_true_eq]
    constructor
    · rintro ⟨h, ⟨⟨p, hp, rfl⟩, hl⟩, rfl⟩
      rw [hhash p hp]
      exact ⟨hp, hl⟩
    · rintro ⟨hx, hl⟩
      exact ⟨m.getHeaderWithBlockLevel x, ⟨⟨x, hx, rfl⟩, hl⟩, hhash x hx⟩
  · ext x
    simp only [List.mem_toFinset, List.mem_flatMap, List.mem_filter, hperm.mem_iff, List.mem_map,
      decide_eq_true_eq]
    constructor
    · rintro ⟨h, ⟨⟨p, hp, rfl⟩, hl⟩, hx⟩
      exact ⟨p, ⟨hp, hl⟩, hx⟩
    · rintro ⟨p, ⟨hp, hl⟩, hx⟩
      exact ⟨m.getHeaderWithBlockLevel p, ⟨⟨p, hp, rfl⟩, hl⟩, hx⟩

/-- Each level of the builder, from the direct parent headers in any order, is
the level tips of the direct parents. -/
theorem levelParents_levelTips (hd : m.StoredDag blocks)
    (hperm : (first :: rest).Perm (P.map m.getHeaderWithBlockLevel)) (hP : ∀ p ∈ P, p ∈ blocks)
    (hanti : IsAntichain m.isDagAncestorOf P.toFinset) {l : Nat} (hl : l ≤ m.maxBlockLevel) :
    (m.levelParents first rest l).Nodup ∧
      (m.levelParents first rest l).toFinset = m.levelTips blocks P l := by
  obtain ⟨hA, hG⟩ := levelSets_of_perm hd hperm hP l
  have hheader : ∀ h ∈ first :: rest, ∃ p ∈ P, h = m.getHeaderWithBlockLevel p := by
    intro h hh
    obtain ⟨p, hp, rfl⟩ := List.mem_map.mp (hperm.mem_iff.mp hh)
    exact ⟨p, hp, rfl⟩
  have hne : P ≠ [] := by
    obtain ⟨p, hp, -⟩ := hheader first List.mem_cons_self
    exact List.ne_nil_of_mem hp
  -- the level parents of a direct parent below the level are its level tips
  have htips : ∀ h ∈ first :: rest, h.blockLevel < l → ∃ p ∈ blocks, p ≠ m.genesisHash ∧
      (m.parentsAtLevel h.header l).toFinset = m.levelTips blocks (m.directParents p) l := by
    intro h hh hlt
    obtain ⟨p, hp, rfl⟩ := hheader h hh
    have hpg := ne_genesis_of_blockLevel_lt hd hlt hl
    exact ⟨p, hP p hp, hpg, (parentsAtLevel_levelTips hd (hP p hp) hpg l).1⟩
  have hanti' : IsAntichain m.isDagAncestorOf
      (((first :: rest).filter (fun h => l ≤ h.blockLevel)).map (fun h => h.header.hash)).toFinset := by
    rw [hA]
    exact hanti.mono fun x hx => by simp_all
  have hfirst : first.blockLevel < l →
      IsAntichain m.isDagAncestorOf (m.parentsAtLevel first.header l).toFinset := by
    intro hlt
    obtain ⟨p, -, -, hset⟩ := htips first List.mem_cons_self hlt
    rw [hset]
    exact isAntichain_levelTips _ _ _
  have hreach : ∀ h ∈ first :: rest, h.blockLevel < l →
      ∀ g ∈ m.parentsAtLevel h.header l, m.hasReachabilityData g = true := by
    intro h hh hlt g hg
    obtain ⟨p, hpb, hpg, hset⟩ := htips h hh hlt
    have hg' : g ∈ m.levelTips blocks (m.directParents p) l := hset ▸ List.mem_toFinset.mpr hg
    rw [levelTips_directParents hd hpb hpg hl] at hg'
    exact hd.reachability g (levelSet_subset_blocks (maxima_subset _ hg'))
  obtain ⟨hnodup, hset⟩ := levelParents_maxima hd.order first rest l hanti' hfirst hreach
  refine ⟨hnodup, ?_⟩
  rw [hset, hA, hG, levelTips_eq_maxima_split hd hP hne hl]

end Levels

/-- `calc_block_parents` on an antichain `P` of stored blocks, one of them in
the future of the pruning point, returns the level tips of `P` level by level:
level 0 is `P` itself, each level is an antichain without duplicates, and the
levels stop exactly before the first level above 0 whose tips are genesis
alone. -/
theorem calcBlockParents_levelTips {blocks : Finset Hash} (hd : m.StoredDag blocks)
    (currentPruningPoint : Hash) (P : List Hash) (hP : ∀ p ∈ P, p ∈ blocks)
    (hanti : IsAntichain m.isDagAncestorOf P.toFinset) (hnodup : P.Nodup)
    (hpp : ∃ p ∈ P, m.isDagAncestorOf currentPruningPoint p = true) :
    ∃ parents, m.calcBlockParents currentPruningPoint P = some parents ∧ parents.WellFormed ∧
      m.LevelTipsOf blocks P parents.expanded ∧
      (∃ level0, parents.expanded.head? = some level0 ∧ level0.Perm P) ∧
      ∀ level ∈ parents.expanded, IsAntichain m.isDagAncestorOf level.toFinset := by
  obtain ⟨p₀, hp₀, hpp₀⟩ := hpp
  have hne : P ≠ [] := List.ne_nil_of_mem hp₀
  -- the parent found in the pruning point's future is swapped to the front
  obtain ⟨i, hi⟩ : ∃ i, P.findIdx? (fun parent => m.isDagAncestorOf currentPruningPoint parent) = some i := by
    cases h : P.findIdx? (fun parent => m.isDagAncestorOf currentPruningPoint parent) with
    | none => simp [List.findIdx?_eq_none_iff.mp h p₀ hp₀] at hpp₀
    | some i => exact ⟨i, rfl⟩
  have hperm := List.swap_perm (P.map m.getHeaderWithBlockLevel) 0 i
  obtain ⟨first, rest, hswap⟩ :
      ∃ first rest, (P.map m.getHeaderWithBlockLevel).swap 0 i = first :: rest := by
    cases h : (P.map m.getHeaderWithBlockLevel).swap 0 i with
    | nil =>
      have hlen := hperm.length_eq
      rw [h, List.length_map] at hlen
      exact absurd (List.eq_nil_of_length_eq_zero hlen.symm) hne
    | cons first rest => exact ⟨first, rest, rfl⟩
  rw [hswap] at hperm
  have hlevel := fun l (hl : l ≤ m.maxBlockLevel) => levelParents_levelTips hd hperm hP hanti hl
  obtain ⟨hwf, htips⟩ := levelsLoop_levelTipsOf hd hlevel (m.maxBlockLevel + 1) 0 ⟨[]⟩ (by omega)
    (by simp [CompressedParents.WellFormed, CompressedParents.RunsFrom]) rfl (by omega)
  refine ⟨_, ?_, hwf, htips, ?_, ?_⟩
  · simp [calcBlockParents, hi, hswap]
  · -- level 0 holds the tips of the antichain `P` at level 0, which is `P`
    have h0 := htips.tips 0 htips.length_pos
    rw [levelTips_zero hd hP hne hanti] at h0
    refine ⟨_, ?_, List.perm_of_nodup_nodup_toFinset_eq (htips.nodup 0 htips.length_pos) hnodup h0⟩
    rw [List.head?_eq_getElem?, List.getElem?_eq_getElem htips.length_pos]
  · intro level hlevel
    obtain ⟨j, hj, rfl⟩ := List.getElem_of_mem hlevel
    rw [htips.tips j hj]
    exact isAntichain_levelTips _ _ _

/-! ## Two children of genesis -/

/-- Genesis `0` at the highest level 1 and two of its children, `1` and `2`, at
level 0, each storing `[genesis]` as its only level. -/
def siblingsManager : ParentsManager where
  maxBlockLevel := 1
  genesisHash := 0#256
  getHeaderWithBlockLevel hash :=
    if hash = 0#256 then ⟨⟨hash, ⟨[]⟩⟩, 1⟩ else ⟨⟨hash, ⟨[(1, [0#256])]⟩⟩, 0⟩
  isDagAncestorOf x y := x == 0#256 || x == y
  hasReachabilityData _ := true
  originChildren := []

/-- The stored blocks of `siblingsManager`. -/
def siblingsBlocks : Finset Hash := {0#256, 1#256, 2#256}

theorem siblingsManager_expanded {x : Hash} (hx : x ≠ 0#256) :
    (siblingsManager.getHeader x).parentsByLevel.expanded = [[0#256]] := by
  simp [getHeader, siblingsManager, hx, CompressedParents.expanded, CompressedParents.expandRuns]

theorem siblingsManager_directParents {x : Hash} (hx : x ≠ 0#256) :
    siblingsManager.directParents x = [0#256] := by
  rw [directParents, siblingsManager_expanded hx]
  rfl

theorem siblingsManager_storedDag : siblingsManager.StoredDag siblingsBlocks where
  order :=
    { refl := fun x => by simp [siblingsManager]
      trans := fun x y z hxy hyz => by
        simp only [siblingsManager, Bool.or_eq_true, beq_iff_eq] at hxy hyz ⊢
        rcases hxy with hx | rfl
        · exact Or.inl hx
        · exact hyz
      antisymm := fun x y hxy hyx => by
        simp only [siblingsManager, Bool.or_eq_true, beq_iff_eq] at hxy hyx
        rcases hxy with rfl | hxy
        · rcases hyx with rfl | rfl <;> rfl
        · exact hxy }
  reachability _ _ := rfl
  hash x hx := by
    simp only [siblingsBlocks, Finset.mem_insert, Finset.mem_singleton] at hx
    rcases hx with rfl | rfl | rfl <;> decide +kernel
  genesis_mem := by decide +kernel
  genesis_le _ _ := by simp [siblingsManager]
  genesis_level := by decide +kernel
  level_le x hx := by
    simp only [siblingsBlocks, Finset.mem_insert, Finset.mem_singleton] at hx
    rcases hx with rfl | rfl | rfl <;> decide +kernel
  wellFormed x _ := by
    by_cases hx : x = 0#256 <;>
      simp [getHeader, siblingsManager, hx, CompressedParents.WellFormed, CompressedParents.RunsFrom]
  stored x _ hxg := by
    rw [siblingsManager_directParents hxg, siblingsManager_expanded hxg]
    exact ⟨by decide +kernel, by decide +kernel, by decide +kernel,
      fun l hl0 hl => by simp at hl; omega, by decide +kernel⟩
  past x hx hxg y hy := by
    rw [siblingsManager_directParents hxg]
    simp only [List.mem_singleton, exists_eq_left, siblingsManager, Bool.or_eq_true, beq_iff_eq,
      or_self]
    constructor
    · rintro ⟨hy0 | rfl, hne⟩
      · exact hy0
      · exact absurd rfl hne
    · rintro rfl
      exact ⟨Or.inl rfl, fun h => hxg h.symm⟩

theorem calcBlockParents_levelTips_siblings :
    siblingsManager.StoredDag siblingsBlocks ∧
      (∀ p ∈ [1#256, 2#256], p ∈ siblingsBlocks) ∧
      IsAntichain siblingsManager.isDagAncestorOf [1#256, 2#256].toFinset ∧
      [1#256, 2#256].Nodup ∧
      (∃ p ∈ [1#256, 2#256], siblingsManager.isDagAncestorOf 0#256 p = true) ∧
      ∃ parents, siblingsManager.calcBlockParents 0#256 [1#256, 2#256] = some parents ∧
        parents.WellFormed ∧
        siblingsManager.LevelTipsOf siblingsBlocks [1#256, 2#256] parents.expanded ∧
        (∃ level0, parents.expanded.head? = some level0 ∧ level0.Perm [1#256, 2#256]) ∧
        ∀ level ∈ parents.expanded, IsAntichain siblingsManager.isDagAncestorOf level.toFinset := by
  have hP : ∀ p ∈ [1#256, 2#256], p ∈ siblingsBlocks := by
    intro p hp
    simp only [List.mem_cons, List.not_mem_nil, or_false] at hp
    rcases hp with rfl | rfl <;> decide +kernel
  have hanti : IsAntichain siblingsManager.isDagAncestorOf [1#256, 2#256].toFinset := by
    intro x hx y hy hxy
    simp only [List.mem_toFinset, List.mem_cons, List.not_mem_nil, or_false] at hx hy
    rcases hx with rfl | rfl <;> rcases hy with rfl | rfl <;> first | rfl | exact absurd hxy (by decide +kernel)
  have hnodup : [1#256, 2#256].Nodup := by decide +kernel
  have hpp : ∃ p ∈ [1#256, 2#256], siblingsManager.isDagAncestorOf 0#256 p = true :=
    ⟨1#256, List.mem_cons_self, rfl⟩
  exact ⟨siblingsManager_storedDag, hP, hanti, hnodup, hpp,
    calcBlockParents_levelTips siblingsManager_storedDag 0#256 [1#256, 2#256] hP hanti hnodup hpp⟩

end ParentsManager

end RustyKaspa.Consensus
