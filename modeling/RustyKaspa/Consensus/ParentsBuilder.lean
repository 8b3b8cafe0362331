import RustyKaspa.Consensus.Header

/-!
# Level parents

Model of `ParentsManager::calc_block_parents`
(`consensus/src/processes/parents_builder.rs` lines 38–185): the parents of a
new block at every level, built from its direct parents' own level parents.

At each level the candidates start as the direct parents at that level; the
level parents of the others (the grandparents) are then scanned in order, each
one dropping the candidates in its past and joining them unless it lies in the
past of one. When no direct parent is at the level, the first parent's level
parents join first without checks, and if nobody else brings a new one they are
the result (the fast path).

`IndexMap` and `IndexSet` are lists with unique keys in insertion order.
-/

namespace RustyKaspa.Consensus

/-- The fields of `Header` (`consensus/core/src/header.rs`) the parents builder
reads. -/
structure Header where
  hash : Hash
  parentsByLevel : CompressedParents

/-- `HeaderWithBlockLevel`: a stored header with the block level computed from
its proof of work. -/
structure HeaderWithBlockLevel where
  header : Header
  blockLevel : Nat

/-- `ParentsManager` (`parents_builder.rs` lines 17–24), with the header store,
the reachability service and the relations store as the answers they give:
`get_children(ORIGIN)` is `originChildren`. Every read is `unwrap`ped. -/
structure ParentsManager where
  maxBlockLevel : Nat
  genesisHash : Hash
  getHeaderWithBlockLevel : Hash → HeaderWithBlockLevel
  isDagAncestorOf : Hash → Hash → Bool
  hasReachabilityData : Hash → Bool
  originChildren : List Hash

namespace ParentsManager

variable (m : ParentsManager)

/-- `headers_store.get_header`: the same store without the level. -/
def getHeader (hash : Hash) : Header :=
  (m.getHeaderWithBlockLevel hash).header

/-- `parents_at_level` (`parents_builder.rs` lines 187–196): a level past the
stored ones is `[genesis]`, or empty for the genesis header itself. -/
def parentsAtLevel (header : Header) (level : Nat) : List Hash :=
  match header.parentsByLevel.get level with
  | some parents => parents
  | none => if header.parentsByLevel.isEmpty then [] else [m.genesisHash]

/-! ## Ordered maps and sets -/

/-- `IndexMap::insert`: replace the value of an existing key in place, or
append the entry. -/
def indexMapInsert (map : List (Hash × List Hash)) (key : Hash) (value : List Hash) :
    List (Hash × List Hash) :=
  match map with
  | [] => [(key, value)]
  | entry :: rest =>
    if entry.1 = key then (key, value) :: rest else entry :: indexMapInsert rest key value

/-- `IndexSet::extend`: append the items not there yet, in order. -/
def indexSetExtend (set : List Hash) (items : List Hash) : List Hash :=
  items.foldl (fun acc item => if item ∈ acc then acc else acc ++ [item]) set

theorem keys_indexMapInsert (map : List (Hash × List Hash)) (key : Hash) (value : List Hash) :
    (indexMapInsert map key value).map Prod.fst =
      if key ∈ map.map Prod.fst then map.map Prod.fst else map.map Prod.fst ++ [key] := by
  induction map with
  | nil => rfl
  | cons entry rest ih =>
    by_cases he : entry.1 = key
    · simp [indexMapInsert, he]
    · by_cases hk : key ∈ rest.map Prod.fst
      · simp [indexMapInsert, he, ih, hk]
      · simp [indexMapInsert, he, ih, hk, Ne.symm he]

theorem mem_indexMapInsert {map : List (Hash × List Hash)} {key : Hash} {value : List Hash}
    {entry : Hash × List Hash} (h : entry ∈ indexMapInsert map key value) :
    entry = (key, value) ∨ entry ∈ map := by
  induction map with
  | nil => simpa [indexMapInsert] using h
  | cons first rest ih =>
    unfold indexMapInsert at h
    split_ifs at h with he
    · rcases List.mem_cons.mp h with h | h
      · exact Or.inl h
      · exact Or.inr (List.mem_cons_of_mem _ h)
    · rcases List.mem_cons.mp h with h | h
      · exact Or.inr (h ▸ List.mem_cons_self)
      · exact (ih h).imp_right (List.mem_cons_of_mem _)

theorem indexSetExtend_cons (set : List Hash) (item : Hash) (items : List Hash) :
    indexSetExtend set (item :: items) =
      indexSetExtend (if item ∈ set then set else set ++ [item]) items :=
  rfl

theorem mem_indexSetExtend {set items : List Hash} {x : Hash} :
    x ∈ indexSetExtend set items ↔ x ∈ set ∨ x ∈ items := by
  induction items generalizing set with
  | nil => simp [indexSetExtend]
  | cons item items ih =>
    rw [indexSetExtend_cons, ih]
    by_cases hi : item ∈ set
    · rw [if_pos hi]
      constructor
      · rintro (h | h)
        · exact Or.inl h
        · exact Or.inr (List.mem_cons_of_mem _ h)
      · rintro (h | h)
        · exact Or.inl h
        · rcases List.mem_cons.mp h with rfl | h
          · exact Or.inl hi
          · exact Or.inr h
    · simp [hi, or_assoc]

theorem nodup_indexSetExtend {set : List Hash} (hset : set.Nodup) (items : List Hash) :
    (indexSetExtend set items).Nodup := by
  induction items generalizing set with
  | nil => exact hset
  | cons item items ih =>
    rw [indexSetExtend_cons]
    apply ih
    split_ifs with hi
    · exact hset
    · exact hset.append (List.nodup_singleton item) (by simpa using hi)

theorem prefix_indexSetExtend (set items : List Hash) : set <+: indexSetExtend set items := by
  induction items generalizing set with
  | nil => exact List.prefix_refl set
  | cons item items ih =>
    rw [indexSetExtend_cons]
    split_ifs
    · exact ih set
    · exact (List.prefix_append set [item]).trans (ih _)

/-! ## One level -/

/-- The reference blocks of a grandparent (`parents_builder.rs` lines 114–141):
the block itself, or, without reachability data, the children of `ORIGIN`
whose level parents hold it. -/
def referenceBlocks (blockLevel : Nat) (parent : Hash) : List Hash :=
  if m.hasReachabilityData parent then [parent]
  else
    ((m.originChildren.map m.getHeader).filter
      (fun childHeader => parent ∈ m.parentsAtLevel childHeader blockLevel)).map Header.hash

/-- One turn of the grandparents loop (`parents_builder.rs` lines 103–166), at
index `i`. -/
def processGrandparent (blockLevel firstParentMarker : Nat)
    (candidates : List (Hash × List Hash)) (i : Nat) (parent : Hash) : List (Hash × List Hash) :=
  let reference := m.referenceBlocks blockLevel parent
  if i < firstParentMarker then indexMapInsert candidates parent reference
  else if !m.hasReachabilityData parent then candidates
  else
    let retained := candidates.filter
      (fun entry => !entry.2.any (fun r => m.isDagAncestorOf r parent))
    let isAnyCandidateAncestorOf := decide (retained.length < candidates.length)
    if isAnyCandidateAncestorOf ||
        !retained.any (fun entry => entry.2.any (fun r => m.isDagAncestorOf parent r)) then
      indexMapInsert retained parent reference
    else retained

/-- The grandparents loop from index `i` on. -/
def processGrandparents (blockLevel firstParentMarker : Nat) :
    List (Hash × List Hash) → Nat → List Hash → List (Hash × List Hash)
  | candidates, _, [] => candidates
  | candidates, i, parent :: rest =>
    processGrandparents blockLevel firstParentMarker
      (m.processGrandparent blockLevel firstParentMarker candidates i parent) (i + 1) rest

/-- The candidates of a level before the grandparents are scanned
(`parents_builder.rs` lines 66–74): the direct parents at the level or above,
each its own reference block. -/
def levelCandidates (first : HeaderWithBlockLevel) (rest : List HeaderWithBlockLevel)
    (blockLevel : Nat) : List (Hash × List Hash) :=
  ((first :: rest).filter (fun h => blockLevel ≤ h.blockLevel)).foldl
    (fun map h => indexMapInsert map h.header.hash [h.header.hash]) []

/-- The first parent marker and the grandparents of a level
(`parents_builder.rs` lines 76–103). With no candidate, the first parent's level
parents come first and the marker is their number. -/
def levelGrandparents (first : HeaderWithBlockLevel) (rest : List HeaderWithBlockLevel)
    (blockLevel : Nat) : Nat × List Hash :=
  if levelCandidates first rest blockLevel = [] then
    let firstParents := indexSetExtend [] (m.parentsAtLevel first.header blockLevel)
    (firstParents.length,
      indexSetExtend firstParents (rest.flatMap (fun h => m.parentsAtLevel h.header blockLevel)))
  else
    (0, indexSetExtend []
      (((first :: rest).filter (fun h => blockLevel > h.blockLevel)).flatMap
        (fun h => m.parentsAtLevel h.header blockLevel)))

/-- The parents at one level (`parents_builder.rs` lines 62–172), from the
first direct parent header `first` (in the pruning point's future) and the
others `rest`. -/
def levelParents (first : HeaderWithBlockLevel) (rest : List HeaderWithBlockLevel)
    (blockLevel : Nat) : List Hash :=
  let candidates := levelCandidates first rest blockLevel
  let (firstParentMarker, grandparents) := m.levelGrandparents first rest blockLevel
  if candidates = [] ∧ firstParentMarker = grandparents.length then grandparents
  else (m.processGrandparents blockLevel firstParentMarker candidates 0 grandparents).map Prod.fst

/-! ## All levels -/

/-- The `for block_level in 0..=max_block_level` loop (`parents_builder.rs`
lines 62–182) with `n` levels left: it stops before the first level above 0
whose parents are exactly `[genesis]`. -/
def levelsLoop (first : HeaderWithBlockLevel) (rest : List HeaderWithBlockLevel) :
    Nat → Nat → CompressedParents → CompressedParents
  | 0, _, parents => parents
  | n + 1, blockLevel, parents =>
    let parentsAtLevel := m.levelParents first rest blockLevel
    if 0 < blockLevel ∧ parentsAtLevel = [m.genesisHash] then parents
    else levelsLoop first rest n (blockLevel + 1) (parents.push parentsAtLevel)

/-- `calc_block_parents` (`parents_builder.rs` lines 38–185); `none` where the
`expect` on a parent in the pruning point's future panics. `slice::swap(0, i)`
is `List.swap`. -/
def calcBlockParents (currentPruningPoint : Hash) (directParents : List Hash) :
    Option CompressedParents :=
  let directParentHeaders := directParents.map m.getHeaderWithBlockLevel
  match directParents.findIdx? (fun parent => m.isDagAncestorOf currentPruningPoint parent) with
  | none => none
  | some i =>
    match directParentHeaders.swap 0 i with
    | [] => none
    | first :: rest => some (m.levelsLoop first rest (m.maxBlockLevel + 1) 0 ⟨[]⟩)

end ParentsManager

end RustyKaspa.Consensus
