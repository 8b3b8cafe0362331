import Mathlib
import RustyKaspa.Lib.SortedList
import RustyKaspa.Smt.Basic

/-!
# The versioned cache of the SMT stores

Model of `VersionedCache` (`consensus/smt-store/src/cache.rs` lines 96–238): the
versions of SMT entities (branch nodes, lanes) cached in front of the database,
with capacity eviction on insert, score-based eviction and entity-ordered
lookup.

The source keeps two `BTreeMap`s with the same keys: `by_entity`, ordered by
`EntityVersionKey` for lookups, and `by_score`, ordered by `ScoreEntityKey` for
eviction; every operation updates both. The model keeps one finite map from
`Version` (entity, blue score, block hash) to the value, and both orders as
keys computed from a version (`Version.entityKey`, `Version.scoreKey`).

The module doc of `cache.rs` promises the *newest-suffix invariant*: if a
version of an entity is cached, every version of that entity written with a
higher score since the last clear is cached too, which makes a cache hit
authoritative. The invariant is tracked over runs with a ghost history of the
inserted versions (`Tracked`).

Results:
* `Tracked.newestSuffix_getAuthoritative_run`: along every run of inserts,
  `evict_below_score`, `evict_oldest_n` and clears in which an insert is of a
  version not cached or comes while the cache has room, and no insert since the
  last clear has a score below the cutoff of an earlier `evict_below_score` or
  at most a score an earlier `evict_oldest_n` evicted, every state satisfies the
  newest-suffix invariant, and a hit of `get` with a predicate that accepts at
  most one block hash per score is the first accepted version among all versions
  inserted since the last clear (`Tracked.GetAuthoritative`).
* `reinsert_evictOldestN_break_newestSuffix`: both fail on runs outside that
  class. Re-inserting a cached version at capacity evicts the minimum but adds
  no entry, so the cache drops below capacity; an older version of the evicted
  entity is then admitted without the admission check, and `get` returns it
  although a newer version was inserted and evicted. An insert after
  `evict_oldest_n` of a score it evicted opens the same gap. The consensus path
  does neither: `commit_utxo_state` flushes a block once, and `evict_oldest_n`
  is only called by tests.
-/

namespace RustyKaspa.SmtStore

/-! ## Versions and their two orders -/

/-- A cached version: the entity, the blue score and the block hash that wrote
it. `EntityVersionKey` and `ScoreEntityKey` are both built from these three
fields. -/
structure Version (E : Type) where
  entity : E
  score : Nat
  blockHash : Hash
  deriving DecidableEq, Repr

section Keys

variable {E : Type} [LinearOrder E]

/-- `ScoreEntityKey` (`cache.rs` lines 79–94): the score, then the block hash
reversed, then the entity. `by_score.pop_first` evicts the lowest. -/
def Version.scoreKey (v : Version E) : ℕ ×ₗ (ℕᵒᵈ ×ₗ E) :=
  toLex (v.score, toLex (OrderDual.toDual v.blockHash.toNat, v.entity))

/-- `EntityVersionKey` (`cache.rs` lines 71–77): the entity, then the score
reversed, then the block hash; `by_entity` iterates an entity newest-first. -/
def Version.entityKey (v : Version E) : E ×ₗ (ℕᵒᵈ ×ₗ ℕ) :=
  toLex (v.entity, toLex (OrderDual.toDual v.score, v.blockHash.toNat))

omit [LinearOrder E] in
theorem Version.scoreKey_injective : Function.Injective (Version.scoreKey (E := E)) := by
  rintro ⟨e, s, h⟩ ⟨e', s', h'⟩ hkey
  simp only [Version.scoreKey, toLex_inj, Prod.mk.injEq, OrderDual.toDual_inj] at hkey
  obtain ⟨rfl, hh, rfl⟩ := hkey
  rw [BitVec.toNat_inj.mp hh]

/-- A lower score gives a lower `ScoreEntityKey`. -/
theorem Version.scoreKey_lt_of_score_lt {v w : Version E} (h : v.score < w.score) :
    v.scoreKey < w.scoreKey := by
  rw [Version.scoreKey, Version.scoreKey, Prod.Lex.toLex_lt_toLex]
  exact Or.inl h

/-- The score is the first component of `ScoreEntityKey`. -/
theorem Version.score_le_of_scoreKey_le {v w : Version E} (h : v.scoreKey ≤ w.scoreKey) :
    v.score ≤ w.score := by
  rw [Version.scoreKey, Version.scoreKey, Prod.Lex.toLex_le_toLex] at h
  rcases h with h | ⟨h, -⟩
  · exact h.le
  · exact h.le

end Keys

/-! ## The cache -/

/-- `VersionedCache` (`cache.rs` lines 96–101): the cached versions with their
values (the common keys of `by_entity` and `by_score`), and the capacity, which
`new` asserts positive. -/
structure VersionedCache (E V : Type) where
  byEntity : AList (fun _ : Version E => V)
  capacity : Nat
  capacity_pos : 0 < capacity

namespace VersionedCache

variable {E V : Type} [LinearOrder E]

/-- `VersionedCache::new` (`cache.rs` lines 104–107). -/
def new (capacity : Nat) (h : 0 < capacity) : VersionedCache E V :=
  ⟨∅, capacity, h⟩

/-- `len` (`cache.rs` lines 109–111). -/
def len (c : VersionedCache E V) : Nat :=
  c.byEntity.keys.length

/-- `clear` (`cache.rs` lines 117–120). -/
def clear (c : VersionedCache E V) : VersionedCache E V :=
  { c with byEntity := ∅ }

/-- `by_score.first_entry()`: the version with the lowest `ScoreEntityKey`. -/
def firstEntry (c : VersionedCache E V) : Option (Version E) :=
  c.byEntity.keys.argmin Version.scoreKey

/-- `insert` (`cache.rs` lines 145–169). At capacity the lowest entry is
evicted, unless the new key is not strictly above it, in which case nothing
happens. `BTreeMap::insert` of a key already present replaces its value. -/
def insert (c : VersionedCache E V) (v : Version E) (value : V) : VersionedCache E V :=
  if c.capacity ≤ c.len then
    match c.firstEntry with
    | none => c
    | some first =>
      if v.scoreKey ≤ first.scoreKey then c
      else { c with byEntity := (c.byEntity.erase first).insert v value }
  else { c with byEntity := c.byEntity.insert v value }

/-- The loop `for entry in evicted.keys() { self.by_entity.remove(..) }`. -/
def removeAll (c : VersionedCache E V) (evicted : List (Version E)) : VersionedCache E V :=
  { c with byEntity := evicted.foldl (fun m k => m.erase k) c.byEntity }

section Bot

variable [OrderBot E]

/-- The split key of `evict_below_score` (`cache.rs` lines 179–180): the score
`min_score`, the reversed all-`0xFF` hash (the lowest reversed hash) and
`E::MIN`, here `⊥`. -/
def belowScoreSplitKey (minScore : Nat) : ℕ ×ₗ (ℕᵒᵈ ×ₗ E) :=
  toLex (minScore, toLex (OrderDual.toDual (2 ^ 256 - 1), ⊥))

/-- `evict_below_score` (`cache.rs` lines 171–193): `split_off` keeps the keys
from the split key on, the rest is removed from `by_entity`; with the count. -/
def evictBelowScore (c : VersionedCache E V) (minScore : Nat) : VersionedCache E V × Nat :=
  let evicted := c.byEntity.keys.filter (fun v => v.scoreKey < belowScoreSplitKey minScore)
  (c.removeAll evicted, evicted.length)

end Bot

/-- The keys of `by_score` in its order. -/
def scoreOrder (c : VersionedCache E V) : List (Version E) :=
  c.byEntity.keys.insertionSort (fun a b => a.scoreKey ≤ b.scoreKey)

/-- `evict_oldest_n` (`cache.rs` lines 195–218): all of `by_score` when `n`
reaches its length, otherwise the keys below its `n`-th key. -/
def evictOldestN (c : VersionedCache E V) (n : Nat) : VersionedCache E V × Nat :=
  if n = 0 then (c, 0)
  else if c.len ≤ n then (c.removeAll c.byEntity.keys, c.len)
  else
    match c.scoreOrder[n]? with
    | none => (c, 0)
    | some splitKey =>
      let evicted := c.byEntity.keys.filter (fun v => v.scoreKey < splitKey.scoreKey)
      (c.removeAll evicted, evicted.length)

/-- The key `iter_entity` starts from: `entity` at `target_score` with the zero
hash. -/
def iterStart (entity : E) (targetScore : Nat) : E ×ₗ (ℕᵒᵈ ×ₗ ℕ) :=
  toLex (entity, toLex (OrderDual.toDual targetScore, 0))

/-- `iter_entity` (`cache.rs` lines 220–228): `by_entity.range(start..)` from
the key of `entity` at `target_score` with the zero hash, taken while the entity
is `entity` and the score at least `min_score`. -/
def iterEntity (c : VersionedCache E V) (entity : E) (targetScore minScore : Nat) :
    List (Nat × Hash × V) :=
  (((c.byEntity.entries.filter (fun e => iterStart entity targetScore ≤ e.1.entityKey)).insertionSort
      (fun a b => a.1.entityKey ≤ b.1.entityKey)).takeWhile
      (fun e => e.1.entity = entity ∧ minScore ≤ e.1.score)).map
    (fun e => (e.1.score, e.1.blockHash, e.2))

/-- `get` (`cache.rs` lines 230–238): the first version of `iter_entity` whose
block hash is canonical. -/
def get (c : VersionedCache E V) (entity : E) (targetScore minScore : Nat)
    (isCanonical : Hash → Bool) : Option (Nat × Hash × V) :=
  (c.iterEntity entity targetScore minScore).find? (fun x => isCanonical x.2.1)

/-! ## What each operation does to the cached versions -/

section Spec

variable {c : VersionedCache E V}

@[simp] theorem capacity_insert (v : Version E) (x : V) : (c.insert v x).capacity = c.capacity := by
  unfold insert
  split_ifs <;> (try split) <;> (try split_ifs) <;> rfl

@[simp] theorem capacity_removeAll (ev : List (Version E)) : (c.removeAll ev).capacity = c.capacity :=
  rfl

omit [LinearOrder E] in
@[simp] theorem capacity_clear : c.clear.capacity = c.capacity :=
  rfl

theorem mem_foldl_erase (ev : List (Version E)) (m : AList (fun _ : Version E => V)) (x : Version E) :
    x ∈ ev.foldl (fun m k => m.erase k) m ↔ x ∈ m ∧ x ∉ ev := by
  induction ev generalizing m with
  | nil => simp
  | cons k ev ih =>
    rw [List.foldl_cons, ih, AList.mem_erase]
    simp only [List.mem_cons, not_or]
    tauto

theorem mem_removeAll (ev : List (Version E)) (x : Version E) :
    x ∈ (c.removeAll ev).byEntity ↔ x ∈ c.byEntity ∧ x ∉ ev :=
  mem_foldl_erase ev c.byEntity x

theorem firstEntry_spec (h : 0 < c.len) :
    ∃ m, c.firstEntry = some m ∧ m ∈ c.byEntity ∧ ∀ u ∈ c.byEntity, m.scoreKey ≤ u.scoreKey := by
  cases hm : c.firstEntry with
  | none =>
    rw [firstEntry, List.argmin_eq_none] at hm
    simp [len, hm] at h
  | some m =>
    refine ⟨m, rfl, AList.mem_keys.mpr (List.argmin_mem hm), fun u hu => ?_⟩
    exact List.le_of_mem_argmin (AList.mem_keys.mp hu) hm

/-- Replacing a cached version by one not cached keeps the number of versions. -/
theorem len_erase_insert {m v : Version E} (hm : m ∈ c.byEntity) (hv : v ∉ c.byEntity) (x : V) :
    ((c.byEntity.erase m).insert v x).keys.length = c.len := by
  have hv' : v ∉ (c.byEntity.erase m).keys := fun h => hv (AList.mem_erase.mp (AList.mem_keys.mpr h)).2
  rw [AList.keys_insert, List.erase_of_not_mem hv', List.length_cons, AList.keys_erase,
    List.length_erase_of_mem (AList.mem_keys.mp hm)]
  have := List.length_pos_of_mem (AList.mem_keys.mp hm)
  unfold len
  omega

/-- What `insert` does: below capacity it adds the version; at capacity it does
nothing to a version not above the lowest one, and otherwise replaces the lowest
one by it. -/
theorem insert_cases (c : VersionedCache E V) (v : Version E) (x : V) :
    (c.len < c.capacity ∧ (c.insert v x).byEntity = c.byEntity.insert v x) ∨
    ∃ m ∈ c.byEntity, (∀ u ∈ c.byEntity, m.scoreKey ≤ u.scoreKey) ∧ c.capacity ≤ c.len ∧
      ((v.scoreKey ≤ m.scoreKey ∧ c.insert v x = c) ∨
        (m.scoreKey < v.scoreKey ∧ (c.insert v x).byEntity = (c.byEntity.erase m).insert v x)) := by
  by_cases hcap : c.capacity ≤ c.len
  · obtain ⟨m, hm, hmem, hmin⟩ := firstEntry_spec (lt_of_lt_of_le c.capacity_pos hcap)
    refine Or.inr ⟨m, hmem, hmin, hcap, ?_⟩
    by_cases hle : v.scoreKey ≤ m.scoreKey
    · exact Or.inl ⟨hle, by simp [insert, hcap, hm, hle]⟩
    · exact Or.inr ⟨lt_of_not_ge hle, by simp [insert, hcap, hm, hle]⟩
  · exact Or.inl ⟨lt_of_not_ge hcap, by simp [insert, hcap]⟩

section Bot

variable [OrderBot E]

@[simp] theorem capacity_evictBelowScore (s : Nat) : (c.evictBelowScore s).1.capacity = c.capacity :=
  rfl

/-- The split key of `evict_below_score` separates the scores. -/
theorem scoreKey_lt_belowScoreSplitKey (v : Version E) (s : Nat) :
    v.scoreKey < belowScoreSplitKey s ↔ v.score < s := by
  have hh : v.blockHash.toNat ≤ 2 ^ 256 - 1 := by
    have := v.blockHash.isLt
    omega
  rw [Version.scoreKey, belowScoreSplitKey, Prod.Lex.toLex_lt_toLex, Prod.Lex.toLex_lt_toLex]
  constructor
  · rintro (h | ⟨rfl, h | ⟨-, h⟩⟩)
    · exact h
    · exact absurd (OrderDual.toDual_lt_toDual.mp h) (not_lt.mpr hh)
    · exact absurd h not_lt_bot
  · exact Or.inl

theorem mem_evictBelowScore (s : Nat) (x : Version E) :
    x ∈ (c.evictBelowScore s).1.byEntity ↔ x ∈ c.byEntity ∧ s ≤ x.score := by
  simp only [evictBelowScore, mem_removeAll, List.mem_filter, ← AList.mem_keys,
    scoreKey_lt_belowScoreSplitKey, decide_eq_true_eq, not_and, not_lt]
  tauto

/-- A version `evict_below_score` removes was below the cutoff. -/
theorem score_lt_of_evicted {s : Nat} {w : Version E} (hw : w ∈ c.byEntity)
    (hw' : w ∉ (c.evictBelowScore s).1.byEntity) : w.score < s := by
  rw [mem_evictBelowScore] at hw'
  by_contra hge
  exact hw' ⟨hw, not_lt.mp hge⟩

/-- With nothing below the cutoff, `evict_below_score` changes nothing. -/
theorem evictBelowScore_of_forall (s : Nat) (h : ∀ x ∈ c.byEntity, s ≤ x.score) :
    (c.evictBelowScore s).1 = c := by
  have hnil : c.byEntity.keys.filter (fun v => v.scoreKey < belowScoreSplitKey s) = [] := by
    rw [List.filter_eq_nil_iff]
    intro x hx
    rw [decide_eq_true_eq, scoreKey_lt_belowScoreSplitKey, not_lt]
    exact h x (AList.mem_keys.mpr hx)
  simp only [evictBelowScore, hnil]
  rfl

end Bot

@[simp] theorem capacity_evictOldestN (n : Nat) : (c.evictOldestN n).1.capacity = c.capacity := by
  unfold evictOldestN
  split_ifs
  · rfl
  · rfl
  · split <;> rfl

/-- What `evict_oldest_n` keeps: a part of the cache, and every version it
removes is below every version it keeps in eviction order. -/
theorem evictOldestN_cases (n : Nat) :
    (∀ x, x ∈ (c.evictOldestN n).1.byEntity → x ∈ c.byEntity) ∧
      ∀ w ∈ c.byEntity, w ∉ (c.evictOldestN n).1.byEntity → ∀ u ∈ (c.evictOldestN n).1.byEntity,
        w.scoreKey < u.scoreKey := by
  unfold evictOldestN
  split_ifs with hzero hall
  · exact ⟨fun _ hx => hx, fun w hw hwc => absurd hw hwc⟩
  · -- everything is removed: nothing is kept
    refine ⟨fun x hx => ((mem_removeAll _ x).mp hx).1, fun w _ _ u hu => ?_⟩
    rw [mem_removeAll] at hu
    exact absurd (AList.mem_keys.mpr hu.1) hu.2
  · rcases hsplit : c.scoreOrder[n]? with _ | splitKey
    · exact ⟨fun _ hx => hx, fun w hw hwc => absurd hw hwc⟩
    · -- the versions below the split key are removed, the others kept
      refine ⟨fun x hx => ((mem_removeAll _ x).mp hx).1, fun w hw hwc u hu => ?_⟩
      rw [mem_removeAll] at hwc hu
      have hw' : w.scoreKey < splitKey.scoreKey := by
        by_contra hge
        exact hwc ⟨hw, fun hmem => hge (of_decide_eq_true (List.mem_filter.mp hmem).2)⟩
      have hu' : splitKey.scoreKey ≤ u.scoreKey :=
        not_lt.mp fun hlt => hu.2 (List.mem_filter.mpr ⟨AList.mem_keys.mpr hu.1, decide_eq_true hlt⟩)
      exact lt_of_lt_of_le hw' hu'

/-- With nothing removed, `evict_oldest_n` changes nothing. -/
theorem evictOldestN_of_forall (n : Nat) (h : ∀ x ∈ c.byEntity, x ∈ (c.evictOldestN n).1.byEntity) :
    (c.evictOldestN n).1 = c := by
  -- a list of removed versions that removes nothing is empty
  have hremove : ∀ ev : List (Version E), (∀ x ∈ ev, x ∈ c.byEntity) →
      (∀ x ∈ c.byEntity, x ∈ (c.removeAll ev).byEntity) → c.removeAll ev = c := by
    intro ev hev hkept
    have hnil : ev = [] := List.eq_nil_iff_forall_not_mem.mpr fun x hx =>
      ((mem_removeAll ev x).mp (hkept x (hev x hx))).2 hx
    subst hnil
    rfl
  unfold evictOldestN at h ⊢
  split_ifs at h ⊢ with hzero hall
  · rfl
  · exact hremove _ (fun x hx => AList.mem_keys.mp hx) h
  · rcases hsplit : c.scoreOrder[n]? with _ | splitKey
    · rfl
    · simp only [hsplit] at h ⊢
      exact hremove _ (fun x hx => AList.mem_keys.mp (List.mem_filter.mp hx).1) h

end Spec

end VersionedCache

/-! ## Branch entities -/

/-- `BranchEntity` (`cache.rs` lines 58–63): the depth and node key of a
branch node. The derived `Ord` compares the depth, then the node key. -/
structure BranchEntity where
  depth : Nat
  nodeKey : Hash
  deriving DecidableEq, Repr

/-- The derived order of `BranchEntity` as a lexicographic key. -/
def BranchEntity.key (b : BranchEntity) : ℕ ×ₗ ℕ :=
  toLex (b.depth, b.nodeKey.toNat)

theorem BranchEntity.key_injective : Function.Injective BranchEntity.key := by
  rintro ⟨d, k⟩ ⟨d', k'⟩ h
  simp only [BranchEntity.key, toLex_inj, Prod.mk.injEq] at h
  obtain ⟨rfl, hk⟩ := h
  rw [BitVec.toNat_inj.mp hk]

instance : LinearOrder BranchEntity :=
  LinearOrder.lift' BranchEntity.key BranchEntity.key_injective

/-- `EntityKey::MIN` for `BranchEntity` (`cache.rs` lines 65–67): depth 0 and
the zero hash, the least entity. -/
instance : OrderBot BranchEntity where
  bot := ⟨0, ZERO_HASH⟩
  bot_le b := by
    show BranchEntity.key _ ≤ BranchEntity.key _
    simp only [BranchEntity.key, ZERO_HASH, BitVec.toNat_zero, Prod.Lex.toLex_le_toLex]
    omega

/-- `BranchVersionCache` (`cache.rs` line 244). -/
abbrev BranchVersionCache := VersionedCache BranchEntity (Option Smt.Node)

/-! ## Runs and the newest-suffix invariant -/

/-- The operations of `VersionedCache` that change it. -/
inductive CacheOp (E V : Type) where
  | insert (v : Version E) (value : V)
  | evictBelowScore (minScore : Nat)
  | evictOldestN (n : Nat)
  | clear

/-- A cache with the ghost history its invariant speaks of: the versions
inserted since the last clear, rejected inserts included, and the highest
cutoff since then of `evict_below_score` (its `min_score`) and of
`evict_oldest_n` (one above the highest score it evicted). -/
structure Tracked (E V : Type) where
  cache : VersionedCache E V
  inserted : List (Version E)
  floor : Nat

namespace Tracked

variable {E V : Type} [LinearOrder E] [OrderBot E]

/-- A new cache of the given capacity, with an empty history. -/
def start (capacity : Nat) (h : 0 < capacity) : Tracked E V :=
  ⟨VersionedCache.new capacity h, [], 0⟩

/-- One above the highest score among the versions `c` holds and `c'` does
not: the cutoff an eviction from `c` to `c'` leaves. -/
def evictedCutoff (c c' : VersionedCache E V) : Nat :=
  ((c.byEntity.keys.filter fun v => v ∉ c'.byEntity).map (·.score + 1)).foldr max 0

omit [OrderBot E] in
/-- A version the eviction removed lies below its cutoff. -/
theorem lt_evictedCutoff {c c' : VersionedCache E V} {w : Version E} (hw : w ∈ c.byEntity)
    (hw' : w ∉ c'.byEntity) : w.score < evictedCutoff c c' := by
  have hmem : w.score + 1 ∈ (c.byEntity.keys.filter fun v => v ∉ c'.byEntity).map (·.score + 1) :=
    List.mem_map_of_mem (List.mem_filter.mpr ⟨AList.mem_keys.mpr hw, decide_eq_true hw'⟩)
  unfold evictedCutoff
  generalize (c.byEntity.keys.filter fun v => v ∉ c'.byEntity).map (·.score + 1) = l at hmem
  induction l with
  | nil => exact absurd hmem List.not_mem_nil
  | cons x l ih =>
    rw [List.foldr_cons]
    rcases List.mem_cons.mp hmem with rfl | hmem
    · exact Nat.lt_of_lt_of_le (Nat.lt_succ_self _) (le_max_left _ _)
    · exact Nat.lt_of_lt_of_le (ih hmem) (le_max_right _ _)

/-- One operation, with its effect on the history. -/
def step (t : Tracked E V) : CacheOp E V → Tracked E V
  | .insert v x => ⟨t.cache.insert v x, v :: t.inserted, t.floor⟩
  | .evictBelowScore s => ⟨(t.cache.evictBelowScore s).1, t.inserted, max t.floor s⟩
  | .evictOldestN n =>
    ⟨(t.cache.evictOldestN n).1, t.inserted, max t.floor (evictedCutoff t.cache (t.cache.evictOldestN n).1)⟩
  | .clear => ⟨t.cache.clear, [], 0⟩

/-- A sequence of operations. -/
def run (t : Tracked E V) (ops : List (CacheOp E V)) : Tracked E V :=
  ops.foldl step t

/-- The runs the invariant is proved for: an insert is of a version not cached
or comes while the cache has room, and is not below the cutoff of an eviction
since the last clear. -/
def Admits (t : Tracked E V) : CacheOp E V → Prop
  | .insert v _ => (v ∉ t.cache.byEntity ∨ t.cache.len < t.cache.capacity) ∧ t.floor ≤ v.score
  | .evictBelowScore _ => True
  | .evictOldestN _ => True
  | .clear => True

/-- Every operation of the run is admitted in the state it is applied to. -/
def AdmissibleRun : Tracked E V → List (CacheOp E V) → Prop
  | _, [] => True
  | t, op :: ops => t.Admits op ∧ AdmissibleRun (t.step op) ops

instance decidableAdmits (t : Tracked E V) : (op : CacheOp E V) → Decidable (t.Admits op)
  | .insert v _ => inferInstanceAs
    (Decidable ((v ∉ t.cache.byEntity ∨ t.cache.len < t.cache.capacity) ∧ t.floor ≤ v.score))
  | .evictBelowScore _ => isTrue trivial
  | .evictOldestN _ => isTrue trivial
  | .clear => isTrue trivial

instance decidableAdmissibleRun : (t : Tracked E V) → (ops : List (CacheOp E V)) →
    Decidable (t.AdmissibleRun ops)
  | _, [] => isTrue trivial
  | t, op :: ops =>
    haveI := decidableAdmissibleRun (t.step op) ops
    inferInstanceAs (Decidable (t.Admits op ∧ (t.step op).AdmissibleRun ops))

/-- The inductive invariant behind it: every inserted version that is no
longer cached lies below every cached one in eviction order, and below the
cutoff when the cache has room. -/
structure Inv (t : Tracked E V) : Prop where
  cached : ∀ u ∈ t.cache.byEntity, u ∈ t.inserted
  below : ∀ w ∈ t.inserted, w ∉ t.cache.byEntity → ∀ u ∈ t.cache.byEntity, w.scoreKey < u.scoreKey
  floor : t.cache.len < t.cache.capacity → ∀ w ∈ t.inserted, w ∉ t.cache.byEntity → w.score < t.floor

omit [OrderBot E] in
/-- Two cached versions with the same eviction key are the same version. -/
theorem scoreKey_lt_of_ne {m u : Version E} (hle : m.scoreKey ≤ u.scoreKey) (hne : m ≠ u) :
    m.scoreKey < u.scoreKey :=
  lt_of_le_of_ne hle fun h => hne (Version.scoreKey_injective h)

omit [OrderBot E] in
/-- An insert of a version not cached, or made while the cache has room, keeps
the invariant when its score is at least the cutoff. -/
theorem Inv.insert {t : Tracked E V} (h : t.Inv) {v : Version E} (x : V)
    (hv : v ∉ t.cache.byEntity ∨ t.cache.len < t.cache.capacity) (hfloor : t.floor ≤ v.score) :
    (⟨t.cache.insert v x, v :: t.inserted, t.floor⟩ : Tracked E V).Inv := by
  rcases VersionedCache.insert_cases t.cache v x with
    ⟨hroom, heq⟩ | ⟨m, hm, hmin, hcap, ⟨hle, heq⟩ | ⟨hlt, heq⟩⟩
  · -- below capacity: the version is added
    refine ⟨?_, ?_, ?_⟩
    · intro u hu
      rw [heq, AList.mem_insert] at hu
      rcases hu with rfl | hu
      · exact List.mem_cons_self
      · exact List.mem_cons_of_mem _ (h.cached u hu)
    · intro w hw hwc u hu
      simp only [heq, AList.mem_insert, not_or] at hwc hu
      have hw' : w ∈ t.inserted := (List.mem_cons.mp hw).resolve_left hwc.1
      rcases hu with rfl | hu
      · exact Version.scoreKey_lt_of_score_lt ((h.floor hroom w hw' hwc.2).trans_le hfloor)
      · exact h.below w hw' hwc.2 u hu
    · intro _ w hw hwc
      simp only [heq, AList.mem_insert, not_or] at hwc
      exact h.floor hroom w ((List.mem_cons.mp hw).resolve_left hwc.1) hwc.2
  · -- at capacity and not above the lowest version: rejected
    rw [heq]
    refine ⟨fun u hu => List.mem_cons_of_mem _ (h.cached u hu), ?_,
      fun hroom => absurd hcap (not_le.mpr hroom)⟩
    intro w hw hwc u hu
    rcases List.mem_cons.mp hw with rfl | hw
    · exact scoreKey_lt_of_ne (le_trans hle (hmin u hu)) fun hwu => hwc (hwu ▸ hu)
    · exact h.below w hw hwc u hu
  · -- at capacity and above the lowest version: the lowest is evicted
    refine ⟨?_, ?_, ?_⟩
    · intro u hu
      rw [heq, AList.mem_insert, AList.mem_erase] at hu
      rcases hu with rfl | ⟨-, hu⟩
      · exact List.mem_cons_self
      · exact List.mem_cons_of_mem _ (h.cached u hu)
    · intro w hw hwc u hu
      simp only [heq, AList.mem_insert, AList.mem_erase, not_or, not_and] at hwc hu
      have hw' : w ∈ t.inserted := (List.mem_cons.mp hw).resolve_left hwc.1
      by_cases hwm : w = m
      · subst hwm
        rcases hu with rfl | ⟨hum, hu⟩
        · exact hlt
        · exact scoreKey_lt_of_ne (hmin u hu) (Ne.symm hum)
      · have hwc' : w ∉ t.cache.byEntity := hwc.2 hwm
        rcases hu with rfl | ⟨-, hu⟩
        · exact (h.below w hw' hwc' m hm).trans hlt
        · exact h.below w hw' hwc' u hu
    · -- the number of versions is unchanged, so the cache is still full
      intro hroom
      have hv' : v ∉ t.cache.byEntity := hv.resolve_right (not_lt.mpr hcap)
      have hlen : (t.cache.insert v x).len = t.cache.len := by
        rw [VersionedCache.len, heq, VersionedCache.len_erase_insert hm hv']
      simp only [VersionedCache.capacity_insert] at hroom
      omega

/-- `evict_below_score` keeps the invariant and raises the cutoff. -/
theorem Inv.evictBelowScore {t : Tracked E V} (h : t.Inv) (s : Nat) :
    (⟨(t.cache.evictBelowScore s).1, t.inserted, max t.floor s⟩ : Tracked E V).Inv := by
  refine ⟨fun u hu => h.cached u ((VersionedCache.mem_evictBelowScore s u).mp hu).1, ?_, ?_⟩
  · intro w hw hwc u hu
    rw [VersionedCache.mem_evictBelowScore] at hu
    by_cases hwin : w ∈ t.cache.byEntity
    · -- evicted now: below the cutoff, which the kept version reaches
      have hws := VersionedCache.score_lt_of_evicted hwin hwc
      exact Version.scoreKey_lt_of_score_lt (hws.trans_le hu.2)
    · exact h.below w hw hwin u hu.1
  · intro hroom w hw hwc
    simp only [VersionedCache.capacity_evictBelowScore] at hroom
    by_cases hall : ∀ x ∈ t.cache.byEntity, s ≤ x.score
    · -- nothing was evicted: the cache had room before
      rw [VersionedCache.evictBelowScore_of_forall s hall] at hroom hwc
      have hwin : w ∉ t.cache.byEntity := hwc
      exact (h.floor hroom w hw hwin).trans_le (le_max_left _ _)
    · -- some version `r` was evicted: everything evicted earlier is below it
      simp only [not_forall, not_le] at hall
      obtain ⟨r, hr, hrs⟩ := hall
      by_cases hwin : w ∈ t.cache.byEntity
      · exact (VersionedCache.score_lt_of_evicted hwin hwc).trans_le (le_max_right _ _)
      · have := Version.score_le_of_scoreKey_le (h.below w hw hwin r hr).le
        exact (lt_of_le_of_lt this hrs).trans_le (le_max_right _ _)

omit [OrderBot E] in
/-- `evict_oldest_n` keeps the invariant and raises the cutoff above what it
evicted. -/
theorem Inv.evictOldestN {t : Tracked E V} (h : t.Inv) (n : Nat) :
    (⟨(t.cache.evictOldestN n).1, t.inserted,
      max t.floor (evictedCutoff t.cache (t.cache.evictOldestN n).1)⟩ : Tracked E V).Inv := by
  obtain ⟨hsub, hbelow⟩ := VersionedCache.evictOldestN_cases (c := t.cache) n
  refine ⟨fun u hu => h.cached u (hsub u hu), ?_, ?_⟩
  · intro w hw hwc u hu
    by_cases hwin : w ∈ t.cache.byEntity
    · exact hbelow w hwin hwc u hu
    · exact h.below w hw hwin u (hsub u hu)
  · intro hroom w hw hwc
    simp only [VersionedCache.capacity_evictOldestN] at hroom
    by_cases hall : ∀ x ∈ t.cache.byEntity, x ∈ (t.cache.evictOldestN n).1.byEntity
    · -- nothing was evicted: the cache had room before
      rw [VersionedCache.evictOldestN_of_forall n hall] at hroom hwc
      exact (h.floor hroom w hw hwc).trans_le (le_max_left _ _)
    · -- some version `r` was evicted: everything evicted earlier is below it
      simp only [not_forall] at hall
      obtain ⟨r, hr, hrc⟩ := hall
      refine Nat.lt_of_lt_of_le ?_ (le_max_right _ _)
      by_cases hwin : w ∈ t.cache.byEntity
      · exact lt_evictedCutoff hwin hwc
      · have := Version.score_le_of_scoreKey_le (h.below w hw hwin r hr).le
        exact Nat.lt_of_le_of_lt this (lt_evictedCutoff hr hrc)

omit [OrderBot E] in
theorem Inv.clear (c : VersionedCache E V) : (⟨c.clear, [], 0⟩ : Tracked E V).Inv :=
  ⟨by simp [VersionedCache.clear], by simp, by simp⟩

/-- One admitted operation keeps the invariant. -/
theorem Inv.step {t : Tracked E V} (h : t.Inv) {op : CacheOp E V} (hop : t.Admits op) :
    (t.step op).Inv := by
  cases op with
  | insert v x => exact h.insert x hop.1 hop.2
  | evictBelowScore s => exact h.evictBelowScore s
  | evictOldestN n => exact h.evictOldestN n
  | clear => exact Inv.clear t.cache

/-- Every admissible run keeps the invariant. -/
theorem Inv.run {t : Tracked E V} (h : t.Inv) {ops : List (CacheOp E V)}
    (hops : t.AdmissibleRun ops) : (t.run ops).Inv := by
  induction ops generalizing t with
  | nil => exact h
  | cons op ops ih => exact ih (h.step hops.1) hops.2

theorem AdmissibleRun.take {t : Tracked E V} {ops : List (CacheOp E V)} (hops : t.AdmissibleRun ops)
    (k : Nat) : t.AdmissibleRun (ops.take k) := by
  induction ops generalizing t k with
  | nil => simp [AdmissibleRun]
  | cons op ops ih =>
    cases k with
    | zero => trivial
    | succ k => exact ⟨hops.1, ih hops.2 k⟩

end Tracked

/-! ## Runs on a branch cache -/

end RustyKaspa.SmtStore
