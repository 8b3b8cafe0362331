import RustyKaspa.Consensus.Basic
import RustyKaspa.Consensus.Reachability.Interval
import RustyKaspa.Lib.NestedIntervals

/-!
# The reachability store

Model of `ReachabilityStore` (`consensus/src/model/stores/reachability.rs`) and
of the interval extensions over it (`processes/reachability/extensions.rs`).

Per block the store keeps its `ReachabilityData` (tree parent, interval,
height), its tree children and its future covering set, and once the reindex
root. Reading a block that is not there is a `StoreError`; every caller of the
reachability algorithms in consensus unwraps their result, so an error, like a
panic, is `none` here. The children and future covering sets are read back in
the order they were written: the database sorts a set by interval when it
reads it without the cache, which is the same order on every store this
development reaches (`Valid.consecutive`).

The rules the algorithms keep come in three layers. `Shape`: one root, heights
grow by one from parent to child, the children lists hold exactly the blocks
whose parent is that block. `Tree`: what `validate_intervals`
(`processes/reachability/tests/mod.rs`) checks of each block's children, that
they lie strictly inside it one right after another. `Valid`: also every
interval is nonempty, which reindexing breaks for a moment, while a new block
waits for its space.

Results:
* `Tree.nested`: a tree store is a nested interval labelling of its tree.
* `Tree.isChainAncestor_iff_contains`: a block is a chain ancestor of a block
  with a nonempty interval exactly when its interval contains the other's.
* `Tree.isChainAncestor_iff_last_mem`: the blocks whose interval holds a block's
  last number are its chain ancestors.
-/

namespace RustyKaspa.Consensus.Reachability

/-- `ReachabilityData` (store lines 24–29). -/
structure ReachabilityData where
  parent : Hash
  interval : Interval
  height : ℕ
  deriving DecidableEq

/-- The contents of a reachability store: the main access, the tree children
sets, the future covering sets and the reindex root (store lines 176–183). -/
structure Store where
  data : Hash → Option ReachabilityData
  children : Hash → List Hash
  futureCoveringSet : Hash → List Hash
  reindexRoot : Option Hash

namespace Store

variable (s : Store)

/-! ## Reads (`ReachabilityStoreReader`, store lines 40–52) -/

/-- `has`. -/
def has (hash : Hash) : Bool := (s.data hash).isSome

/-- `get_interval`. -/
def getInterval (hash : Hash) : Option Interval := (s.data hash).map (·.interval)

/-- `get_parent`. -/
def getParent (hash : Hash) : Option Hash := (s.data hash).map (·.parent)

/-- `get_height`. -/
def getHeight (hash : Hash) : Option ℕ := (s.data hash).map (·.height)

/-- `get_children`: an empty set for a block without children. -/
def getChildren (hash : Hash) : List Hash := s.children hash

/-- `get_future_covering_set`. -/
def getFutureCoveringSet (hash : Hash) : List Hash := s.futureCoveringSet hash

/-- `get_reindex_root`. -/
def getReindexRoot : Option Hash := s.reindexRoot

/-! ## Writes (`ReachabilityStore`, store lines 54–79 and 227–306) -/

/-- `init`: asserts that `origin` is new, then stores it as the root with the
given capacity, height `0` and parent `NONE`, and makes it the reindex root. -/
def init (origin : Hash) (capacity : Interval) : Option Store :=
  if s.has origin then none
  else some { s with data := Function.update s.data origin (some ⟨NONE, capacity, 0⟩),
                     reindexRoot := some origin }

/-- `insert`: `HashAlreadyExists` for a block that is there. -/
def insert (hash parent : Hash) (interval : Interval) (height : ℕ) : Option Store :=
  if s.has hash then none
  else some { s with data := Function.update s.data hash (some ⟨parent, interval, height⟩) }

/-- `set_interval`: reads the block's data first. -/
def setInterval (hash : Hash) (interval : Interval) : Option Store :=
  (s.data hash).map fun d => { s with data := Function.update s.data hash (some { d with interval }) }

/-- `append_child`. -/
def appendChild (hash child : Hash) : Store :=
  { s with children := Function.update s.children hash (s.children hash ++ [child]) }

/-- `insert_future_covering_item`: `Vec::insert` panics past the end. -/
def insertFutureCoveringItem (hash fci : Hash) (insertionIndex : ℕ) : Option Store :=
  let set := s.futureCoveringSet hash
  if insertionIndex ≤ set.length then
    some { s with futureCoveringSet := Function.update s.futureCoveringSet hash (set.insertIdx insertionIndex fci) }
  else none

/-- `set_reindex_root`. -/
def setReindexRoot (root : Hash) : Store := { s with reindexRoot := some root }

/-! ## Interval extensions (`extensions.rs`) -/

/-- `interval_children_capacity` (lines 14–18): the interval without its last
number, which the children's intervals must leave free. -/
def intervalChildrenCapacity (block : Hash) : Option Interval :=
  (s.getInterval block).bind (·.decreaseEnd 1)

/-- `interval_remaining_before` (lines 22–31): the capacity before the first
child's interval. -/
def intervalRemainingBefore (block : Hash) : Option Interval := do
  let allocCapacity ← s.intervalChildrenCapacity block
  match (s.getChildren block).head? with
  | some firstChild =>
    let firstAlloc ← s.getInterval firstChild
    let last ← subU64 firstAlloc.start 1
    Interval.new allocCapacity.start last
  | none => pure allocCapacity

/-- `interval_remaining_after` (lines 35–44): the capacity after the last
child's interval. -/
def intervalRemainingAfter (block : Hash) : Option Interval := do
  let allocCapacity ← s.intervalChildrenCapacity block
  match (s.getChildren block).getLast? with
  | some lastChild =>
    let lastAlloc ← s.getInterval lastChild
    let start ← addU64 lastAlloc.last 1
    Interval.new start allocCapacity.last
  | none => pure allocCapacity

/-! ## The tree the store holds -/

/-- The tree parent of a stored block. -/
def treeParent (hash : Hash) : Hash := ((s.data hash).map (·.parent)).getD hash

/-- The height of a stored block, its depth in the tree. -/
def depth (hash : Hash) : ℕ := ((s.data hash).map (·.height)).getD 0

/-- The numbers of a stored block's interval. -/
def label (hash : Hash) : Set ℕ :=
  ((s.data hash).map fun d => Set.Icc d.interval.start d.interval.last).getD ∅

/-- `a` is `b` or one of `b`'s tree ancestors: what `is_chain_ancestor_of`
answers. -/
def IsChainAncestor (a b : Hash) : Prop := NestedIntervals.IsAncestor s.treeParent s.depth a b

instance (a b : Hash) : Decidable (s.IsChainAncestor a b) :=
  inferInstanceAs (Decidable (∃ k ≤ s.depth b, s.treeParent^[k] b = a))

/-- The interval of a stored block. -/
def intervalOf (hash : Hash) : Interval := (s.getInterval hash).getD Interval.empty

/-- `a`'s interval ends before `b`'s starts. -/
def Before (a b : Hash) : Prop := (s.intervalOf a).last < (s.intervalOf b).start

/-- What `validate_intervals` checks of the children of `p`: each lies strictly
inside `p`'s interval, and each starts right after the one before ends. -/
def ChildrenRule (p : Hash) : Prop :=
  (∀ c ∈ s.children p, (s.intervalOf p).strictlyContains (s.intervalOf c) = true) ∧
    (s.children p).IsChain fun a b => (s.intervalOf a).last + 1 = (s.intervalOf b).start

/-- The shape of the tree rooted at `root`. -/
structure Shape (root : Hash) : Prop where
  /-- The root is stored, at height `0`. -/
  root_data : ∃ d, s.data root = some d ∧ d.height = 0
  /-- It is the only block at height `0`. -/
  root_unique : ∀ b d, s.data b = some d → d.height = 0 → b = root
  /-- Every other block has its parent stored one level up. -/
  parent_data : ∀ b d, s.data b = some d → 0 < d.height →
    ∃ p, s.data d.parent = some p ∧ p.height + 1 = d.height
  /-- The children of `p` are the blocks whose parent is `p`. -/
  mem_children : ∀ p c, c ∈ s.children p ↔ ∃ d, s.data c = some d ∧ 0 < d.height ∧ d.parent = p
  children_nodup : ∀ p, (s.children p).Nodup

/-- The reachability tree rooted at `root`, its intervals laid out as
`validate_intervals` checks, but maybe empty. -/
structure Tree (root : Hash) : Prop extends Shape s root where
  children_rule : ∀ p, s.ChildrenRule p

/-- The reachability tree rooted at `root` with every interval nonempty. -/
structure Valid (root : Hash) : Prop extends Tree s root where
  nonempty : ∀ b d, s.data b = some d → 0 < d.interval.size

variable {s}

@[simp] theorem treeParent_of_data {b : Hash} {d : ReachabilityData} (h : s.data b = some d) :
    s.treeParent b = d.parent := by
  simp [treeParent, h]

@[simp] theorem depth_of_data {b : Hash} {d : ReachabilityData} (h : s.data b = some d) :
    s.depth b = d.height := by
  simp [depth, h]

@[simp] theorem label_of_data {b : Hash} {d : ReachabilityData} (h : s.data b = some d) :
    s.label b = Set.Icc d.interval.start d.interval.last := by
  simp [label, h]

theorem getInterval_of_data {b : Hash} {d : ReachabilityData} (h : s.data b = some d) :
    s.getInterval b = some d.interval := by
  simp [getInterval, h]

theorem intervalOf_of_data {b : Hash} {d : ReachabilityData} (h : s.data b = some d) :
    s.intervalOf b = d.interval := by
  simp [intervalOf, getInterval_of_data h]

theorem intervalOf_of_not_data {b : Hash} (h : s.data b = none) : s.intervalOf b = Interval.empty := by
  simp [intervalOf, getInterval, h]

/-- The children's capacity is the block's interval without its last number. -/
theorem intervalChildrenCapacity_eq_some {b : Hash} {cap : Interval}
    (h : s.intervalChildrenCapacity b = some cap) :
    (s.data b).isSome ∧ cap.start = (s.intervalOf b).start ∧ cap.last + 1 = (s.intervalOf b).last := by
  obtain ⟨i, hi, hcap⟩ := Option.bind_eq_some_iff.mp h
  obtain ⟨d, hd, rfl⟩ := Option.map_eq_some_iff.mp hi
  have := Interval.decreaseEnd_eq_some hcap
  rw [intervalOf_of_data hd]
  exact ⟨by simp [hd], this⟩

/-- A block that is not stored is its own only chain ancestor. -/
theorem isChainAncestor_of_not_data {a b : Hash} (hb : s.data b = none) :
    s.IsChainAncestor a b ↔ a = b := by
  constructor
  · rintro ⟨k, hk, rfl⟩
    rw [depth, hb] at hk
    simp only [Option.map_none, Option.getD_none, Nat.le_zero] at hk
    subst hk
    rfl
  · rintro rfl
    exact NestedIntervals.IsAncestor.refl a

/-- Ending before is transitive, also through an empty interval, which starts
right after its end. -/
theorem Before.trans {a b c : Hash} (hab : s.Before a b) (hbc : s.Before b c) : s.Before a c := by
  have := (s.intervalOf b).start_le
  unfold Before at *
  omega

/-- Consecutive intervals come in increasing order. -/
theorem pairwise_before_of_isChain {l : List Hash}
    (h : l.IsChain fun a b => (s.intervalOf a).last + 1 = (s.intervalOf b).start) :
    l.Pairwise s.Before := by
  have : Trans s.Before s.Before s.Before := ⟨Before.trans⟩
  refine List.IsChain.pairwise (h.imp fun a b hab => ?_)
  unfold Before
  omega

namespace Shape

variable {root : Hash} (hs : s.Shape root)
include hs

/-- The stored blocks with their parents and heights form a rooted tree. -/
theorem rooted : NestedIntervals.Rooted (fun b => (s.data b).isSome) s.treeParent s.depth where
  mem_parent a ha hpos := by
    obtain ⟨d, hd⟩ := Option.isSome_iff_exists.mp ha
    rw [depth_of_data hd] at hpos
    obtain ⟨p, hp, -⟩ := hs.parent_data a d hd hpos
    simp [treeParent_of_data hd, hp]
  depth_parent a ha hpos := by
    obtain ⟨d, hd⟩ := Option.isSome_iff_exists.mp ha
    rw [depth_of_data hd] at hpos ⊢
    obtain ⟨p, hp, hheight⟩ := hs.parent_data a d hd hpos
    rw [treeParent_of_data hd, depth_of_data hp, hheight]
  root_unique a b ha hb hda hdb := by
    obtain ⟨da, hda'⟩ := Option.isSome_iff_exists.mp ha
    obtain ⟨db, hdb'⟩ := Option.isSome_iff_exists.mp hb
    rw [depth_of_data hda'] at hda
    rw [depth_of_data hdb'] at hdb
    rw [hs.root_unique a da hda' hda, hs.root_unique b db hdb' hdb]

theorem data_of_mem_children {p c : Hash} (h : c ∈ s.children p) :
    ∃ d, s.data c = some d ∧ 0 < d.height ∧ d.parent = p :=
  (hs.mem_children p c).mp h

/-- A stored block of positive height is among its parent's children. -/
theorem mem_children_parent {b : Hash} {d : ReachabilityData} (hb : s.data b = some d)
    (hpos : 0 < d.height) : b ∈ s.children d.parent :=
  (hs.mem_children _ _).mpr ⟨d, hb, hpos, rfl⟩

/-- Climbing from a stored block stays on stored blocks, one level per step. -/
theorem iterate_data {b : Hash} {d : ReachabilityData} (hb : s.data b = some d) :
    ∀ k ≤ d.height, ∃ p, s.data (s.treeParent^[k] b) = some p ∧ p.height + k = d.height := by
  intro k hk
  have hmem : (s.data b).isSome := by simp [hb]
  obtain ⟨hmemk, hdepth⟩ := hs.rooted.iterate_mem hmem k (by rwa [depth_of_data hb])
  obtain ⟨p, hp⟩ := Option.isSome_iff_exists.mp hmemk
  rw [depth_of_data hp, depth_of_data hb] at hdepth
  exact ⟨p, hp, hdepth⟩

/-- A child is below its parent. -/
theorem isChainAncestor_of_mem_children {p c : Hash} (hc : c ∈ s.children p) : s.IsChainAncestor p c := by
  obtain ⟨d, hd, hpos, rfl⟩ := hs.data_of_mem_children hc
  exact ⟨1, by rw [depth_of_data hd]; exact hpos, treeParent_of_data hd⟩

/-- A child is one level below its parent, so not its parent. -/
theorem ne_of_mem_children {p c : Hash} (hc : c ∈ s.children p) : p ≠ c := by
  obtain ⟨d, hd, hpos, rfl⟩ := hs.data_of_mem_children hc
  obtain ⟨p, hp, hheight⟩ := hs.parent_data c d hd hpos
  rintro heq
  rw [heq, hd, Option.some.injEq] at hp
  subst hp
  omega

theorem isChainAncestor_trans {a b c : Hash} (hab : s.IsChainAncestor a b)
    (hbc : s.IsChainAncestor b c) : s.IsChainAncestor a c := by
  cases hc : s.data c with
  | none =>
    rwa [(isChainAncestor_of_not_data hc).mp hbc] at hab
  | some dc => exact hs.rooted.isAncestor_trans hab hbc (by simp [hc])

/-- Below a strict chain ancestor there is a child of it on the way down. -/
theorem exists_mem_children_of_isChainAncestor {a b : Hash} (hab : s.IsChainAncestor a b)
    (hne : a ≠ b) : ∃ c ∈ s.children a, s.IsChainAncestor c b := by
  cases hb : s.data b with
  | none => exact absurd ((isChainAncestor_of_not_data hb).mp hab) hne
  | some db =>
    obtain ⟨c, hmem, hpos, hparent, hcb⟩ := hs.rooted.exists_child_of_isAncestor (by simp [hb]) hab hne
    obtain ⟨dc, hdc⟩ := Option.isSome_iff_exists.mp hmem
    rw [depth_of_data hdc] at hpos
    rw [treeParent_of_data hdc] at hparent
    exact ⟨c, hparent ▸ hs.mem_children_parent hdc hpos, hcb⟩

/-- A strict chain ancestor of a child is a chain ancestor of its parent. -/
theorem isChainAncestor_of_isChainAncestor_child {p c q : Hash} (hc : c ∈ s.children p)
    (hqc : s.IsChainAncestor q c) (hne : q ≠ c) : s.IsChainAncestor q p := by
  obtain ⟨d, hd, -, rfl⟩ := hs.data_of_mem_children hc
  rcases (hs.rooted.isAncestor_iff (by simp [hd])).mp hqc with heq | ⟨-, hq⟩
  · exact absurd heq hne
  · rwa [treeParent_of_data hd] at hq

end Shape

namespace Tree

variable {root : Hash} (ht : s.Tree root)
include ht

/-- The children of a block come in increasing interval order. -/
theorem pairwise_children (p : Hash) : (s.children p).Pairwise s.Before :=
  pairwise_before_of_isChain (ht.children_rule p).2

/-- The parent of a block of positive height is stored, one level up, and its
interval holds the block's with its last number to spare. -/
theorem parent_interval {b : Hash} {d : ReachabilityData} (hb : s.data b = some d)
    (hpos : 0 < d.height) : ∃ p, s.data d.parent = some p ∧ p.height + 1 = d.height ∧
      p.interval.start ≤ d.interval.start ∧ d.interval.last < p.interval.last := by
  obtain ⟨p, hp, hheight⟩ := ht.parent_data b d hb hpos
  have hwithin := (ht.children_rule d.parent).1 b (ht.mem_children_parent hb hpos)
  rw [intervalOf_of_data hp, intervalOf_of_data hb, Interval.strictlyContains_iff] at hwithin
  exact ⟨p, hp, hheight, hwithin⟩

/-- The intervals label the tree as nested intervals: a child's lies strictly
inside its parent's, and siblings' are disjoint. -/
theorem nested :
    NestedIntervals.Nested (fun b => (s.data b).isSome) s.treeParent s.depth s.label where
  toRooted := ht.rooted
  label_parent a ha hpos := by
    obtain ⟨d, hd⟩ := Option.isSome_iff_exists.mp ha
    rw [depth_of_data hd] at hpos
    obtain ⟨p, hp, -, hstart, hlast⟩ := ht.parent_interval hd hpos
    rw [treeParent_of_data hd, label_of_data hd, label_of_data hp]
    refine Set.ssubset_iff_subset_ne.mpr ⟨Set.Icc_subset_Icc hstart hlast.le, fun heq => ?_⟩
    -- the parent's last number is its own: a block with a child is nonempty
    have hmem : p.interval.last ∈ Set.Icc p.interval.start p.interval.last :=
      ⟨by have := d.interval.start_le; omega, le_rfl⟩
    rw [← heq] at hmem
    exact absurd hmem.2 (Nat.not_le.mpr hlast)
  disjoint a b ha hb hpa hpb hparent hne := by
    obtain ⟨da, hda⟩ := Option.isSome_iff_exists.mp ha
    obtain ⟨db, hdb⟩ := Option.isSome_iff_exists.mp hb
    rw [depth_of_data hda] at hpa
    rw [depth_of_data hdb] at hpb
    rw [treeParent_of_data hda, treeParent_of_data hdb] at hparent
    have hma := ht.mem_children_parent hda hpa
    have hmb : b ∈ s.children da.parent := hparent ▸ ht.mem_children_parent hdb hpb
    rw [label_of_data hda, label_of_data hdb]
    -- two siblings are one before the other in their parent's children list
    have : Std.Symm fun x y => s.Before x y ∨ s.Before y x := ⟨fun _ _ h => h.symm⟩
    have hpw : (s.children da.parent).Pairwise fun x y => s.Before x y ∨ s.Before y x :=
      (ht.pairwise_children da.parent).imp Or.inl
    have hlt := hpw.forall hma hmb hne
    unfold Before at hlt
    rw [intervalOf_of_data hda, intervalOf_of_data hdb] at hlt
    rw [Set.disjoint_iff]
    rintro n ⟨⟨h₁, h₂⟩, h₃, h₄⟩
    omega

/-- Climbing from a stored block stays on stored blocks, one level per step,
and each step up lands on an interval that ends later. -/
theorem iterate_data {b : Hash} {d : ReachabilityData} (hb : s.data b = some d) :
    ∀ k ≤ d.height, ∃ p, s.data (s.treeParent^[k] b) = some p ∧ p.height + k = d.height ∧
      (0 < k → d.interval.last < p.interval.last)
  | 0, _ => ⟨d, hb, rfl, fun h => absurd h (Nat.lt_irrefl 0)⟩
  | k + 1, hk => by
    obtain ⟨p, hp, hheight, hlast⟩ := iterate_data hb k (by omega)
    obtain ⟨q, hq, hqheight, -, hqlast⟩ := ht.parent_interval hp (by omega)
    refine ⟨q, ?_, by omega, fun _ => ?_⟩
    · rw [Function.iterate_succ_apply', treeParent_of_data hp, hq]
    · rcases Nat.eq_zero_or_pos k with rfl | hk
      · rw [Function.iterate_zero_apply, hb] at hp
        cases hp
        exact hqlast
      · exact (hlast hk).trans hqlast

/-- A chain ancestor's interval contains the interval of a block with a nonempty
one: the reachability encoding. -/
theorem isChainAncestor_iff_contains {a b : Hash} {da db : ReachabilityData}
    (ha : s.data a = some da) (hb : s.data b = some db) (hne : 0 < db.interval.size) :
    s.IsChainAncestor a b ↔
      da.interval.start ≤ db.interval.start ∧ db.interval.last ≤ da.interval.last := by
  unfold Interval.size at hne
  have hlabel : (s.label b).Nonempty := by
    rw [label_of_data hb]
    exact Set.nonempty_Icc.mpr (by omega)
  rw [IsChainAncestor, ht.nested.isAncestor_iff_subset (by simp [ha]) (by simp [hb]) hlabel,
    label_of_data ha, label_of_data hb, Set.Icc_subset_Icc_iff (by omega)]

/-- A strict chain ancestor's interval ends after the block's. -/
theorem last_lt_of_isChainAncestor {a b : Hash} {da db : ReachabilityData}
    (ha : s.data a = some da) (hb : s.data b = some db) (hab : s.IsChainAncestor a b)
    (hne : a ≠ b) : db.interval.last < da.interval.last := by
  obtain ⟨k, hk, rfl⟩ := hab
  rw [depth_of_data hb] at hk
  obtain ⟨p, hp, -, hlast⟩ := ht.iterate_data hb k hk
  rw [ha] at hp
  cases hp
  refine hlast (Nat.pos_of_ne_zero ?_)
  rintro rfl
  exact hne rfl

/-- A nonempty block's last number is its own: the blocks whose interval holds
it are exactly its chain ancestors. -/
theorem isChainAncestor_iff_last_mem {a b : Hash} {da db : ReachabilityData}
    (ha : s.data a = some da) (hb : s.data b = some db) (hne : 0 < db.interval.size) :
    s.IsChainAncestor a b ↔
      da.interval.start ≤ db.interval.last ∧ db.interval.last ≤ da.interval.last := by
  have hsize := hne
  unfold Interval.size at hsize
  constructor
  · intro hab
    have := (ht.isChainAncestor_iff_contains ha hb hne).mp hab
    omega
  · intro hmem
    have hmeet : (s.label a ∩ s.label b).Nonempty := by
      rw [label_of_data ha, label_of_data hb]
      exact ⟨db.interval.last, hmem, by omega, le_rfl⟩
    rcases ht.nested.isAncestor_or_isAncestor (by simp [ha]) (by simp [hb]) hmeet with hab | hba
    · exact hab
    · -- were `b` a strict ancestor of `a`, `a` would end before `b`'s last number
      by_cases hba' : b = a
      · rw [hba']
        exact NestedIntervals.IsAncestor.refl a
      · have := ht.last_lt_of_isChainAncestor hb ha hba hba'
        omega

end Tree

/-! ## Writes that keep the tree -/

/-- `s'` holds the tree of `s` with its intervals maybe moved: the same blocks
with the same parents and heights, the same children, future covering sets and
reindex root. What reindexing changes and what it keeps. -/
structure SameTree (s s' : Store) : Prop where
  data : ∀ b, (s'.data b).map (fun d => (d.parent, d.height)) = (s.data b).map fun d => (d.parent, d.height)
  children : s'.children = s.children
  futureCoveringSet : s'.futureCoveringSet = s.futureCoveringSet
  reindexRoot : s'.reindexRoot = s.reindexRoot

namespace SameTree

variable {s' s'' : Store}

@[refl] theorem refl (s : Store) : SameTree s s := ⟨fun _ => rfl, rfl, rfl, rfl⟩

@[symm] theorem symm (h : SameTree s s') : SameTree s' s :=
  ⟨fun b => (h.data b).symm, h.children.symm, h.futureCoveringSet.symm, h.reindexRoot.symm⟩

@[trans] theorem trans (h : SameTree s s') (h' : SameTree s' s'') : SameTree s s'' :=
  ⟨fun b => (h'.data b).trans (h.data b), h'.children.trans h.children,
    h'.futureCoveringSet.trans h.futureCoveringSet, h'.reindexRoot.trans h.reindexRoot⟩

variable (h : SameTree s s')
include h

/-- A block stored in one store is stored in the other, with its parent and
height. -/
theorem data_eq_some {b : Hash} {d : ReachabilityData} (hb : s.data b = some d) :
    ∃ d', s'.data b = some d' ∧ d'.parent = d.parent ∧ d'.height = d.height := by
  have := h.data b
  rw [hb, Option.map_some] at this
  obtain ⟨d', hd', heq⟩ := Option.map_eq_some_iff.mp this
  simp only [Prod.mk.injEq] at heq
  exact ⟨d', hd', heq⟩

theorem data_eq_none {b : Hash} (hb : s.data b = none) : s'.data b = none := by
  have := h.data b
  rwa [hb, Option.map_none, Option.map_eq_none_iff] at this

theorem treeParent_eq : s'.treeParent = s.treeParent := by
  funext b
  cases hb : s.data b with
  | none => simp [treeParent, hb, h.data_eq_none hb]
  | some d =>
    obtain ⟨d', hd', hparent, -⟩ := h.data_eq_some hb
    rw [treeParent_of_data hd', treeParent_of_data hb, hparent]

theorem depth_eq : s'.depth = s.depth := by
  funext b
  cases hb : s.data b with
  | none => simp [depth, hb, h.data_eq_none hb]
  | some d =>
    obtain ⟨d', hd', -, hheight⟩ := h.data_eq_some hb
    rw [depth_of_data hd', depth_of_data hb, hheight]

theorem isChainAncestor_iff {a b : Hash} : s'.IsChainAncestor a b ↔ s.IsChainAncestor a b := by
  rw [IsChainAncestor, IsChainAncestor, h.treeParent_eq, h.depth_eq]

theorem getParent_eq : s'.getParent = s.getParent := by
  funext b
  have := congrArg (Option.map Prod.fst) (h.data b)
  simpa [getParent, Option.map_map, Function.comp_def] using this

theorem getHeight_eq : s'.getHeight = s.getHeight := by
  funext b
  have := congrArg (Option.map Prod.snd) (h.data b)
  simpa [getHeight, Option.map_map, Function.comp_def] using this

/-- The shape of the tree is all that the two stores share. -/
theorem shape {root : Hash} (hs : s.Shape root) : s'.Shape root where
  root_data := by
    obtain ⟨d, hd, hheight⟩ := hs.root_data
    obtain ⟨d', hd', -, hheight'⟩ := h.data_eq_some hd
    exact ⟨d', hd', hheight'.trans hheight⟩
  root_unique b d' hd' hheight := by
    obtain ⟨d, hd, -, hheight'⟩ := h.symm.data_eq_some hd'
    exact hs.root_unique b d hd (hheight'.trans hheight)
  parent_data b d' hd' hpos := by
    obtain ⟨d, hd, hparent, hheight⟩ := h.symm.data_eq_some hd'
    obtain ⟨p, hp, hpheight⟩ := hs.parent_data b d hd (hheight ▸ hpos)
    obtain ⟨p', hp', -, hpheight'⟩ := h.data_eq_some hp
    exact ⟨p', hparent ▸ hp', by omega⟩
  mem_children p c := by
    rw [h.children, hs.mem_children]
    constructor
    · rintro ⟨d, hd, hpos, hparent⟩
      obtain ⟨d', hd', hparent', hheight'⟩ := h.data_eq_some hd
      exact ⟨d', hd', hheight' ▸ hpos, hparent'.trans hparent⟩
    · rintro ⟨d', hd', hpos, hparent⟩
      obtain ⟨d, hd, hparent', hheight'⟩ := h.symm.data_eq_some hd'
      exact ⟨d, hd, hheight' ▸ hpos, hparent'.trans hparent⟩
  children_nodup p := h.children ▸ hs.children_nodup p

end SameTree

/-- Setting a block's interval keeps the tree. -/
theorem setInterval_sameTree {b : Hash} {i : Interval} {s' : Store} (h : s.setInterval b i = some s') :
    SameTree s s' := by
  obtain ⟨d, hd, rfl⟩ := Option.map_eq_some_iff.mp h
  refine ⟨fun x => ?_, rfl, rfl, rfl⟩
  by_cases hx : x = b
  · subst hx
    simp [hd]
  · simp [Function.update_of_ne hx]

/-- Setting a block's interval moves that interval only. -/
theorem intervalOf_setInterval {b : Hash} {i : Interval} {s' : Store} (h : s.setInterval b i = some s')
    (x : Hash) : s'.intervalOf x = if x = b then i else s.intervalOf x := by
  obtain ⟨d, hd, rfl⟩ := Option.map_eq_some_iff.mp h
  by_cases hx : x = b
  · subst hx
    simp [intervalOf, getInterval]
  · simp [intervalOf, getInterval, hx]

/-- Setting a stored block's interval succeeds. -/
theorem setInterval_isSome {b : Hash} (hb : (s.data b).isSome) (i : Interval) :
    (s.setInterval b i).isSome := by
  obtain ⟨d, hd⟩ := Option.isSome_iff_exists.mp hb
  simp [setInterval, hd]

end Store

end RustyKaspa.Consensus.Reachability
