import RustyKaspa.Consensus.Reachability.Store
import RustyKaspa.Lib.SortedIntervals

/-!
# Reachability queries

Model of the queries of `consensus/src/processes/reachability/inquirer.rs`
(lines 160–258): chain ancestry by interval containment, the binary search for
the block of a sorted list whose interval holds a descendant's last number, the
next block down a chain, and DAG ancestry through the future covering set.

`binary_search_descendant` checks in a debug build that the list is ordered
(`assert_hashes_ordered`), which reads every interval of the list; the model
follows that build, and a release build returns the same wherever the
assertion holds. `binary_search_by_key` is modelled by what the standard
library promises for keys in increasing order: the index of the key, or the
index where it would be inserted.

Results:
* `isChainAncestorOf_eq`: `is_chain_ancestor_of` answers chain ancestry.
* `binarySearchDescendant_spec`: on a list of blocks in interval order, the
  search finds a block that is a chain ancestor of the descendant, or reports
  that there is none.
* `getNextChainAncestorUnchecked_spec`: the next chain ancestor is the child of
  the ancestor on the way down to the descendant.
* `isDagAncestorOf_eq`: `is_dag_ancestor_of` answers whether the queried block
  is below the block or below one of its future covering set.
-/

namespace RustyKaspa.Consensus.Reachability

namespace Inquirer

open Store

variable (s : Store)

/-- `is_strict_chain_ancestor_of` (lines 165–167). -/
def isStrictChainAncestorOf (this queried : Hash) : Option Bool := do
  let thisInterval ← s.getInterval this
  let queriedInterval ← s.getInterval queried
  pure (thisInterval.strictlyContains queriedInterval)

/-- `is_chain_ancestor_of` (lines 171–173). -/
def isChainAncestorOf (this queried : Hash) : Option Bool := do
  let thisInterval ← s.getInterval this
  let queriedInterval ← s.getInterval queried
  pure (thisInterval.contains queriedInterval)

/-- `SearchOutput` (lines 222–225). -/
inductive SearchOutput
  | notFound (index : ℕ)
  | found (hash : Hash) (index : ℕ)
  deriving DecidableEq

/-- `slice::binary_search_by_key` over keys in increasing order: `Ok` with the
index of the key equal to `key`, or `Err` with the index where it would be
inserted. -/
def binarySearchByKey {α : Type} (l : List α) (key : ℕ) (f : α → ℕ) : Except ℕ ℕ :=
  let i := SortedIntervals.searchIndex f l key
  if l[i]?.map f = some key then .ok i else .error i

/-- `assert_hashes_ordered` (lines 254–257), a debug assertion: it reads every
interval of the list, and each must end before the next starts. -/
def hashesOrdered (orderedHashes : List Hash) : Option (List (Hash × Interval)) := do
  let entries ← orderedHashes.mapM fun hash => (s.getInterval hash).map (hash, ·)
  if entries.IsChain (fun x y => x.2.last < y.2.start) then pure entries else none

/-- `binary_search_descendant` (lines 227–252): search the starts of the
intervals for the descendant's last number; the block found there, or else the
one before the insertion point if it is a chain ancestor of the descendant. -/
def binarySearchDescendant (orderedHashes : List Hash) (descendant : Hash) :
    Option SearchOutput := do
  let entries ← hashesOrdered s orderedHashes
  let point := (← s.getInterval descendant).last
  match binarySearchByKey entries point (·.2.start) with
  | .ok i => entries[i]?.map fun entry => .found entry.1 i
  | .error i =>
    if 0 < i then
      let entry ← entries[i - 1]?
      if ← isChainAncestorOf s entry.1 descendant then pure (.found entry.1 (i - 1))
      else pure (.notFound i)
    else pure (.notFound i)

/-- `get_next_chain_ancestor_unchecked` (lines 211–220): `BadQuery` when no
child of `ancestor` is a chain ancestor of `descendant`. -/
def getNextChainAncestorUnchecked (descendant ancestor : Hash) : Option Hash := do
  match ← binarySearchDescendant s (s.getChildren ancestor) descendant with
  | .found hash _ => pure hash
  | .notFound _ => none

/-- `get_next_chain_ancestor` (lines 193–206): `BadQuery` when `ancestor` is
not a strict chain ancestor of `descendant`. -/
def getNextChainAncestor (descendant ancestor : Hash) : Option Hash := do
  if descendant = ancestor then none
  if !(← isStrictChainAncestorOf s ancestor descendant) then none
  getNextChainAncestorUnchecked s descendant ancestor

/-- `is_dag_ancestor_of` (lines 178–190): a chain ancestor, or a block above a
member of the future covering set. -/
def isDagAncestorOf (this queried : Hash) : Option Bool := do
  if ← isChainAncestorOf s this queried then return true
  match ← binarySearchDescendant s (s.getFutureCoveringSet this) queried with
  | .found _ _ => pure true
  | .notFound _ => pure false

variable {s}

/-- Reading the intervals of stored blocks succeeds. -/
theorem mapM_getInterval : ∀ {l : List Hash}, (∀ h ∈ l, (s.data h).isSome) →
    l.mapM (fun hash => (s.getInterval hash).map (hash, ·)) = some (l.map fun h => (h, s.intervalOf h))
  | [], _ => rfl
  | h :: l, hl => by
    obtain ⟨d, hd⟩ := Option.isSome_iff_exists.mp (hl h List.mem_cons_self)
    rw [List.mapM_cons, getInterval_of_data hd, mapM_getInterval fun x hx => hl x (List.mem_cons_of_mem _ hx)]
    simp [intervalOf_of_data hd]

/-- A list of stored blocks in interval order passes the ordering assertion. -/
theorem hashesOrdered_eq {l : List Hash} (hl : ∀ h ∈ l, (s.data h).isSome)
    (hsorted : l.Pairwise s.Before) :
    hashesOrdered s l = some (l.map fun h => (h, s.intervalOf h)) := by
  have hpairwise : (l.map fun h => (h, s.intervalOf h)).Pairwise
      (fun x y => x.2.last < y.2.start) := by
    rw [List.pairwise_map]
    exact hsorted
  rw [hashesOrdered, mapM_getInterval hl, Option.bind_eq_bind, Option.bind_some,
    if_pos hpairwise.isChain]
  rfl

/-! ## Answers on a tree store

A query reads the intervals of the blocks it is asked about; those it needs
nonempty are named in each statement. -/

variable {root : Hash} (ht : s.Tree root)
include ht

theorem isChainAncestorOf_eq {a b : Hash} {da db : ReachabilityData}
    (ha : s.data a = some da) (hb : s.data b = some db) (hne : 0 < db.interval.size) :
    isChainAncestorOf s a b = some (decide (s.IsChainAncestor a b)) := by
  simp only [isChainAncestorOf, getInterval_of_data ha, getInterval_of_data hb, Option.bind_eq_bind,
    Option.bind_some, Option.pure_def, Interval.contains, ht.isChainAncestor_iff_contains ha hb hne,
    Bool.and_eq_decide, decide_eq_true_eq]

theorem isStrictChainAncestorOf_eq {a b : Hash} {da db : ReachabilityData}
    (ha : s.data a = some da) (hb : s.data b = some db) (hne : 0 < db.interval.size) :
    isStrictChainAncestorOf s a b = some (decide (a ≠ b ∧ s.IsChainAncestor a b)) := by
  simp only [isStrictChainAncestorOf, getInterval_of_data ha, getInterval_of_data hb,
    Option.bind_eq_bind, Option.bind_some, Option.pure_def, Interval.strictlyContains,
    Bool.and_eq_decide, decide_eq_true_eq, Option.some.injEq, decide_eq_decide]
  constructor
  · rintro ⟨hstart, hlast⟩
    refine ⟨?_, (ht.isChainAncestor_iff_contains ha hb hne).mpr ⟨hstart, hlast.le⟩⟩
    rintro rfl
    rw [ha] at hb
    cases hb
    exact Nat.lt_irrefl _ hlast
  · rintro ⟨hne', hanc⟩
    exact ⟨((ht.isChainAncestor_iff_contains ha hb hne).mp hanc).1,
      ht.last_lt_of_isChainAncestor ha hb hanc hne'⟩

/-- The binary search over a list of stored blocks in interval order finds a
member that is a chain ancestor of the descendant, at its index, or reports
that no member is one. The descendant's interval is nonempty, and so is that
of a member starting at the descendant's last number. -/
theorem binarySearchDescendant_spec {l : List Hash} {d : Hash} {dd : ReachabilityData}
    (hl : ∀ h ∈ l, (s.data h).isSome) (hsorted : l.Pairwise s.Before) (hd : s.data d = some dd)
    (hdne : 0 < dd.interval.size)
    (hne : ∀ h ∈ l, (s.intervalOf h).start = dd.interval.last → 0 < (s.intervalOf h).size) :
    ∃ out, binarySearchDescendant s l d = some out ∧
      (∀ h i, out = .found h i → l[i]? = some h ∧ s.IsChainAncestor h d) ∧
      (∀ i, out = .notFound i → ∀ h ∈ l, ¬ s.IsChainAncestor h d) := by
  set entries := l.map fun h => (h, s.intervalOf h) with hentries
  set point := dd.interval.last with hpoint
  -- a member is a chain ancestor exactly when its interval holds `point`
  have hanc : ∀ h ∈ l, s.IsChainAncestor h d ↔
      (s.intervalOf h).start ≤ point ∧ point ≤ (s.intervalOf h).last := by
    intro h hh
    obtain ⟨dh, hdh⟩ := Option.isSome_iff_exists.mp (hl h hh)
    rw [intervalOf_of_data hdh]
    exact ht.isChainAncestor_iff_last_mem hdh hd hdne
  have hstarts : ∀ e ∈ entries, e.2.start = point → e.2.start ≤ e.2.last := by
    intro e he hstart
    obtain ⟨h, hh, rfl⟩ := List.mem_map.mp he
    have := hne h hh hstart
    unfold Interval.size at this
    dsimp only
    omega
  have hpairwise : entries.Pairwise fun x y => x.2.last < y.2.start := by
    rw [List.pairwise_map]
    exact hsorted
  -- where the interval holding `point` must sit
  have hwhere : ∀ h ∈ l, s.IsChainAncestor h d →
      (entries[SortedIntervals.searchIndex (·.2.start) entries point]? = some (h, s.intervalOf h) ∧
        (s.intervalOf h).start = point) ∨
      (0 < SortedIntervals.searchIndex (·.2.start) entries point ∧
        entries[SortedIntervals.searchIndex (·.2.start) entries point - 1]? = some (h, s.intervalOf h)) := by
    intro h hh hhd
    obtain ⟨hstart, hlast⟩ := (hanc h hh).mp hhd
    exact @SortedIntervals.contains_at_searchIndex (Hash × Interval) (·.2.start) (·.2.last) point _ hpairwise
      (fun e _ => e.2.start_le) hstarts _ (List.mem_map_of_mem hh) hstart hlast
  have hentry : ∀ (j : ℕ) e, entries[j]? = some e → ∃ h, l[j]? = some h ∧ e = (h, s.intervalOf h) := by
    intro j e he
    rw [hentries, List.getElem?_map, Option.map_eq_some_iff] at he
    obtain ⟨h, hh, rfl⟩ := he
    exact ⟨h, hh, rfl⟩
  set i := SortedIntervals.searchIndex (·.2.start) entries point with hi
  rw [binarySearchDescendant, hashesOrdered_eq hl hsorted, getInterval_of_data hd]
  simp only [Option.bind_eq_bind, Option.bind_some, binarySearchByKey]
  rw [← hentries, ← hpoint, ← hi]
  by_cases hkey : entries[i]?.map (·.2.start) = some point
  · -- the key is there: the block at `i` starts at `point`
    rw [if_pos hkey]
    dsimp only
    obtain ⟨e, he, hstart⟩ := Option.map_eq_some_iff.mp hkey
    obtain ⟨h, hh, rfl⟩ := hentry i e he
    refine ⟨.found h i, by rw [he]; rfl, ?_, fun _ hout => by cases hout⟩
    rintro h' i' ⟨⟩
    refine ⟨hh, (hanc h (List.mem_of_getElem? hh)).mpr ⟨hstart.le, ?_⟩⟩
    have := hstarts _ (List.mem_of_getElem? he) hstart
    dsimp only at hstart this
    omega
  rw [if_neg hkey]
  dsimp only
  -- `point` is not a start: only the block before the insertion point can hold it
  have hnot_at : ∀ h ∈ l, s.IsChainAncestor h d →
      0 < i ∧ entries[i - 1]? = some (h, s.intervalOf h) := by
    intro h hh hhd
    refine (hwhere h hh hhd).resolve_left ?_
    rintro ⟨hget, hstart⟩
    exact hkey (by rw [hget]; exact congrArg some hstart)
  by_cases hpos : 0 < i
  · have hlt : i - 1 < entries.length := by
      have : i ≤ entries.length := SortedIntervals.searchIndex_le_length entries point
      omega
    obtain ⟨h, hh, he⟩ := hentry (i - 1) _ (List.getElem?_eq_getElem hlt)
    have hmem := List.mem_of_getElem? hh
    obtain ⟨dh, hdh⟩ := Option.isSome_iff_exists.mp (hl h hmem)
    simp only [if_pos hpos, List.getElem?_eq_getElem hlt, he, Option.bind_some,
      isChainAncestorOf_eq ht hdh hd hdne]
    by_cases hhd : s.IsChainAncestor h d
    · refine ⟨.found h (i - 1), by simp [hhd], ?_, fun _ hout => by cases hout⟩
      rintro h' i' ⟨⟩
      exact ⟨hh, hhd⟩
    · refine ⟨.notFound i, by simp [hhd], (fun _ _ hout => by cases hout), ?_⟩
      rintro _ ⟨⟩ h' hh' hh'd
      obtain ⟨-, hget⟩ := hnot_at h' hh' hh'd
      rw [List.getElem?_eq_getElem hlt, he, Option.some.injEq, Prod.mk.injEq] at hget
      exact hhd (hget.1 ▸ hh'd)
  · rw [if_neg hpos]
    refine ⟨.notFound i, rfl, (fun _ _ hout => by cases hout), ?_⟩
    rintro _ ⟨⟩ h hh hhd
    exact hpos (hnot_at h hh hhd).1

/-- Below a strict chain ancestor, the next chain ancestor is the child of the
ancestor that is a chain ancestor of the descendant. The descendant's interval
is nonempty, and so is that of a child starting at its last number. -/
theorem getNextChainAncestorUnchecked_spec {a d : Hash} {dd : ReachabilityData}
    (hd : s.data d = some dd) (hdne : 0 < dd.interval.size)
    (hne : ∀ c ∈ s.children a, (s.intervalOf c).start = dd.interval.last → 0 < (s.intervalOf c).size)
    (hanc : s.IsChainAncestor a d) (had : a ≠ d) :
    ∃ c, getNextChainAncestorUnchecked s d a = some c ∧ c ∈ s.children a ∧
      s.IsChainAncestor c d := by
  obtain ⟨k, hk, rfl⟩ := hanc
  have hk0 : 0 < k := Nat.pos_of_ne_zero (by rintro rfl; exact had rfl)
  rw [depth_of_data hd] at hk
  -- the child on the way down is the block one step below the ancestor
  obtain ⟨p, hp, hheight⟩ := ht.iterate_data hd (k - 1) (by omega)
  have hchild : s.treeParent^[k - 1] d ∈ s.children (s.treeParent^[k] d) := by
    rw [show k = (k - 1) + 1 by omega, Function.iterate_succ_apply', treeParent_of_data hp]
    exact ht.mem_children_parent hp (by omega)
  have hcanc : s.IsChainAncestor (s.treeParent^[k - 1] d) d :=
    ⟨k - 1, by rw [depth_of_data hd]; omega, rfl⟩
  have hl : ∀ h ∈ s.children (s.treeParent^[k] d), (s.data h).isSome := by
    intro h hh
    obtain ⟨dh, hdh, -⟩ := ht.data_of_mem_children hh
    simp [hdh]
  obtain ⟨out, hout, hfound, hnotfound⟩ :=
    binarySearchDescendant_spec ht hl (ht.pairwise_children _) hd hdne hne
  cases out with
  | found c i =>
    obtain ⟨hc, hcd⟩ := hfound c i rfl
    refine ⟨c, ?_, List.mem_of_getElem? hc, hcd⟩
    simp [getNextChainAncestorUnchecked, getChildren, hout]
  | notFound i => exact absurd hcanc (hnotfound i rfl _ hchild)

/-- `is_dag_ancestor_of` on a stored block whose future covering set is stored,
nonempty and in interval order: the queried block, also nonempty, is below the
block or below a member of its future covering set. -/
theorem isDagAncestorOf_eq {a b : Hash} {da db : ReachabilityData}
    (ha : s.data a = some da) (hb : s.data b = some db) (hbne : 0 < db.interval.size)
    (hfcs : ∀ f ∈ s.futureCoveringSet a, (s.data f).isSome)
    (hfne : ∀ f ∈ s.futureCoveringSet a, 0 < (s.intervalOf f).size)
    (hsorted : (s.futureCoveringSet a).Pairwise s.Before) :
    isDagAncestorOf s a b =
      some (decide (s.IsChainAncestor a b ∨ ∃ f ∈ s.futureCoveringSet a, s.IsChainAncestor f b)) := by
  obtain ⟨out, hout, hfound, hnotfound⟩ :=
    binarySearchDescendant_spec ht hfcs hsorted hb hbne fun f hf _ => hfne f hf
  simp only [isDagAncestorOf, isChainAncestorOf_eq ht ha hb hbne, getFutureCoveringSet, hout,
    Option.bind_eq_bind, Option.bind_some]
  by_cases hab : s.IsChainAncestor a b
  · simp [hab]
  · cases out with
    | found f i =>
      obtain ⟨hf, hfb⟩ := hfound f i rfl
      simpa [hab] using ⟨f, List.mem_of_getElem? hf, hfb⟩
    | notFound i =>
      simpa [hab] using hnotfound i rfl

end Inquirer

end RustyKaspa.Consensus.Reachability
