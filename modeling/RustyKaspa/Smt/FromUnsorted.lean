import RustyKaspa.Smt.SparseMerkleTree
import RustyKaspa.Lib.UnstableSort.Quicksort
import RustyKaspa.Lib.DedupBy

/-!
# Sorting and deduplicating leaf updates

Model of `SortedLeafUpdates::from_unsorted` (`crypto/smt/src/store.rs`
lines 134–147): the updates are sorted with `sort_unstable_by_key(|u| u.key)`,
and `dedup_by` then lets the later of two adjacent updates of one key overwrite
the kept one. `LeafUpdate` is a 64-byte `Copy` type, for which the standard
library's unstable sort small-sorts slices of at most 32 elements.

For every input the result has strictly increasing keys, so it is a
`SortedLeafUpdates` (`fromUnsorted_sorted`, `SortedLeafUpdates.fromUnsorted`),
with the keys of the input (`mem_map_key_fromUnsorted`) and only updates of the
input. Updates already sorted are kept as they are
(`SortedLeafUpdates.fromUnsorted_updates`); so is one update, which is what
`insert` and `remove` of the tree use (`SortedLeafUpdates.fromUnsorted_singleton`).

"Last wins" holds in sorted order: each key keeps the update the sort put last
among that key (`fromUnsorted_lastWins_sorted`). Up to 32 updates the sort
keeps the input order of equal keys, so the last update of each key in the
input wins (`fromUnsorted_lastWins_of_length_le`). Above 32 updates the sort
does not: its partition puts the last element below the pivot in front of the
others when the element after the pivot is not below it. On 33 updates with two
of key 0, `from_unsorted` keeps the first of the two.
-/

namespace RustyKaspa.Smt

/-- A default update, for reads at positions the sort only makes in bounds. -/
instance : Inhabited LeafUpdate := ⟨⟨0, 0⟩⟩

/-- `v.sort_unstable_by_key(|u| u.key)` on leaf updates: `is_less` compares
keys, and slices of at most 32 updates are small-sorted. -/
def sortUnstableByKey (v : List LeafUpdate) : List LeafUpdate :=
  UnstableSort.sort (fun a b => decide (a.key < b.key)) 32 v

/-- The vector that `SortedLeafUpdates::from_unsorted` builds: sorted by key,
then `dedup_by` with the closure that overwrites the kept update with a later
one of the same key. -/
def fromUnsorted (updates : List LeafUpdate) : List LeafUpdate :=
  DedupBy.dedupBy (DedupBy.keepLater LeafUpdate.key) (sortUnstableByKey updates)

/-! ## For every input -/

/-- The comparison of keys is the comparison of the numbers they read as. -/
theorem sortUnstableByKey_eq (v : List LeafUpdate) :
    sortUnstableByKey v = UnstableSort.sort (UnstableSort.keyLess fun u : LeafUpdate => u.key.toNat) 32 v := by
  have hcmp : (fun a b : LeafUpdate => decide (a.key < b.key)) = UnstableSort.keyLess fun u => u.key.toNat := by
    funext a b
    simp [UnstableSort.keyLess, BitVec.lt_def]
  rw [sortUnstableByKey, hcmp]

theorem keepLater_key_eq :
    DedupBy.keepLater LeafUpdate.key = DedupBy.keepLater fun u : LeafUpdate => u.key.toNat := by
  funext later earlier
  simp [DedupBy.keepLater, BitVec.toNat_inj]

theorem lastWins_key_toNat_iff (xs ys : List LeafUpdate) :
    DedupBy.LastWins (fun u : LeafUpdate => u.key.toNat) xs ys ↔ DedupBy.LastWins LeafUpdate.key xs ys := by
  simp [DedupBy.LastWins, BitVec.toNat_inj]

theorem fromUnsorted_eq (updates : List LeafUpdate) :
    fromUnsorted updates = DedupBy.dedupBy (DedupBy.keepLater fun u : LeafUpdate => u.key.toNat)
      (UnstableSort.sort (UnstableSort.keyLess fun u : LeafUpdate => u.key.toNat) 32 updates) := by
  rw [fromUnsorted, keepLater_key_eq, sortUnstableByKey_eq]

theorem sortUnstableByKey_perm (v : List LeafUpdate) : (sortUnstableByKey v).Perm v :=
  UnstableSort.sort_perm _ 32 v

/-- The keys `from_unsorted` returns are strictly increasing. -/
theorem fromUnsorted_sorted (updates : List LeafUpdate) :
    (fromUnsorted updates).Pairwise fun a b => a.key < b.key := by
  rw [fromUnsorted_eq]
  have hsorted := UnstableSort.sort_sorted (fun u : LeafUpdate => u.key.toNat) 32 updates
  exact (DedupBy.pairwise_dedupBy_keepLater hsorted).imp fun hab => BitVec.lt_def.mpr hab

/-- `SortedLeafUpdates::from_unsorted`: the sorted and deduplicated updates,
which keep the invariant of `SortedLeafUpdates`. -/
def SortedLeafUpdates.fromUnsorted (updates : List LeafUpdate) : SortedLeafUpdates :=
  ⟨Smt.fromUnsorted updates, fromUnsorted_sorted updates⟩

/-- `from_unsorted` keeps every key of its input and adds none. -/
theorem mem_map_key_fromUnsorted {updates : List LeafUpdate} {k : Hash} :
    k ∈ (fromUnsorted updates).map LeafUpdate.key ↔ k ∈ updates.map LeafUpdate.key := by
  rw [fromUnsorted]
  exact DedupBy.mem_map_key_dedupBy_keepLater.trans ((sortUnstableByKey_perm updates).map _).mem_iff

/-- Every update `from_unsorted` keeps is one of its input. -/
theorem mem_of_mem_fromUnsorted {updates : List LeafUpdate} {u : LeafUpdate} (hu : u ∈ fromUnsorted updates) :
    u ∈ updates :=
  (sortUnstableByKey_perm updates).subset (DedupBy.mem_of_mem_dedupBy_keepLater hu)

/-- Each key keeps the update that the sort put last among that key. -/
theorem fromUnsorted_lastWins_sorted (updates : List LeafUpdate) :
    DedupBy.LastWins LeafUpdate.key (sortUnstableByKey updates) (fromUnsorted updates) := by
  rw [← lastWins_key_toNat_iff, fromUnsorted_eq, sortUnstableByKey_eq]
  exact DedupBy.lastWins_dedupBy_keepLater (UnstableSort.sort_sorted _ 32 updates)

/-- Up to 32 updates, each key keeps the last update of that key in the input. -/
theorem fromUnsorted_lastWins_of_length_le {updates : List LeafUpdate} (h : updates.length ≤ 32) :
    DedupBy.LastWins LeafUpdate.key updates (fromUnsorted updates) := by
  rw [← lastWins_key_toNat_iff, fromUnsorted_eq]
  exact DedupBy.lastWins_of_stable (UnstableSort.sort_sorted _ 32 updates)
    fun k => UnstableSort.sort_stable_of_length_le _ 32 h k

/-- Updates with strictly increasing keys are kept as they are. -/
theorem fromUnsorted_of_sorted {updates : List LeafUpdate} (h : updates.Pairwise fun a b => a.key < b.key) :
    fromUnsorted updates = updates := by
  have hle : updates.Pairwise fun a b => a.key.toNat ≤ b.key.toNat := h.imp fun hab => (BitVec.lt_def.mp hab).le
  rw [fromUnsorted, sortUnstableByKey_eq, UnstableSort.sort_of_sorted _ 32 hle]
  exact DedupBy.dedupBy_keepLater_of_pairwise_ne
    (h.imp fun hab heq => (BitVec.lt_def.mp hab).ne (congrArg BitVec.toNat heq))

/-- `from_unsorted` of the updates of a `SortedLeafUpdates` gives it back. -/
theorem SortedLeafUpdates.fromUnsorted_updates (s : SortedLeafUpdates) :
    SortedLeafUpdates.fromUnsorted s.updates = s := by
  obtain ⟨updates, hsorted⟩ := s
  show (⟨Smt.fromUnsorted updates, fromUnsorted_sorted updates⟩ : SortedLeafUpdates) = ⟨updates, hsorted⟩
  congr 1
  exact fromUnsorted_of_sorted hsorted

/-- One update is kept as it is: `from_unsorted(once(u))` is `SortedLeafUpdates.single u`. -/
theorem SortedLeafUpdates.fromUnsorted_singleton (u : LeafUpdate) :
    SortedLeafUpdates.fromUnsorted [u] = SortedLeafUpdates.single u := rfl

/-! ## Two updates of one key among 33 -/

/-- An update of key `k` with a zero leaf hash. -/
def zeroUpdate (k : ℕ) : LeafUpdate := ⟨BitVec.ofNat 256 k, 0⟩

/-- 33 updates with the keys 0 to 31, key 0 twice: `first` at position 2 and
`last` at position 29. The keys at positions 0, 16 and 28 are 2, 1 and 30, so
the pivot is the update of key 2; the update after it, of key 31, is not below
it, and the last update below it is `last`. -/
def duplicateKeyUpdates (first last : Hash) : List LeafUpdate :=
  [zeroUpdate 2, zeroUpdate 31, ⟨0, first⟩] ++ (List.range' 3 13).map zeroUpdate ++ [zeroUpdate 1] ++
    (List.range' 16 11).map zeroUpdate ++ [zeroUpdate 30, ⟨0, last⟩] ++ (List.range' 27 3).map zeroUpdate

theorem fromUnsorted_keeps_first_duplicate :
    ((duplicateKeyUpdates 1 2).filter fun u => u.key = 0).getLast? = some ⟨0, 2⟩ ∧
      ⟨0, 1⟩ ∈ fromUnsorted (duplicateKeyUpdates 1 2) ∧
      ¬DedupBy.LastWins LeafUpdate.key (duplicateKeyUpdates 1 2) (fromUnsorted (duplicateKeyUpdates 1 2)) := by
  have hlast : ((duplicateKeyUpdates 1 2).filter fun u => u.key = 0).getLast? = some ⟨0, 2⟩ := by
    decide
  have hkept : (⟨0, 1⟩ : LeafUpdate) ∈ fromUnsorted (duplicateKeyUpdates 1 2) := by
    decide
  refine ⟨hlast, hkept, fun hwins => ?_⟩
  -- the kept update of key 0 would have to be the last one, whose leaf hash is 2
  have hsame := hwins ⟨0, 1⟩ hkept
  rw [hlast] at hsame
  cases hsame

end RustyKaspa.Smt
