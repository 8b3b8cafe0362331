import RustyKaspa.SmtStore.LaneVersionKey
import RustyKaspa.Lib.SortedList

/-!
# The lane-version store

Model of the reads of `DbLaneVersionStore`
(`consensus/smt-store/src/lane_version_store.rs`): `get_at` and
`get_at_canonical`, which read the versions of one lane from a target blue
score downward, and `iter_all_canonical`, which walks every lane with a
skip-scan: `advance_canonical_lane` re-seeks within a lane whose newest entry is
above `max_blue_score`, jumps to the next lane (`next_lane_seek_key`) when the
entries fall below `min_blue_score`, steps past versions that are not
canonical, and after yielding a lane seeks the next one.

The column is the list of its entries sorted by key, and a raw iterator is the
suffix of that list it has still to yield (`[]` when it is not valid); `seek`
drops the entries below the target. Every key is a well-formed
`LaneVersionKey` and every value a 32-byte hash, so the branches of the source
that fail to parse a key or a value are not reached, and the store reports no
I/O error. The reacquiring iterator re-seeks at its current key, which over an
unchanging column is the same position.

`advance_canonical_lane` is a loop: it takes a bound on its iterations, and
`advanceCanonicalLane_spec` shows that the length of the cursor is enough. The
main result, `iterAllCanonical_lanes`, says that `iter_all_canonical` ends and
yields, in increasing lane order, exactly the lanes after `from` for which
`get_at_canonical` finds a version, each with that version.
-/

namespace RustyKaspa.SmtStore

open SortedList

/-- `MaybeFork` (`maybe_fork.rs` lines 8–12): a version read by seek, with
the blue score and block hash of its key. -/
structure MaybeFork (T : Type) where
  data : T
  blueScore : BitVec 64
  blockHash : Hash
  deriving DecidableEq, Repr

/-- `Verified` (`maybe_fork.rs` lines 50–54). -/
structure Verified (T : Type) where
  data : T
  blueScore : BitVec 64
  blockHash : Hash
  deriving DecidableEq, Repr

/-- `MaybeFork::into_verified`. -/
def MaybeFork.intoVerified {T : Type} (m : MaybeFork T) : Verified T :=
  ⟨m.data, m.blueScore, m.blockHash⟩

/-- `LaneTipHash`: the value of a lane version. -/
abbrev LaneTipHash := Hash

/-- The lane-version column: its entries, key and lane tip hash, in key order. -/
abbrev LaneColumn := List (LaneVersionKey × LaneTipHash)

/-- A raw iterator over the column: the entries it has still to yield. -/
abbrev LaneCursor := List (LaneVersionKey × LaneTipHash)

/-- `iter.seek(key)`: the first entry at or after `key`. -/
def seek (db : LaneColumn) (key : LaneVersionKey) : LaneCursor :=
  db.dropWhile fun e => e.1 < key

/-- The version an entry holds, with the score and hash of its key. -/
def LaneVersionKey.maybeFork (e : LaneVersionKey × LaneTipHash) : MaybeFork LaneTipHash :=
  ⟨e.2, e.1.revBlueScore.blueScore, e.1.blockHash⟩

/-- `get_at` (`lane_version_store.rs` lines 127–192): from the seek key of
`target_blue_score`, the entries of the lane (their first 33 bytes are those of
the seek key) while their score is at least `min_blue_score`. -/
def getAt (db : LaneColumn) (keyPrefix : BitVec 8) (laneKey : Hash)
    (targetBlueScore minBlueScore : BitVec 64) : List (MaybeFork LaneTipHash) :=
  ((seek db (LaneVersionKey.seekKey keyPrefix laneKey targetBlueScore)).takeWhile fun e =>
    e.1.keyPrefix = keyPrefix ∧ e.1.laneKey = laneKey ∧
      minBlueScore ≤ e.1.revBlueScore.blueScore).map LaneVersionKey.maybeFork

/-- `get_at_canonical` (lines 93–108): the first version `get_at` yields whose
block is canonical. -/
def getAtCanonical (db : LaneColumn) (keyPrefix : BitVec 8) (laneKey : Hash)
    (targetBlueScore minBlueScore : BitVec 64) (isCanonical : Hash → Bool) :
    Option (Verified LaneTipHash) :=
  ((getAt db keyPrefix laneKey targetBlueScore minBlueScore).find? fun entry =>
    isCanonical entry.blockHash).map MaybeFork.intoVerified

/-- `start_seek_key` (lines 291–296). -/
def startSeekKey (keyPrefix : BitVec 8) (fromLaneKey : Option Hash) (targetBlueScore : BitVec 64) :
    Option LaneVersionKey :=
  match fromLaneKey with
  | some k => nextLaneSeekKey keyPrefix k targetBlueScore
  | none => some (LaneVersionKey.seekKey keyPrefix 0 targetBlueScore)

/-- The state of the iterator `iter_all_canonical` returns: the raw iterator and
`done`. -/
structure LaneScan where
  iter : LaneCursor
  done : Bool

/-- `advance_canonical_lane` (lines 302–374), with at most `fuel` iterations of
its loop (`none` past them): the next lane's newest canonical version in
`[min_blue_score, max_blue_score]`. -/
def advanceCanonicalLane (db : LaneColumn) (keyPrefix : BitVec 8)
    (minBlueScore maxBlueScore : BitVec 64) (isCanonical : Hash → Bool) :
    ℕ → LaneScan → Option (Option (Hash × Verified LaneTipHash) × LaneScan)
  | 0, _ => none
  | fuel + 1, s =>
    if s.done then some (none, s)
    else
      match s.iter with
      | [] => some (none, { s with done := true })
      | (key, value) :: rest =>
        if key.keyPrefix ≠ keyPrefix then some (none, { s with done := true })
        else
          let laneKey := key.laneKey
          let blueScore := key.revBlueScore.blueScore
          let blockHash := key.blockHash
          -- above the window: the newest entry of the lane at or below `max_blue_score`
          if blueScore > maxBlueScore then
            advanceCanonicalLane db keyPrefix minBlueScore maxBlueScore isCanonical fuel
              { s with iter := seek db (LaneVersionKey.seekKey keyPrefix laneKey maxBlueScore) }
          -- below the window: the rest of the lane is older still
          else if blueScore < minBlueScore then
            match nextLaneSeekKey keyPrefix laneKey maxBlueScore with
            | none => some (none, { s with done := true })
            | some seekKey =>
              advanceCanonicalLane db keyPrefix minBlueScore maxBlueScore isCanonical fuel
                { s with iter := seek db seekKey }
          else if !isCanonical blockHash then
            advanceCanonicalLane db keyPrefix minBlueScore maxBlueScore isCanonical fuel
              { s with iter := rest }
          else
            let result : Verified LaneTipHash := ⟨value, blueScore, blockHash⟩
            match nextLaneSeekKey keyPrefix laneKey maxBlueScore with
            | some seekKey => some (some (laneKey, result), { s with iter := seek db seekKey })
            | none => some (some (laneKey, result), { s with done := true })

/-- Draining the iterator: `advance_canonical_lane` until it returns `None`, each
call with at most `fuel` iterations, and at most `count` calls. -/
def drainCanonicalLanes (db : LaneColumn) (keyPrefix : BitVec 8)
    (minBlueScore maxBlueScore : BitVec 64) (isCanonical : Hash → Bool) (fuel : ℕ) :
    ℕ → LaneScan → Option (List (Hash × Verified LaneTipHash))
  | 0, _ => none
  | count + 1, s =>
    match advanceCanonicalLane db keyPrefix minBlueScore maxBlueScore isCanonical fuel s with
    | none => none
    | some (none, _) => some []
    | some (some item, s') =>
      (drainCanonicalLanes db keyPrefix minBlueScore maxBlueScore isCanonical fuel count s').map
        (item :: ·)

/-- Everything `iter_all_canonical` (lines 208–226) yields, with `fuel` bounding
both the loop of each call and the number of calls. -/
def iterAllCanonical (db : LaneColumn) (keyPrefix : BitVec 8) (fromLaneKey : Option Hash)
    (minBlueScore : BitVec 64) (maxBlueScore : Option (BitVec 64)) (isCanonical : Hash → Bool)
    (fuel : ℕ) : Option (List (Hash × Verified LaneTipHash)) :=
  let maxBlueScore := maxBlueScore.getD (BitVec.allOnes 64)
  let startSeek := startSeekKey keyPrefix fromLaneKey maxBlueScore
  drainCanonicalLanes db keyPrefix minBlueScore maxBlueScore isCanonical fuel fuel
    ⟨(startSeek.map (seek db)).getD [], startSeek.isNone⟩


/-! ## One iteration of the loop, branch by branch -/

/-- What the drained iterator still has to do: the length of its cursor, and
one more call to find out it is done. -/
def LaneScan.measure (s : LaneScan) : ℕ :=
  if s.done then 0 else s.iter.length + 1

section Unfold

-- the equation lemmas of the loop are generated here, once, rather than by
-- each of the branch lemmas below at the same time
attribute [local simp] advanceCanonicalLane

variable {db : LaneColumn} {keyPrefix : BitVec 8} {minBlueScore maxBlueScore : BitVec 64}
  {isCanonical : Hash → Bool} {fuel : ℕ} {key : LaneVersionKey} {value : LaneTipHash}
  {rest : LaneCursor}

theorem advanceCanonicalLane_done {s : LaneScan} (hs : s.done = true) :
    advanceCanonicalLane db keyPrefix minBlueScore maxBlueScore isCanonical (fuel + 1) s =
      some (none, s) := by
  simp [advanceCanonicalLane, hs]

theorem advanceCanonicalLane_nil :
    advanceCanonicalLane db keyPrefix minBlueScore maxBlueScore isCanonical (fuel + 1) ⟨[], false⟩ =
      some (none, ⟨[], true⟩) := by
  simp [advanceCanonicalLane]

theorem advanceCanonicalLane_otherPrefix (hp : key.keyPrefix ≠ keyPrefix) :
    advanceCanonicalLane db keyPrefix minBlueScore maxBlueScore isCanonical (fuel + 1)
      ⟨(key, value) :: rest, false⟩ = some (none, ⟨(key, value) :: rest, true⟩) := by
  simp [advanceCanonicalLane, hp]

theorem advanceCanonicalLane_above (hp : key.keyPrefix = keyPrefix)
    (hmax : maxBlueScore < key.revBlueScore.blueScore) :
    advanceCanonicalLane db keyPrefix minBlueScore maxBlueScore isCanonical (fuel + 1)
        ⟨(key, value) :: rest, false⟩ =
      advanceCanonicalLane db keyPrefix minBlueScore maxBlueScore isCanonical fuel
        ⟨seek db (LaneVersionKey.seekKey keyPrefix key.laneKey maxBlueScore), false⟩ := by
  simp only [advanceCanonicalLane, hp, ne_eq, not_true_eq_false, if_false, gt_iff_lt, hmax, if_true,
    Bool.false_eq_true]

theorem advanceCanonicalLane_below_last (hp : key.keyPrefix = keyPrefix)
    (hmax : ¬maxBlueScore < key.revBlueScore.blueScore)
    (hmin : key.revBlueScore.blueScore < minBlueScore)
    (hn : nextLaneSeekKey keyPrefix key.laneKey maxBlueScore = none) :
    advanceCanonicalLane db keyPrefix minBlueScore maxBlueScore isCanonical (fuel + 1)
      ⟨(key, value) :: rest, false⟩ = some (none, ⟨(key, value) :: rest, true⟩) := by
  simp only [advanceCanonicalLane, hp, ne_eq, not_true_eq_false, if_false, gt_iff_lt, hmax, hmin,
    if_true, hn, Bool.false_eq_true]

theorem advanceCanonicalLane_below_next (hp : key.keyPrefix = keyPrefix)
    (hmax : ¬maxBlueScore < key.revBlueScore.blueScore)
    (hmin : key.revBlueScore.blueScore < minBlueScore) {seekKey : LaneVersionKey}
    (hn : nextLaneSeekKey keyPrefix key.laneKey maxBlueScore = some seekKey) :
    advanceCanonicalLane db keyPrefix minBlueScore maxBlueScore isCanonical (fuel + 1)
        ⟨(key, value) :: rest, false⟩ =
      advanceCanonicalLane db keyPrefix minBlueScore maxBlueScore isCanonical fuel
        ⟨seek db seekKey, false⟩ := by
  simp only [advanceCanonicalLane, hp, ne_eq, not_true_eq_false, if_false, gt_iff_lt, hmax, hmin,
    if_true, hn, Bool.false_eq_true]

theorem advanceCanonicalLane_stale (hp : key.keyPrefix = keyPrefix)
    (hmax : ¬maxBlueScore < key.revBlueScore.blueScore)
    (hmin : ¬key.revBlueScore.blueScore < minBlueScore) (hc : isCanonical key.blockHash = false) :
    advanceCanonicalLane db keyPrefix minBlueScore maxBlueScore isCanonical (fuel + 1)
        ⟨(key, value) :: rest, false⟩ =
      advanceCanonicalLane db keyPrefix minBlueScore maxBlueScore isCanonical fuel
        ⟨rest, false⟩ := by
  simp only [advanceCanonicalLane, hp, ne_eq, not_true_eq_false, if_false, gt_iff_lt, hmax, hmin,
    hc, Bool.not_false, if_true, Bool.false_eq_true]

theorem advanceCanonicalLane_yield_next (hp : key.keyPrefix = keyPrefix)
    (hmax : ¬maxBlueScore < key.revBlueScore.blueScore)
    (hmin : ¬key.revBlueScore.blueScore < minBlueScore) (hc : isCanonical key.blockHash = true)
    {seekKey : LaneVersionKey}
    (hn : nextLaneSeekKey keyPrefix key.laneKey maxBlueScore = some seekKey) :
    advanceCanonicalLane db keyPrefix minBlueScore maxBlueScore isCanonical (fuel + 1)
        ⟨(key, value) :: rest, false⟩ =
      some (some (key.laneKey, ⟨value, key.revBlueScore.blueScore, key.blockHash⟩),
        ⟨seek db seekKey, false⟩) := by
  simp only [advanceCanonicalLane, hp, ne_eq, not_true_eq_false, if_false, gt_iff_lt, hmax, hmin,
    hc, hn, Bool.not_true, Bool.false_eq_true]

theorem advanceCanonicalLane_yield_last (hp : key.keyPrefix = keyPrefix)
    (hmax : ¬maxBlueScore < key.revBlueScore.blueScore)
    (hmin : ¬key.revBlueScore.blueScore < minBlueScore) (hc : isCanonical key.blockHash = true)
    (hn : nextLaneSeekKey keyPrefix key.laneKey maxBlueScore = none) :
    advanceCanonicalLane db keyPrefix minBlueScore maxBlueScore isCanonical (fuel + 1)
        ⟨(key, value) :: rest, false⟩ =
      some (some (key.laneKey, ⟨value, key.revBlueScore.blueScore, key.blockHash⟩),
        ⟨(key, value) :: rest, true⟩) := by
  simp only [advanceCanonicalLane, hp, ne_eq, not_true_eq_false, if_false, gt_iff_lt, hmax, hmin,
    hc, hn, Bool.not_true, Bool.false_eq_true]

end Unfold

/-! ## `get_at` on a sorted column -/

section GetAt

variable {db : LaneColumn} (hdb : db.Pairwise fun a b => a.1 < b.1)
include hdb

theorem mem_seek {key : LaneVersionKey} {c : LaneVersionKey × LaneTipHash} :
    c ∈ seek db key ↔ c ∈ db ∧ key ≤ c.1 :=
  mem_dropWhile_lt hdb key

/-- The entries of a lane in a window of scores come together in the column,
newest first, so the loop of `get_at` sees them all. -/
theorem getAt_eq_filter (keyPrefix : BitVec 8) (laneKey : Hash) (targetBlueScore minBlueScore : BitVec 64) :
    getAt db keyPrefix laneKey targetBlueScore minBlueScore =
      ((seek db (LaneVersionKey.seekKey keyPrefix laneKey targetBlueScore)).filter fun e =>
        e.1.keyPrefix = keyPrefix ∧ e.1.laneKey = laneKey ∧
          minBlueScore ≤ e.1.revBlueScore.blueScore).map LaneVersionKey.maybeFork := by
  rw [getAt, seek, takeWhile_eq_filter (hdb.sublist (List.dropWhile_suffix _).sublist)]
  -- an entry between the seek key and an entry of the lane in the window is one too
  intro a ha c _ hac hc
  simp only [decide_eq_true_eq] at hc ⊢
  obtain ⟨hcp, hcL, hcmin⟩ := hc
  have hseek := (LaneVersionKey.le_iff_toNat _ _).mp ((mem_dropWhile_lt hdb _).mp ha).2
  have hlt := (LaneVersionKey.lt_iff_toNat _ _).mp hac
  have hcp' := congrArg BitVec.toNat hcp
  have hcL' := congrArg BitVec.toNat hcL
  rw [ReverseBlueScore.le_blueScore_iff] at hcmin ⊢
  simp only [LaneVersionKey.seekKey_keyPrefix, LaneVersionKey.seekKey_laneKey] at hseek
  refine ⟨BitVec.eq_of_toNat_eq (by omega), BitVec.eq_of_toNat_eq (by omega), by omega⟩

end GetAt

/-! ## What the scan is looking for -/

/-- What `iter_all_canonical` selects: the store's prefix, the window of blue
scores and the canonicality test. -/
structure Window where
  keyPrefix : BitVec 8
  minBlueScore : BitVec 64
  maxBlueScore : BitVec 64
  isCanonical : Hash → Bool

namespace Window

variable (w : Window) (db : LaneColumn)

/-- An entry the scan may yield: of the store's prefix, with a blue score in
the window, and canonical. -/
def Candidate (e : LaneVersionKey × LaneTipHash) : Prop :=
  e.1.keyPrefix = w.keyPrefix ∧ w.minBlueScore ≤ e.1.revBlueScore.blueScore ∧
    e.1.revBlueScore.blueScore ≤ w.maxBlueScore ∧ w.isCanonical e.1.blockHash = true

instance : DecidablePred w.Candidate :=
  fun e => inferInstanceAs (Decidable (e.1.keyPrefix = w.keyPrefix ∧ _))

/-- No candidate is left at lane `b` or above. -/
def Exhausted (b : ℕ) : Prop :=
  ∀ e ∈ db, w.Candidate e → e.1.laneKey.toNat < b

/-- A cursor positioned for the lanes from `b` on: a suffix of the column that
holds every candidate of those lanes, and nothing of the store's prefix below
lane `b` nor of a smaller prefix. -/
structure Positioned (b : ℕ) (cur : LaneCursor) : Prop where
  suffix : cur <:+ db
  candidates : ∀ e ∈ db, w.Candidate e → b ≤ e.1.laneKey.toNat → e ∈ cur
  above : ∀ e ∈ cur, w.keyPrefix.toNat < e.1.keyPrefix.toNat ∨
    e.1.keyPrefix.toNat = w.keyPrefix.toNat ∧ b ≤ e.1.laneKey.toNat

/-- The invariant of the drained iterator, for the lanes from `b` on: done with
nothing left there, or positioned for them. -/
def ScanInv (b : ℕ) (s : LaneScan) : Prop :=
  if s.done then w.Exhausted db b else w.Positioned db b s.iter

/-- `laneKey` is the first lane from `b` on with a candidate, and `v` what
`get_at_canonical` reads for it. -/
def FirstLane (b : ℕ) (laneKey : Hash) (v : Verified LaneTipHash) : Prop :=
  b ≤ laneKey.toNat ∧
    getAtCanonical db w.keyPrefix laneKey w.maxBlueScore w.minBlueScore w.isCanonical = some v ∧
    ∀ e ∈ db, w.Candidate e → b ≤ e.1.laneKey.toNat → laneKey.toNat ≤ e.1.laneKey.toNat

variable {w db}

/-- A candidate's fields as numbers: its reversed score lies between those of
the window's ends. -/
theorem Candidate.toNat {e : LaneVersionKey × LaneTipHash} (h : w.Candidate e) :
    e.1.keyPrefix.toNat = w.keyPrefix.toNat ∧
      e.1.revBlueScore.val.toNat ≤ (ReverseBlueScore.new w.minBlueScore).val.toNat ∧
      (ReverseBlueScore.new w.maxBlueScore).val.toNat ≤ e.1.revBlueScore.val.toNat := by
  obtain ⟨hp, hmin, hmax, -⟩ := h
  exact ⟨congrArg BitVec.toNat hp, (ReverseBlueScore.le_blueScore_iff _ _).mp hmin,
    (ReverseBlueScore.blueScore_le_iff _ _).mp hmax⟩

section Sorted

variable (hdb : db.Pairwise fun a b => a.1 < b.1)
include hdb

theorem Positioned.sorted {b : ℕ} {cur : LaneCursor} (h : w.Positioned db b cur) :
    cur.Pairwise fun a b => a.1 < b.1 :=
  hdb.sublist h.suffix.sublist

/-- Every candidate the cursor is positioned for comes at or after its entry. -/
theorem Positioned.head_le {b : ℕ} {key : LaneVersionKey} {value : LaneTipHash}
    {rest : LaneCursor} (h : w.Positioned db b ((key, value) :: rest)) {e : LaneVersionKey × LaneTipHash}
    (he : e ∈ db) (hc : w.Candidate e) (hb : b ≤ e.1.laneKey.toNat) : key ≤ e.1 := by
  rcases List.mem_cons.mp (h.candidates e he hc hb) with rfl | hr
  · exact le_rfl
  · exact ((List.pairwise_cons.mp (h.sorted hdb)).1 e hr).le

/-- A seek to a lane at `max_blue_score` is positioned for the lanes from it on:
every candidate of the lane is at or below `max_blue_score`. -/
theorem positioned_seekKey (laneKey : Hash) :
    w.Positioned db laneKey.toNat (seek db (LaneVersionKey.seekKey w.keyPrefix laneKey w.maxBlueScore)) where
  suffix := List.dropWhile_suffix _
  candidates e he hc hL := by
    rw [seek, mem_dropWhile_lt hdb]
    refine ⟨he, ?_⟩
    obtain ⟨hp, -, hmax⟩ := hc.toNat
    have h0 : (0 : Hash).toNat = 0 := rfl
    rw [LaneVersionKey.le_iff_toNat]
    simp only [LaneVersionKey.seekKey_keyPrefix, LaneVersionKey.seekKey_laneKey,
      LaneVersionKey.seekKey_revBlueScore, LaneVersionKey.seekKey_blockHash, h0]
    omega
  above e he := by
    rw [seek, mem_dropWhile_lt hdb] at he
    have h := (LaneVersionKey.le_iff_toNat _ _).mp he.2
    simp only [LaneVersionKey.seekKey_keyPrefix, LaneVersionKey.seekKey_laneKey] at h
    omega

/-- After a lane, the scan seeks the next one. -/
theorem positioned_seek_next {laneKey : Hash} (hlast : laneKey.toNat + 1 < 2 ^ 256) :
    w.Positioned db (laneKey.toNat + 1) (seek db (LaneVersionKey.seekKey w.keyPrefix (laneKey + 1) w.maxBlueScore)) := by
  have hpos := positioned_seekKey (w := w) hdb (laneKey + 1)
  rwa [toNat_add_one hlast] at hpos

/-- A seek past the entry at the cursor shortens what the scan has left. -/
theorem measure_seek_lt {b : ℕ} {key : LaneVersionKey} {value : LaneTipHash} {rest : LaneCursor}
    (hpos : w.Positioned db b ((key, value) :: rest)) {t : LaneVersionKey} (ht : key < t) :
    LaneScan.measure ⟨seek db t, false⟩ < LaneScan.measure ⟨(key, value) :: rest, false⟩ := by
  have hlt : (seek db t).length < ((key, value) :: rest).length := length_dropWhile_lt hdb hpos.suffix rfl ht
  simp only [LaneScan.measure, if_neg Bool.false_ne_true]
  omega

end Sorted

/-- Positioned for the lanes from `b'` on, with no candidate in the lanes from
`b` below `b'`: positioned for the lanes from `b` on. -/
theorem Positioned.lower {b b' : ℕ} {cur : LaneCursor} (h : w.Positioned db b' cur) (hb : b ≤ b')
    (hnone : ∀ e ∈ db, w.Candidate e → b ≤ e.1.laneKey.toNat → b' ≤ e.1.laneKey.toNat) :
    w.Positioned db b cur where
  suffix := h.suffix
  candidates e he hc hbe := h.candidates e he hc (hnone e he hc hbe)
  above e he := by
    have := h.above e he
    omega

theorem ScanInv.measure_le {b : ℕ} {s : LaneScan} (hs : w.ScanInv db b s) :
    s.measure ≤ db.length + 1 := by
  unfold ScanInv at hs
  unfold LaneScan.measure
  split_ifs at hs ⊢
  · omega
  · exact Nat.succ_le_succ hs.suffix.length_le

/-- The seek key of the next lane is above the entries of this one. -/
theorem lt_seekKey_next {key : LaneVersionKey} (hp : key.keyPrefix = w.keyPrefix)
    (hlast : key.laneKey.toNat + 1 < 2 ^ 256) :
    key < LaneVersionKey.seekKey w.keyPrefix (key.laneKey + 1) w.maxBlueScore := by
  rw [LaneVersionKey.lt_iff_toNat]
  simp only [LaneVersionKey.seekKey_keyPrefix, LaneVersionKey.seekKey_laneKey, toNat_add_one hlast, hp, true_and]
  omega

section Spec

variable (hdb : db.Pairwise fun a b => a.1 < b.1)
include hdb

/-- What `get_at_canonical` reads is a candidate of the lane. -/
theorem exists_candidate_of_getAtCanonical {laneKey : Hash} {v : Verified LaneTipHash}
    (h : getAtCanonical db w.keyPrefix laneKey w.maxBlueScore w.minBlueScore w.isCanonical = some v) :
    ∃ e ∈ db, w.Candidate e ∧ e.1.laneKey = laneKey := by
  rw [getAtCanonical, getAt_eq_filter hdb] at h
  obtain ⟨m, hm, -⟩ := Option.map_eq_some_iff.mp h
  obtain ⟨e, he, rfl⟩ := List.mem_map.mp (List.mem_of_find?_eq_some hm)
  have hcan : w.isCanonical e.1.blockHash = true := by
    simpa [LaneVersionKey.maybeFork] using List.find?_some hm
  obtain ⟨heseek, hQ⟩ := List.mem_filter.mp he
  simp only [decide_eq_true_eq] at hQ
  obtain ⟨hp, hL, hmin⟩ := hQ
  obtain ⟨hedb, hkey⟩ := (mem_seek hdb).mp heseek
  exact ⟨e, hedb, ⟨hp, hmin, LaneVersionKey.blueScore_le_of_seekKey_le hkey hp hL, hcan⟩, hL⟩

/-- The first candidate of a lane is what `get_at_canonical` reads for it. -/
theorem getAtCanonical_of_first {e : LaneVersionKey × LaneTipHash} (he : e ∈ db)
    (hc : w.Candidate e)
    (hfirst : ∀ c ∈ db, w.Candidate c → c.1.laneKey = e.1.laneKey → e.1 ≤ c.1) :
    getAtCanonical db w.keyPrefix e.1.laneKey w.maxBlueScore w.minBlueScore w.isCanonical =
      some ⟨e.2, e.1.revBlueScore.blueScore, e.1.blockHash⟩ := by
  obtain ⟨hp, hmin, hmax, hcan⟩ := hc
  have hseek : e ∈ seek db (LaneVersionKey.seekKey w.keyPrefix e.1.laneKey w.maxBlueScore) := by
    refine (mem_seek hdb).mpr ⟨he, ?_⟩
    have hmax' := (ReverseBlueScore.blueScore_le_iff _ _).mp hmax
    have h0 : (0 : Hash).toNat = 0 := rfl
    rw [LaneVersionKey.le_iff_toNat]
    simp only [LaneVersionKey.seekKey_keyPrefix, LaneVersionKey.seekKey_laneKey,
      LaneVersionKey.seekKey_revBlueScore, LaneVersionKey.seekKey_blockHash, h0, hp, true_and]
    omega
  have hmem : e ∈ (seek db (LaneVersionKey.seekKey w.keyPrefix e.1.laneKey w.maxBlueScore)).filter
      fun c => c.1.keyPrefix = w.keyPrefix ∧ c.1.laneKey = e.1.laneKey ∧
        w.minBlueScore ≤ c.1.revBlueScore.blueScore :=
    List.mem_filter.mpr ⟨hseek, by simp [hp, hmin]⟩
  have hsorted : ((seek db (LaneVersionKey.seekKey w.keyPrefix e.1.laneKey w.maxBlueScore)).filter
      fun c => c.1.keyPrefix = w.keyPrefix ∧ c.1.laneKey = e.1.laneKey ∧
        w.minBlueScore ≤ c.1.revBlueScore.blueScore).Pairwise fun a b => a.1 < b.1 :=
    (hdb.sublist (List.dropWhile_suffix _).sublist).filter _
  obtain ⟨as, bs, hsplit⟩ := List.append_of_mem hmem
  -- every version of the lane before `e` in the window is not canonical
  have hfind : ((seek db (LaneVersionKey.seekKey w.keyPrefix e.1.laneKey w.maxBlueScore)).filter
      fun c => c.1.keyPrefix = w.keyPrefix ∧ c.1.laneKey = e.1.laneKey ∧
        w.minBlueScore ≤ c.1.revBlueScore.blueScore).find?
        (fun c => w.isCanonical (LaneVersionKey.maybeFork c).blockHash) = some e := by
    rw [List.find?_eq_some_iff_append]
    refine ⟨hcan, as, bs, hsplit, fun a ha => ?_⟩
    have haf : a ∈ _ := hsplit ▸ List.mem_append_left _ ha
    have hlt : a.1 < e.1 := by
      rw [hsplit] at hsorted
      exact (List.pairwise_append.mp hsorted).2.2 a ha e List.mem_cons_self
    obtain ⟨haseek, haQ⟩ := List.mem_filter.mp haf
    simp only [decide_eq_true_eq] at haQ
    obtain ⟨hap, haL, hamin⟩ := haQ
    obtain ⟨hadb, hakey⟩ := (mem_seek hdb).mp haseek
    by_contra hacan
    have hcand : w.Candidate a :=
      ⟨hap, hamin, LaneVersionKey.blueScore_le_of_seekKey_le hakey hap haL,
        by simpa [LaneVersionKey.maybeFork] using hacan⟩
    exact absurd (hfirst a hadb hcand haL) (not_le.mpr hlt)
  rw [getAtCanonical, getAt_eq_filter hdb, List.find?_map]
  simp only [Function.comp_def, hfind, Option.map_some]
  rfl

/-- A candidate of a lane after the current entry's, or of that lane but older,
comes after the entry: what every move of the loop leans on. -/
theorem Positioned.lane_le {b : ℕ} {key : LaneVersionKey} {value : LaneTipHash} {rest : LaneCursor}
    (h : w.Positioned db b ((key, value) :: rest)) (hp : key.keyPrefix = w.keyPrefix)
    {e : LaneVersionKey × LaneTipHash} (he : e ∈ db) (hc : w.Candidate e) (hb : b ≤ e.1.laneKey.toNat) :
    key.laneKey.toNat < e.1.laneKey.toNat ∨
      key.laneKey.toNat = e.1.laneKey.toNat ∧ key.revBlueScore.val.toNat ≤ e.1.revBlueScore.val.toNat := by
  have hk := (LaneVersionKey.le_iff_toNat _ _).mp (h.head_le hdb he hc hb)
  have hp' := congrArg BitVec.toNat hp
  obtain ⟨hep, -, -⟩ := hc.toNat
  omega

/-- A lane with a candidate has a first one, and `get_at_canonical` reads it. -/
theorem exists_getAtCanonical_of_candidate {e : LaneVersionKey × LaneTipHash} (he : e ∈ db)
    (hc : w.Candidate e) :
    ∃ v, getAtCanonical db w.keyPrefix e.1.laneKey w.maxBlueScore w.minBlueScore w.isCanonical =
      some v := by
  obtain ⟨f, hf⟩ : ∃ f, db.find? (fun c => decide (w.Candidate c ∧ c.1.laneKey = e.1.laneKey)) =
      some f := Option.isSome_iff_exists.mp (List.find?_isSome.mpr ⟨e, he, by simp [hc]⟩)
  have hfc : w.Candidate f ∧ f.1.laneKey = e.1.laneKey := by simpa using List.find?_some hf
  have hmin := rel_of_find?_eq_some hdb hf
  refine ⟨_, hfc.2 ▸ getAtCanonical_of_first hdb (List.mem_of_find?_eq_some hf) hfc.1
    fun c hcdb hcc hcL => ?_⟩
  rcases hmin c hcdb (by simp [hcc, hcL, hfc.2]) with rfl | hlt
  · exact le_rfl
  · exact hlt.le

/-- The loop of `advance_canonical_lane` ends within the length of its cursor,
and returns the first lane from `b` on that has a candidate, with the version
`get_at_canonical` reads for it, leaving the scan positioned after that lane;
or `None` when no such lane is left. -/
theorem advanceCanonicalLane_spec {b : ℕ} {s : LaneScan} (hs : w.ScanInv db b s) {fuel : ℕ}
    (hfuel : s.measure < fuel) :
    ∃ r s', advanceCanonicalLane db w.keyPrefix w.minBlueScore w.maxBlueScore w.isCanonical fuel s =
        some (r, s') ∧ (r = none → w.Exhausted db b) ∧
      ∀ laneKey v, r = some (laneKey, v) →
        w.FirstLane db b laneKey v ∧ w.ScanInv db (laneKey.toNat + 1) s' ∧ s'.measure < s.measure := by
  induction fuel generalizing s with
  | zero => exact absurd hfuel (Nat.not_lt_zero _)
  | succ fuel ih =>
    -- a move to another state for the same lanes hands over to the rest of the loop
    have hmove : ∀ s1 : LaneScan,
        advanceCanonicalLane db w.keyPrefix w.minBlueScore w.maxBlueScore w.isCanonical (fuel + 1) s =
          advanceCanonicalLane db w.keyPrefix w.minBlueScore w.maxBlueScore w.isCanonical fuel s1 →
        w.ScanInv db b s1 → s1.measure < s.measure →
        ∃ r s', advanceCanonicalLane db w.keyPrefix w.minBlueScore w.maxBlueScore w.isCanonical
            (fuel + 1) s = some (r, s') ∧ (r = none → w.Exhausted db b) ∧
          ∀ laneKey v, r = some (laneKey, v) →
            w.FirstLane db b laneKey v ∧ w.ScanInv db (laneKey.toNat + 1) s' ∧
              s'.measure < s.measure := by
      intro s1 hstep hs1 hlt
      obtain ⟨r, s', hrun, hnone, hsome⟩ := ih hs1 (by omega)
      refine ⟨r, s', hstep.trans hrun, hnone, fun laneKey v hr => ?_⟩
      obtain ⟨hfirst, hinv, hm⟩ := hsome laneKey v hr
      exact ⟨hfirst, hinv, hm.trans hlt⟩
    obtain ⟨cur, done⟩ := s
    cases done with
    | true =>
      -- done: `None`, and nothing is left
      refine ⟨none, _, advanceCanonicalLane_done rfl, fun _ => by simpa [ScanInv] using hs,
        fun _ _ h => by cases h⟩
    | false =>
      have hpos : w.Positioned db b cur := by simpa [ScanInv] using hs
      cases cur with
      | nil =>
        -- the column is exhausted
        refine ⟨none, _, advanceCanonicalLane_nil, fun _ e he hc => ?_, fun _ _ h => by cases h⟩
        by_contra hlt
        exact List.not_mem_nil (hpos.candidates e he hc (not_lt.mp hlt))
      | cons entry rest =>
        obtain ⟨key, value⟩ := entry
        have hkeydb : (key, value) ∈ db := hpos.suffix.subset List.mem_cons_self
        by_cases hp : key.keyPrefix = w.keyPrefix
        swap
        · -- past the store's prefix: every candidate came before
          refine ⟨none, _, advanceCanonicalLane_otherPrefix hp, fun _ e he hc => ?_,
            fun _ _ h => by cases h⟩
          by_contra hlt
          have hk := (LaneVersionKey.le_iff_toNat _ _).mp (hpos.head_le hdb he hc (not_lt.mp hlt))
          have habove := hpos.above (key, value) List.mem_cons_self
          dsimp only at habove
          have hp' : key.keyPrefix.toNat ≠ w.keyPrefix.toNat := fun h => hp (BitVec.eq_of_toNat_eq h)
          obtain ⟨hep, -, -⟩ := hc.toNat
          omega
        have hb : b ≤ key.laneKey.toNat := by
          have habove := hpos.above (key, value) List.mem_cons_self
          dsimp only at habove
          have hp' := congrArg BitVec.toNat hp
          omega
        by_cases hmax : w.maxBlueScore < key.revBlueScore.blueScore
        · -- above the window: re-seek the lane at `max_blue_score`
          have hmax' := (ReverseBlueScore.lt_blueScore_iff _ _).mp hmax
          refine hmove _ (advanceCanonicalLane_above hp hmax) ?_ ?_
          · -- the lane's candidates are at or below `max_blue_score`, later lanes after it
            refine (positioned_seekKey hdb key.laneKey).lower hb fun e he hc hbe => ?_
            have := hpos.lane_le hdb hp he hc hbe
            omega
          · apply measure_seek_lt hdb hpos
            rw [LaneVersionKey.lt_iff_toNat]
            simp only [LaneVersionKey.seekKey_keyPrefix, LaneVersionKey.seekKey_laneKey,
              LaneVersionKey.seekKey_revBlueScore, hp, true_and]
            omega
        by_cases hmin : key.revBlueScore.blueScore < w.minBlueScore
        · -- below the window: the rest of the lane is older, go to the next lane
          have hmin' := (ReverseBlueScore.blueScore_lt_iff _ _).mp hmin
          -- no candidate is left in this lane
          have hnext : ∀ e ∈ db, w.Candidate e → b ≤ e.1.laneKey.toNat →
              key.laneKey.toNat < e.1.laneKey.toNat := by
            intro e he hc hbe
            have := hpos.lane_le hdb hp he hc hbe
            obtain ⟨-, hemin, -⟩ := hc.toNat
            omega
          by_cases hlast : key.laneKey.toNat + 1 < 2 ^ 256
          · have hn := nextLaneSeekKey_eq w.keyPrefix key.laneKey w.maxBlueScore
            rw [if_pos hlast] at hn
            refine hmove _ (advanceCanonicalLane_below_next hp hmax hmin hn) ?_ ?_
            · exact (positioned_seek_next hdb hlast).lower (by omega) fun e he hc hbe => hnext e he hc hbe
            · exact measure_seek_lt hdb hpos (lt_seekKey_next hp hlast)
          · -- the last lane: nothing is left
            have hn := nextLaneSeekKey_eq w.keyPrefix key.laneKey w.maxBlueScore
            rw [if_neg hlast] at hn
            refine ⟨none, _, advanceCanonicalLane_below_last hp hmax hmin hn, fun _ e he hc => ?_,
              fun _ _ h => by cases h⟩
            by_contra hlt
            have := hnext e he hc (not_lt.mp hlt)
            have := e.1.laneKey.isLt
            omega
        have hcand : ∀ hc : w.isCanonical key.blockHash = true, w.Candidate (key, value) :=
          fun hc => ⟨hp, BitVec.not_lt.mp hmin, BitVec.not_lt.mp hmax, hc⟩
        cases hc : w.isCanonical key.blockHash
        · -- not canonical: step to the next entry
          refine hmove ⟨rest, false⟩ (advanceCanonicalLane_stale hp hmax hmin hc) ?_ ?_
          · refine ⟨(List.suffix_cons _ _).trans hpos.suffix, fun e he hce hbe => ?_,
              fun e he => hpos.above e (List.mem_cons_of_mem _ he)⟩
            rcases List.mem_cons.mp (hpos.candidates e he hce hbe) with rfl | hr
            · exact absurd hce.2.2.2 (by simp [hc])
            · exact hr
          · simp [LaneScan.measure]
        · -- canonical: this is the lane's newest version in the window
          have hfirst : w.FirstLane db b key.laneKey ⟨value, key.revBlueScore.blueScore, key.blockHash⟩ :=
            ⟨hb, getAtCanonical_of_first hdb hkeydb (hcand hc) fun c hcdb hcc hcL =>
                hpos.head_le hdb hcdb hcc (hcL ▸ hb),
              fun e he hce hbe => by
                have := hpos.lane_le hdb hp he hce hbe
                omega⟩
          by_cases hlast : key.laneKey.toNat + 1 < 2 ^ 256
          · have hn := nextLaneSeekKey_eq w.keyPrefix key.laneKey w.maxBlueScore
            rw [if_pos hlast] at hn
            refine ⟨_, _, advanceCanonicalLane_yield_next hp hmax hmin hc hn, (fun h => by cases h),
              fun laneKey v h => ?_⟩
            obtain ⟨rfl, rfl⟩ := Prod.mk.inj (Option.some.inj h)
            refine ⟨hfirst, ?_, ?_⟩
            · simpa [ScanInv] using positioned_seek_next hdb hlast
            · exact measure_seek_lt hdb hpos (lt_seekKey_next hp hlast)
          · -- the last lane: the scan is done, and there is no lane after it
            have hn := nextLaneSeekKey_eq w.keyPrefix key.laneKey w.maxBlueScore
            rw [if_neg hlast] at hn
            refine ⟨_, _, advanceCanonicalLane_yield_last hp hmax hmin hc hn, (fun h => by cases h),
              fun laneKey v h => ?_⟩
            obtain ⟨rfl, rfl⟩ := Prod.mk.inj (Option.some.inj h)
            refine ⟨hfirst, ?_, by simp [LaneScan.measure]⟩
            simp only [ScanInv]
            intro e _ _
            have := e.1.laneKey.isLt
            omega


/-- Draining the iterator from a scan positioned for the lanes from `b` on
yields, in increasing order, every lane from `b` on for which
`get_at_canonical` reads a version, with that version, and nothing else. -/
theorem drainCanonicalLanes_spec {b : ℕ} {s : LaneScan} (hs : w.ScanInv db b s) {fuel count : ℕ}
    (hfuel : db.length + 1 < fuel) (hcount : s.measure < count) :
    ∃ out, drainCanonicalLanes db w.keyPrefix w.minBlueScore w.maxBlueScore w.isCanonical fuel count s =
        some out ∧ (out.map (·.1)).Pairwise (· < ·) ∧
      ∀ laneKey v, (laneKey, v) ∈ out ↔ b ≤ laneKey.toNat ∧
        getAtCanonical db w.keyPrefix laneKey w.maxBlueScore w.minBlueScore w.isCanonical = some v := by
  -- induction on the calls left; each yield lowers the measure
  induction count generalizing b s with
  | zero => exact absurd hcount (Nat.not_lt_zero _)
  | succ count ih =>
    obtain ⟨r, s', hrun, hnone, hsome⟩ :=
      advanceCanonicalLane_spec hdb hs (lt_of_le_of_lt hs.measure_le hfuel)
    rcases r with _ | ⟨laneKey, v⟩
    · -- `None`: no lane from `b` on has a candidate
      refine ⟨[], by simp [drainCanonicalLanes, hrun], List.Pairwise.nil, fun L v' => ?_⟩
      simp only [List.not_mem_nil, false_iff, not_and]
      intro hbL hget
      obtain ⟨e, he, hc, rfl⟩ := exists_candidate_of_getAtCanonical hdb hget
      exact absurd (hnone rfl e he hc) (not_lt.mpr hbL)
    · obtain ⟨hfirst, hinv, hlt⟩ := hsome laneKey v rfl
      obtain ⟨out, hout, hsorted, hmem⟩ := ih hinv (by omega)
      refine ⟨(laneKey, v) :: out, by simp [drainCanonicalLanes, hrun, hout], ?_, fun L v' => ?_⟩
      · -- the later lanes are all after this one
        refine List.pairwise_cons.mpr ⟨fun L' hL' => ?_, hsorted⟩
        obtain ⟨⟨L'', v''⟩, hx, rfl⟩ := List.mem_map.mp hL'
        have := ((hmem L'' v'').mp hx).1
        show laneKey < L''
        rw [BitVec.lt_def]
        omega
      · obtain ⟨hbL, hget, hmin⟩ := hfirst
        rw [List.mem_cons, hmem, Prod.mk.injEq]
        constructor
        · rintro (⟨rfl, rfl⟩ | ⟨hL, hgetL⟩)
          · exact ⟨hbL, hget⟩
          · exact ⟨by omega, hgetL⟩
        · -- a lane with a version is this one or a later one
          rintro ⟨hbL', hgetL⟩
          obtain ⟨e, he, hc, rfl⟩ := exists_candidate_of_getAtCanonical hdb hgetL
          have hle := hmin e he hc hbL'
          by_cases heq : e.1.laneKey = laneKey
          · subst heq
            exact Or.inl ⟨rfl, Option.some.inj (hgetL.symm.trans hget)⟩
          · have hne : e.1.laneKey.toNat ≠ laneKey.toNat := fun h => heq (BitVec.eq_of_toNat_eq h)
            exact Or.inr ⟨by omega, hgetL⟩

end Spec

end Window

/-! ## `iter_all_canonical` -/

/-- `iter_all_canonical(from, min, Some(max), is_canonical)` over a column
sorted by key ends, and yields in increasing lane order exactly the lanes after
`from` for which `get_at_canonical(lane, max, min, is_canonical)` reads a
version, each with that version. -/
theorem iterAllCanonical_lanes (db : LaneColumn) (hdb : db.Pairwise fun a b => a.1 < b.1)
    (keyPrefix : BitVec 8) (fromLaneKey : Option Hash) (minBlueScore maxBlueScore : BitVec 64)
    (isCanonical : Hash → Bool) (fuel : ℕ) (hfuel : db.length + 1 < fuel) :
    ∃ out, iterAllCanonical db keyPrefix fromLaneKey minBlueScore (some maxBlueScore) isCanonical
        fuel = some out ∧ (out.map (·.1)).Pairwise (· < ·) ∧
      (∀ laneKey v, (laneKey, v) ∈ out ↔ (∀ k ∈ fromLaneKey, k < laneKey) ∧
        getAtCanonical db keyPrefix laneKey maxBlueScore minBlueScore isCanonical = some v) ∧
      ∀ laneKey, (∃ v, getAtCanonical db keyPrefix laneKey maxBlueScore minBlueScore isCanonical =
        some v) ↔ ∃ e ∈ db, e.1.keyPrefix = keyPrefix ∧ e.1.laneKey = laneKey ∧
          minBlueScore ≤ e.1.revBlueScore.blueScore ∧ e.1.revBlueScore.blueScore ≤ maxBlueScore ∧
          isCanonical e.1.blockHash = true := by
  set w : Window := ⟨keyPrefix, minBlueScore, maxBlueScore, isCanonical⟩ with hw
  -- the lanes after `from` are those from `b` on, and the first seek is set for them
  obtain ⟨b, s, hstart, hinv, hb⟩ : ∃ b s, iterAllCanonical db keyPrefix fromLaneKey minBlueScore
      (some maxBlueScore) isCanonical fuel =
        drainCanonicalLanes db keyPrefix minBlueScore maxBlueScore isCanonical fuel fuel s ∧
      w.ScanInv db b s ∧ ∀ laneKey : Hash, b ≤ laneKey.toNat ↔ ∀ k ∈ fromLaneKey, k < laneKey := by
    cases fromLaneKey with
    | none =>
      refine ⟨0, ⟨seek db (LaneVersionKey.seekKey keyPrefix 0 maxBlueScore), false⟩, rfl, ?_,
        fun laneKey => by simp⟩
      simpa [Window.ScanInv] using Window.positioned_seekKey (w := w) hdb 0
    | some k =>
      by_cases hlast : k.toNat + 1 < 2 ^ 256
      · refine ⟨k.toNat + 1,
          ⟨seek db (LaneVersionKey.seekKey keyPrefix (k + 1) maxBlueScore), false⟩, ?_, ?_,
          fun laneKey => ?_⟩
        · have hseek : startSeekKey keyPrefix (some k) maxBlueScore =
              some (LaneVersionKey.seekKey keyPrefix (k + 1) maxBlueScore) := by
            rw [startSeekKey, nextLaneSeekKey_eq, if_pos hlast]
          simp only [iterAllCanonical, Option.getD_some, hseek, Option.map_some, Option.isNone_some]
        · simpa [Window.ScanInv] using Window.positioned_seek_next (w := w) hdb hlast
        · simp only [Option.mem_def, Option.some.injEq, forall_eq', BitVec.lt_def]
          omega
      · -- `from` is the last lane key: the iterator starts done
        refine ⟨k.toNat + 1, ⟨[], true⟩, ?_, ?_, fun laneKey => ?_⟩
        · have hseek : startSeekKey keyPrefix (some k) maxBlueScore = none := by
            rw [startSeekKey, nextLaneSeekKey_eq, if_neg hlast]
          simp only [iterAllCanonical, Option.getD_some, hseek, Option.map_none, Option.getD_none,
            Option.isNone_none]
        · simp only [Window.ScanInv, if_true]
          intro e _ _
          have := e.1.laneKey.isLt
          omega
        · simp only [Option.mem_def, Option.some.injEq, forall_eq', BitVec.lt_def]
          have := laneKey.isLt
          omega
  obtain ⟨out, hout, hsorted, hmem⟩ :=
    Window.drainCanonicalLanes_spec hdb hinv hfuel (lt_of_le_of_lt hinv.measure_le hfuel)
  refine ⟨out, hstart.trans hout, hsorted,
    fun laneKey v => (hmem laneKey v).trans (and_congr_left' (hb laneKey)), fun laneKey => ?_⟩
  -- `get_at_canonical` reads a version exactly for the lanes with a candidate
  constructor
  · rintro ⟨v, hv⟩
    obtain ⟨e, he, ⟨hp, hmin, hmax, hc⟩, hL⟩ := Window.exists_candidate_of_getAtCanonical (w := w) hdb hv
    exact ⟨e, he, hp, hL, hmin, hmax, hc⟩
  · rintro ⟨e, he, hp, rfl, hmin, hmax, hc⟩
    exact Window.exists_getAtCanonical_of_candidate (w := w) hdb he ⟨hp, hmin, hmax, hc⟩

/-- A column of three lanes under prefix 7: lane 1 at scores 9, 4 and 2, lane 2
at score 3, lane 3 at score 1. -/
def threeLaneColumn : LaneColumn :=
  [(LaneVersionKey.new 7 1 9 5, 100), (LaneVersionKey.new 7 1 4 6, 101),
    (LaneVersionKey.new 7 1 2 7, 102), (LaneVersionKey.new 7 2 3 8, 103),
    (LaneVersionKey.new 7 3 1 9, 104)]

theorem iterAllCanonical_lanes_threeLaneColumn :
    threeLaneColumn.Pairwise (fun a b => a.1 < b.1) ∧ threeLaneColumn.length + 1 < 7 ∧
      ∃ out, iterAllCanonical threeLaneColumn 7 none 2 (some 5) (fun h => h != 6) 7 = some out ∧
        (out.map (·.1)).Pairwise (· < ·) ∧
        (∀ laneKey v, (laneKey, v) ∈ out ↔ (∀ k ∈ (none : Option Hash), k < laneKey) ∧
          getAtCanonical threeLaneColumn 7 laneKey 5 2 (fun h => h != 6) = some v) ∧
        ∀ laneKey, (∃ v, getAtCanonical threeLaneColumn 7 laneKey 5 2 (fun h => h != 6) = some v) ↔
          ∃ e ∈ threeLaneColumn, e.1.keyPrefix = 7 ∧ e.1.laneKey = laneKey ∧
            2 ≤ e.1.revBlueScore.blueScore ∧ e.1.revBlueScore.blueScore ≤ 5 ∧
            (fun h => h != 6) e.1.blockHash = true :=
  ⟨by decide, by decide,
    iterAllCanonical_lanes threeLaneColumn (by decide) 7 none 2 5 (fun h => h != 6) 7 (by decide)⟩

/-- In the window `[2, 5]`, with block 6 not canonical: lane 1 skips its version
above the window and the stale one at score 4 and yields score 2; lane 2
yields score 3; lane 3 is below the window. -/
example : iterAllCanonical threeLaneColumn 7 none 2 (some 5) (fun h => h != 6) 7 =
    some [(1, ⟨102, 2, 7⟩), (2, ⟨103, 3, 8⟩)] := by
  decide

end RustyKaspa.SmtStore
