import RustyKaspa.Hashes
import RustyKaspa.Lib.BigEndian
import Mathlib.Data.Prod.Lex

/-!
# Lane-version keys

Model of `LaneVersionKey` (`consensus/smt-store/src/keys.rs` lines 48–71) and
`ReverseBlueScore` (`consensus/smt-store/src/reverse_blue_score.rs`): the
73-byte key `prefix(1) | lane_key(32) | rev_blue_score(8) | block_hash(32)`
under which the versions of a lane are stored, the blue score written as
`u64::MAX - blue_score` big-endian so that the newest version of a lane sorts
first.

The store compares keys as byte strings. `lt_iff_asBytes_lt` shows that this is
the lexicographic order of the four fields read as numbers, the order the model
of the store uses; `blueScore_le_iff` says what the reversed score means for
that order, and `nextLaneSeekKey_eq` that the byte increment with carry of
`next_lane_seek_key` seeks the successor lane.
-/

namespace RustyKaspa.SmtStore

open BigEndian

/-- `Hash::as_bytes`: the 32 bytes, most significant first. -/
def Hash.asBytes (h : Hash) : List ℕ :=
  beBytes 32 h.toNat

/-- `Hash::from_bytes`. -/
def Hash.fromBytes (bytes : List ℕ) : Hash :=
  BitVec.ofNat 256 (ofBytes bytes)

theorem hash_toNat_lt (h : Hash) : h.toNat < 256 ^ 32 := by
  have h32 : (256 : ℕ) ^ 32 = 2 ^ 256 := by norm_num
  rw [h32]
  exact h.isLt

theorem u64_toNat_lt (x : BitVec 64) : x.toNat < 256 ^ 8 := by
  have h8 : (256 : ℕ) ^ 8 = 2 ^ 64 := by norm_num
  rw [h8]
  exact x.isLt

theorem Hash.fromBytes_beBytes (x : ℕ) : Hash.fromBytes (beBytes 32 x) = BitVec.ofNat 256 x := by
  have h32 : (256 : ℕ) ^ 32 = 2 ^ 256 := by norm_num
  rw [Hash.fromBytes, ofBytes_beBytes, h32]
  apply BitVec.eq_of_toNat_eq
  simp

/-- `ReverseBlueScore`: `u64::MAX - blue_score`, stored big-endian. -/
structure ReverseBlueScore where
  val : BitVec 64
  deriving DecidableEq, Repr

namespace ReverseBlueScore

/-- `ReverseBlueScore::new` (`reverse_blue_score.rs` lines 21–24). -/
def new (blueScore : BitVec 64) : ReverseBlueScore :=
  ⟨BitVec.allOnes 64 - blueScore⟩

/-- `ReverseBlueScore::blue_score` (lines 26–29). -/
def blueScore (r : ReverseBlueScore) : BitVec 64 :=
  BitVec.allOnes 64 - r.val

/-- `u64::MAX - x` does not wrap. -/
theorem toNat_allOnes_sub (x : BitVec 64) : (BitVec.allOnes 64 - x).toNat = 2 ^ 64 - 1 - x.toNat := by
  have hx := x.isLt
  rw [BitVec.toNat_sub, BitVec.toNat_allOnes]
  have hsum : 2 ^ 64 - x.toNat + (2 ^ 64 - 1) = (2 ^ 64 - 1 - x.toNat) + 2 ^ 64 := by omega
  rw [hsum, Nat.add_mod_right, Nat.mod_eq_of_lt (by omega)]

theorem toNat_val_new (blueScore : BitVec 64) :
    (new blueScore).val.toNat = 2 ^ 64 - 1 - blueScore.toNat :=
  toNat_allOnes_sub blueScore

theorem toNat_blueScore (r : ReverseBlueScore) : r.blueScore.toNat = 2 ^ 64 - 1 - r.val.toNat :=
  toNat_allOnes_sub r.val

@[simp] theorem blueScore_new (blueScore : BitVec 64) : (new blueScore).blueScore = blueScore := by
  apply BitVec.eq_of_toNat_eq
  have h := blueScore.isLt
  rw [toNat_blueScore, toNat_val_new]
  omega

/-- A stored score is at most `s` exactly when its reversed bytes are at least
those of `s`: the versions of a lane at or below a score are the keys from
that score's seek key on. -/
theorem blueScore_le_iff (r : ReverseBlueScore) (s : BitVec 64) :
    r.blueScore ≤ s ↔ (new s).val.toNat ≤ r.val.toNat := by
  have hr := r.val.isLt
  have hs := s.isLt
  rw [BitVec.le_def, toNat_blueScore, toNat_val_new]
  omega

theorem le_blueScore_iff (r : ReverseBlueScore) (s : BitVec 64) :
    s ≤ r.blueScore ↔ r.val.toNat ≤ (new s).val.toNat := by
  have hr := r.val.isLt
  have hs := s.isLt
  rw [BitVec.le_def, toNat_blueScore, toNat_val_new]
  omega

theorem blueScore_lt_iff (r : ReverseBlueScore) (s : BitVec 64) :
    r.blueScore < s ↔ (new s).val.toNat < r.val.toNat := by
  rw [← BitVec.not_le, le_blueScore_iff, not_le]

theorem lt_blueScore_iff (r : ReverseBlueScore) (s : BitVec 64) :
    s < r.blueScore ↔ r.val.toNat < (new s).val.toNat := by
  rw [← BitVec.not_le, blueScore_le_iff, not_le]

end ReverseBlueScore

/-- `LaneVersionKey` (`keys.rs` lines 48–58); the source's `prefix` field is
`keyPrefix`. -/
structure LaneVersionKey where
  keyPrefix : BitVec 8
  laneKey : Hash
  revBlueScore : ReverseBlueScore
  blockHash : Hash
  deriving DecidableEq, Repr

namespace LaneVersionKey

/-- `LaneVersionKey::new` (lines 61–63). -/
def new (keyPrefix : BitVec 8) (laneKey : Hash) (blueScore : BitVec 64) (blockHash : Hash) :
    LaneVersionKey :=
  ⟨keyPrefix, laneKey, ReverseBlueScore.new blueScore, blockHash⟩

/-- `LaneVersionKey::seek_key` (lines 65–67): the smallest key of the lane at
`target_blue_score`. -/
def seekKey (keyPrefix : BitVec 8) (laneKey : Hash) (targetBlueScore : BitVec 64) :
    LaneVersionKey :=
  ⟨keyPrefix, laneKey, ReverseBlueScore.new targetBlueScore, 0⟩

/-- The key's bytes, the `repr(C)` layout of its four fields. -/
def asBytes (k : LaneVersionKey) : List ℕ :=
  [k.keyPrefix.toNat] ++ beBytes 32 k.laneKey.toNat ++ beBytes 8 k.revBlueScore.val.toNat ++
    beBytes 32 k.blockHash.toNat

/-- The four fields as numbers, in the order of the layout. -/
def fields (k : LaneVersionKey) : ℕ ×ₗ ℕ ×ₗ ℕ ×ₗ ℕ :=
  toLex (k.keyPrefix.toNat, toLex (k.laneKey.toNat, toLex (k.revBlueScore.val.toNat, k.blockHash.toNat)))

theorem fields_injective : Function.Injective fields := by
  intro a b h
  simp only [fields, toLex_inj, Prod.mk.injEq] at h
  obtain ⟨hp, hl, hr, hb⟩ := h
  rcases a with ⟨_, _, ⟨_⟩, _⟩
  rcases b with ⟨_, _, ⟨_⟩, _⟩
  simp_all [BitVec.toNat_inj]

instance : LinearOrder LaneVersionKey :=
  LinearOrder.lift' fields fields_injective

theorem lt_def (a b : LaneVersionKey) : a < b ↔ fields a < fields b :=
  Iff.rfl

theorem le_def (a b : LaneVersionKey) : a ≤ b ↔ fields a ≤ fields b :=
  Iff.rfl

/-- The order on keys, field by field as numbers. -/
theorem le_iff_toNat (a b : LaneVersionKey) : a ≤ b ↔
    a.keyPrefix.toNat < b.keyPrefix.toNat ∨ a.keyPrefix.toNat = b.keyPrefix.toNat ∧
      (a.laneKey.toNat < b.laneKey.toNat ∨ a.laneKey.toNat = b.laneKey.toNat ∧
        (a.revBlueScore.val.toNat < b.revBlueScore.val.toNat ∨
          a.revBlueScore.val.toNat = b.revBlueScore.val.toNat ∧
            a.blockHash.toNat ≤ b.blockHash.toNat)) := by
  simp only [le_def, fields, Prod.Lex.toLex_le_toLex]

theorem lt_iff_toNat (a b : LaneVersionKey) : a < b ↔
    a.keyPrefix.toNat < b.keyPrefix.toNat ∨ a.keyPrefix.toNat = b.keyPrefix.toNat ∧
      (a.laneKey.toNat < b.laneKey.toNat ∨ a.laneKey.toNat = b.laneKey.toNat ∧
        (a.revBlueScore.val.toNat < b.revBlueScore.val.toNat ∨
          a.revBlueScore.val.toNat = b.revBlueScore.val.toNat ∧
            a.blockHash.toNat < b.blockHash.toNat)) := by
  simp only [lt_def, fields, Prod.Lex.toLex_lt_toLex]

@[simp] theorem seekKey_keyPrefix (keyPrefix : BitVec 8) (laneKey : Hash) (t : BitVec 64) :
    (seekKey keyPrefix laneKey t).keyPrefix = keyPrefix :=
  rfl

@[simp] theorem seekKey_laneKey (keyPrefix : BitVec 8) (laneKey : Hash) (t : BitVec 64) :
    (seekKey keyPrefix laneKey t).laneKey = laneKey :=
  rfl

@[simp] theorem seekKey_revBlueScore (keyPrefix : BitVec 8) (laneKey : Hash) (t : BitVec 64) :
    (seekKey keyPrefix laneKey t).revBlueScore = ReverseBlueScore.new t :=
  rfl

@[simp] theorem seekKey_blockHash (keyPrefix : BitVec 8) (laneKey : Hash) (t : BitVec 64) :
    (seekKey keyPrefix laneKey t).blockHash = 0 :=
  rfl

/-- An entry of the lane at or after the lane's seek key of `t` has a score of
at most `t`. -/
theorem blueScore_le_of_seekKey_le {keyPrefix : BitVec 8} {laneKey : Hash} {t : BitVec 64}
    {k : LaneVersionKey} (h : seekKey keyPrefix laneKey t ≤ k) (hp : k.keyPrefix = keyPrefix)
    (hL : k.laneKey = laneKey) : k.revBlueScore.blueScore ≤ t := by
  have h' := (le_iff_toNat _ _).mp h
  have hp' := congrArg BitVec.toNat hp
  have hL' := congrArg BitVec.toNat hL
  simp only [seekKey_keyPrefix, seekKey_laneKey, seekKey_revBlueScore] at h'
  rw [ReverseBlueScore.blueScore_le_iff]
  omega

/-- The order of the model is the byte order of the store. -/
theorem lt_iff_asBytes_lt (a b : LaneVersionKey) : a < b ↔ a.asBytes < b.asBytes := by
  have hbe32 : ∀ x y : Hash, beBytes 32 x.toNat = beBytes 32 y.toNat ↔ x.toNat = y.toNat :=
    fun x y => ⟨beBytes_injective (hash_toNat_lt x) (hash_toNat_lt y), fun h => h ▸ rfl⟩
  have hbe8 : ∀ x y : BitVec 64, beBytes 8 x.toNat = beBytes 8 y.toNat ↔ x.toNat = y.toNat :=
    fun x y => ⟨beBytes_injective (u64_toNat_lt x) (u64_toNat_lt y), fun h => h ▸ rfl⟩
  -- field by field: the first difference decides
  simp only [asBytes, List.append_assoc]
  rw [append_lt_append_iff (a := [a.keyPrefix.toNat]) (b := [b.keyPrefix.toNat]) rfl,
    append_lt_append_iff (by simp), append_lt_append_iff (by simp),
    singleton_lt_singleton_iff, List.singleton_inj, hbe32, hbe8,
    beBytes_lt_beBytes_iff (hash_toNat_lt _) (hash_toNat_lt _),
    beBytes_lt_beBytes_iff (u64_toNat_lt _) (u64_toNat_lt _),
    beBytes_lt_beBytes_iff (hash_toNat_lt _) (hash_toNat_lt _), lt_def]
  simp only [fields, Prod.Lex.toLex_lt_toLex]

end LaneVersionKey

/-- The next lane key, below the last one. -/
theorem toNat_add_one {laneKey : Hash} (h : laneKey.toNat + 1 < 2 ^ 256) :
    (laneKey + 1).toNat = laneKey.toNat + 1 := by
  have h1 : (1 : Hash).toNat = 1 := rfl
  rw [BitVec.toNat_add, h1, Nat.mod_eq_of_lt h]

/-- `next_lane_seek_key` (`lane_version_store.rs` lines 380–393): the bytes of
`lane_key` incremented from the last one with a carry; `None` when every
byte is `0xFF`. -/
def nextLaneSeekKey (keyPrefix : BitVec 8) (laneKey : Hash) (targetBlueScore : BitVec 64) :
    Option LaneVersionKey :=
  (incrementRev (Hash.asBytes laneKey).reverse).map fun next =>
    LaneVersionKey.seekKey keyPrefix (Hash.fromBytes next.reverse) targetBlueScore

/-- The increment seeks the next lane key, and there is none after the last one. -/
theorem nextLaneSeekKey_eq (keyPrefix : BitVec 8) (laneKey : Hash) (targetBlueScore : BitVec 64) :
    nextLaneSeekKey keyPrefix laneKey targetBlueScore =
      if laneKey.toNat + 1 < 2 ^ 256 then
        some (LaneVersionKey.seekKey keyPrefix (laneKey + 1) targetBlueScore)
      else none := by
  have h32 : (256 : ℕ) ^ 32 = 2 ^ 256 := by norm_num
  rw [nextLaneSeekKey, Hash.asBytes, beBytes, List.reverse_reverse,
    incrementRev_leBytes (hash_toNat_lt laneKey), h32]
  split_ifs with h
  · -- the incremented bytes are those of the next lane key
    have hnext : BitVec.ofNat 256 (laneKey.toNat + 1) = laneKey + 1 := by
      apply BitVec.eq_of_toNat_eq
      simp [BitVec.toNat_add]
    rw [Option.map_some, ← beBytes, Hash.fromBytes_beBytes, hnext]
  · rfl

end RustyKaspa.SmtStore
