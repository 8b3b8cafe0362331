import RustyKaspa.Math.Uint

/-!
# Compact target bits

Model of `Uint256::from_compact_target_bits` (`math/src/lib.rs` lines 62–76),
the decoder of the floating-point "compact" encoding of a proof-of-work target:
an exponent byte `e = bits >> 24` and a 24-bit mantissa `m = bits & 0xFFFFFF`,
denoting `m * 256 ^ (e - 3)`. `State::new` (`consensus/pow/src/lib.rs` lines
27–37) decodes the `bits` of every header, as a peer sent them, before any
difficulty check.

Results:
* `fromCompactTargetBits_release_val_of_le`, `fromCompactTargetBits_release_val_of_gt`:
  in a release build the target is `m / 256 ^ (3 - e)` for `e ≤ 3`, and
  `m * 2 ^ (8 * (e - 3) mod 256) mod 2 ^ 256` above, or `0` when the shifted
  mantissa is above `0x7FFFFF`.
* `fromCompactTargetBits_debug_eq_none_iff`: a debug build panics exactly on the
  bits with `e ≥ 35` and `m ≤ 0x7FFFFF`, at the `debug_assert!` of the shift.

**Defect.** The shift `8 * (e - 3)` reaches `256` from `e = 35` on, and `Shl`
flags such a shift and then shifts by its remainder modulo `256`. A debug build
panics on these bits, also when the mantissa is `0` and the target is `0`; a
release build wraps around, so that `0x23000001` decodes to `1` while
`0x22000001` decodes to `2 ^ 248` (`fromCompactTargetBits_panics_and_wraps`).
-/

namespace RustyKaspa.Math

/-- `Uint256::from_compact_target_bits` (lines 62–76) in a build of the given
profile; `none` is the panic of the `debug_assert!` in `Shl`. -/
def fromCompactTargetBits (profile : Profile) (bits : BitVec 32) : Option Uint256 :=
  let unshiftedExpt := (bits >>> 24).toNat
  let mant : BitVec 32 :=
    if unshiftedExpt ≤ 3 then (bits &&& 0xFFFFFF) >>> (8 * (3 - unshiftedExpt))
    else bits &&& 0xFFFFFF
  let expt : ℕ := if unshiftedExpt ≤ 3 then 0 else 8 * ((bits >>> 24).toNat - 3)
  -- the mantissa is signed but may not be negative
  if mant > 0x7FFFFF then some Uint.ZERO
  else (Uint.fromU64 (mant.setWidth 64)).shl profile expt

section Fields

variable (bits : BitVec 32)

/-- The exponent byte. -/
theorem toNat_exponent : (bits >>> 24).toNat = bits.toNat / 2 ^ 24 := by
  rw [BitVec.toNat_ushiftRight, Nat.shiftRight_eq_div_pow]

/-- The 24 mantissa bits. -/
theorem toNat_mantissa : (bits &&& 0xFFFFFF).toNat = bits.toNat % 2 ^ 24 := by
  rw [BitVec.toNat_and, show (0xFFFFFF : BitVec 32).toNat = 2 ^ 24 - 1 from rfl,
    Nat.and_two_pow_sub_one_eq_mod]

theorem exponent_lt : bits.toNat / 2 ^ 24 < 256 := by
  have := bits.isLt
  omega

end Fields

theorem lt_mantissa_iff {mant : BitVec 32} : mant > 0x7FFFFF ↔ 0x7FFFFF < mant.toNat := by
  rw [gt_iff_lt, BitVec.lt_def]
  rfl

/-- A debug build panics exactly on the bits whose exponent byte is at least
`35` and whose mantissa is not negative: their shift `8 * (e - 3)` is at least
`256`. -/
theorem fromCompactTargetBits_debug_eq_none_iff (bits : BitVec 32) :
    fromCompactTargetBits .debug bits = none ↔
      35 ≤ bits.toNat / 2 ^ 24 ∧ bits.toNat % 2 ^ 24 ≤ 0x7FFFFF := by
  unfold fromCompactTargetBits
  simp only [toNat_exponent]
  by_cases he : bits.toNat / 2 ^ 24 ≤ 3
  · -- no shift, so no panic
    simp only [he, if_true]
    split_ifs
    · simp only [false_iff, not_and, not_le]
      omega
    · rw [Uint.shl, checkedResult_eq_none_iff, (Uint.overflowingShl_spec _ _).2, BITS]
      simp only [true_and]
      omega
  · simp only [he, if_false]
    split_ifs with hm
    · rw [lt_mantissa_iff, toNat_mantissa] at hm
      simp only [false_iff, not_and, not_le]
      omega
    · rw [lt_mantissa_iff, toNat_mantissa] at hm
      rw [Uint.shl, checkedResult_eq_none_iff, (Uint.overflowingShl_spec _ _).2, BITS]
      simp only [true_and]
      omega

/-- Above exponent `3`, a release build decodes `m * 256 ^ (e - 3)` with the
shift taken modulo `256` and the product modulo `2 ^ 256`. -/
theorem fromCompactTargetBits_release_val_of_gt (bits : BitVec 32) (he : 3 < bits.toNat / 2 ^ 24) :
    (fromCompactTargetBits .release bits).map Uint.val =
      some (if 0x7FFFFF < bits.toNat % 2 ^ 24 then 0
        else bits.toNat % 2 ^ 24 * 2 ^ (8 * (bits.toNat / 2 ^ 24 - 3) % 256) % 2 ^ 256) := by
  unfold fromCompactTargetBits
  simp only [toNat_exponent, show ¬bits.toNat / 2 ^ 24 ≤ 3 by omega, if_false, lt_mantissa_iff,
    toNat_mantissa]
  split_ifs
  · simp
  · simp only [Uint.shl, checkedResult, Option.map_some]
    rw [(Uint.overflowingShl_spec _ _).1, Uint.val_fromU64 (by norm_num), BitVec.toNat_setWidth,
      Nat.mod_eq_of_lt (lt_trans (BitVec.isLt _) (by norm_num)), toNat_mantissa]
    rfl

/-- Up to exponent `3`, the mantissa is shifted right by `8 * (3 - e)` bits and
not shifted after. -/
theorem fromCompactTargetBits_release_val_of_le (bits : BitVec 32) (he : bits.toNat / 2 ^ 24 ≤ 3) :
    (fromCompactTargetBits .release bits).map Uint.val =
      some (if 0x7FFFFF < bits.toNat % 2 ^ 24 / 2 ^ (8 * (3 - bits.toNat / 2 ^ 24)) then 0
        else bits.toNat % 2 ^ 24 / 2 ^ (8 * (3 - bits.toNat / 2 ^ 24))) := by
  have hmant : ((bits &&& 0xFFFFFF) >>> (8 * (3 - bits.toNat / 2 ^ 24))).toNat =
      bits.toNat % 2 ^ 24 / 2 ^ (8 * (3 - bits.toNat / 2 ^ 24)) := by
    rw [BitVec.toNat_ushiftRight, Nat.shiftRight_eq_div_pow, toNat_mantissa]
  unfold fromCompactTargetBits
  simp only [toNat_exponent, he, if_true, lt_mantissa_iff, hmant]
  split_ifs
  · simp
  · simp only [Uint.shl, checkedResult, Option.map_some]
    have hlt : bits.toNat % 2 ^ 24 / 2 ^ (8 * (3 - bits.toNat / 2 ^ 24)) < 2 ^ 256 :=
      lt_of_le_of_lt (Nat.div_le_self _ _) (lt_trans (Nat.mod_lt _ (by norm_num)) (by norm_num))
    rw [(Uint.overflowingShl_spec _ _).1, Uint.val_fromU64 (by norm_num), BitVec.toNat_setWidth,
      Nat.mod_eq_of_lt (lt_trans (BitVec.isLt _) (by norm_num)), hmant, Nat.zero_mod, pow_zero,
      mul_one, show 64 * 4 = 256 from rfl, Nat.mod_eq_of_lt hlt]

/-- A peer's bits with exponent byte `35` make a debug build panic, also with a
zero mantissa, and a release build wrap: a larger exponent byte gives the
smaller target `1` against `2 ^ 248`. -/
theorem fromCompactTargetBits_panics_and_wraps :
    fromCompactTargetBits .debug 0x23000000 = none ∧
      (fromCompactTargetBits .release 0x23000001).map Uint.val = some 1 ∧
      (fromCompactTargetBits .release 0x22000001).map Uint.val = some (2 ^ 248) := by
  refine ⟨(fromCompactTargetBits_debug_eq_none_iff _).mpr (by decide), ?_, ?_⟩
  · rw [fromCompactTargetBits_release_val_of_gt _ (by decide)]
    decide
  · rw [fromCompactTargetBits_release_val_of_gt _ (by decide)]
    decide

end RustyKaspa.Math
