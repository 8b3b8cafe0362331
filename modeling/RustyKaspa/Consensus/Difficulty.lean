import RustyKaspa.Math.CompactTarget

/-!
# The work of a block

`calc_work` and `level_work` (`consensus/src/processes/difficulty.rs` lines
211–231), the work GHOSTDAG adds up into the blue work of a block.
`BlueWorkType` is `Uint192`; a work is the number it denotes.

`calc_work` computes `2 ^ 256 / (T + 1)` for the target `T` the header bits
decode to, as `!T / (T + 1) + 1`, since `2 ^ 256` does not fit in a `Uint256`.

Results:
* `calcWork_spec`: the work is `2 ^ 256 / (T + 1)` for `T ≥ 2 ^ 64`; a smaller
  nonzero target panics, and the target `0` panics in a debug build and has the
  work `0` in a release build.
-/

namespace RustyKaspa.Consensus

open RustyKaspa.Math

/-- `calc_work` (lines 211–221) in a build of the given profile. The `Uint256`
operations are read on the numbers they denote: `!target` is `2 ^ 256 - 1 - T`;
`target + 1` and the final `+ 1` are `Add<u64>`, which `debug_assert!`s that no
carry leaves the top limb; the division is the quotient of `div_rem`, which
asserts a nonzero divisor; and `try_into` a `Uint192` fails, so that `expect`
panics, when the top limb is not zero. -/
def calcWork (profile : Profile) (bits : BitVec 32) : Option ℕ :=
  (fromCompactTargetBits profile bits).bind fun target =>
    let notTarget := 2 ^ 256 - 1 - target.val
    (checkedResult profile ((target.val + 1) % 2 ^ 256, decide (2 ^ 256 ≤ target.val + 1))).bind
      fun targetPlusOne =>
        if targetPlusOne = 0 then none
        else
          (checkedResult profile ((notTarget / targetPlusOne + 1) % 2 ^ 256,
            decide (2 ^ 256 ≤ notTarget / targetPlusOne + 1))).bind fun res =>
            if res < 2 ^ 192 then some res else none

/-! ## What `calc_work` computes -/

/-- What a build of either profile returns, a release build returns too. -/
theorem checkedResult_release {α : Type} {profile : Profile} {r : α × Bool} {x : α}
    (h : checkedResult profile r = some x) : checkedResult .release r = some x := by
  cases profile with
  | release => exact h
  | debug =>
    obtain ⟨v, flag⟩ := r
    cases flag
    · exact h
    · cases h

theorem fromCompactTargetBits_release {profile : Profile} {bits : BitVec 32} {T : Uint256}
    (h : fromCompactTargetBits profile bits = some T) : fromCompactTargetBits .release bits = some T := by
  unfold fromCompactTargetBits at h ⊢
  dsimp only at h ⊢
  -- the mantissa and the shift do not depend on the profile; only the shift's check does
  split_ifs at h ⊢ <;> first | exact h | exact checkedResult_release h

/-- A decoded target is never `2 ^ 256 - 1`: that number is odd, and an odd
target is an unshifted mantissa, below `2 ^ 24`. -/
theorem val_fromCompactTargetBits_lt {profile : Profile} {bits : BitVec 32} {T : Uint256}
    (h : fromCompactTargetBits profile bits = some T) : T.val + 1 < 2 ^ 256 := by
  have hrel : (fromCompactTargetBits .release bits).map Uint.val = some T.val := by
    rw [fromCompactTargetBits_release h, Option.map_some]
  have hmant : bits.toNat % 2 ^ 24 < 2 ^ 24 := Nat.mod_lt _ (by norm_num)
  by_cases he : bits.toNat / 2 ^ 24 ≤ 3
  · rw [fromCompactTargetBits_release_val_of_le bits he, Option.some_inj] at hrel
    have hdiv := Nat.div_le_self (bits.toNat % 2 ^ 24) (2 ^ (8 * (3 - bits.toNat / 2 ^ 24)))
    split_ifs at hrel <;> omega
  · rw [fromCompactTargetBits_release_val_of_gt bits (by omega), Option.some_inj] at hrel
    split_ifs at hrel with hneg
    · omega
    · set shift := 8 * (bits.toNat / 2 ^ 24 - 3) % 256
      by_cases hshift : shift = 0
      · rw [hshift, pow_zero, mul_one, Nat.mod_eq_of_lt (by omega)] at hrel
        omega
      · -- a shifted mantissa is even, and so is its remainder modulo `2 ^ 256`
        have heven : 2 ∣ bits.toNat % 2 ^ 24 * 2 ^ shift % 2 ^ 256 :=
          (Nat.dvd_mod_iff (dvd_pow_self 2 (by norm_num))).mpr
            (Dvd.dvd.mul_left (dvd_pow_self 2 hshift) _)
        rw [hrel] at heven
        have hlt := T.val_lt
        omega

/-- `!T / (T + 1) + 1` is `2 ^ 256 / (T + 1)`, since `!T + (T + 1) = 2 ^ 256`. -/
theorem not_div_add_one {T : ℕ} (hT : T < 2 ^ 256) : (2 ^ 256 - 1 - T) / (T + 1) + 1 = 2 ^ 256 / (T + 1) := by
  calc (2 ^ 256 - 1 - T) / (T + 1) + 1 = (2 ^ 256 - 1 - T + (T + 1)) / (T + 1) :=
        (Nat.add_div_right _ (Nat.succ_pos T)).symm
    _ = 2 ^ 256 / (T + 1) := by congr 1; omega

theorem div_lt_two_pow_192_iff {T : ℕ} : 2 ^ 256 / (T + 1) < 2 ^ 192 ↔ 2 ^ 64 ≤ T := by
  rw [Nat.div_lt_iff_lt_mul (Nat.succ_pos T), show (2 : ℕ) ^ 256 = 2 ^ 192 * 2 ^ 64 by norm_num,
    Nat.mul_lt_mul_left (by norm_num)]
  omega

/-- `calc_work` returns the work `2 ^ 256 / (T + 1)` of a target `T` of at
least `2 ^ 64`, and panics on the `expect` for a smaller nonzero target, whose
work does not fit in a `Uint192`. On the target `0`, `!0 / 1 + 1` overflows: a
debug build panics and a release build returns the work `0`. -/
theorem calcWork_spec {profile : Profile} {bits : BitVec 32} {T : Uint256}
    (hT : fromCompactTargetBits profile bits = some T) :
    calcWork profile bits =
      if T.val = 0 then (if profile = .release then some 0 else none)
      else if 2 ^ 64 ≤ T.val then some (2 ^ 256 / (T.val + 1)) else none := by
  have hlt := val_fromCompactTargetBits_lt hT
  unfold calcWork
  rw [hT, Option.bind_some, Nat.mod_eq_of_lt hlt, decide_eq_false (by omega), checkedResult_false,
    Option.bind_some, if_neg (by omega)]
  by_cases h0 : T.val = 0
  · -- `!0 / 1 + 1` is `2 ^ 256`: the add overflows
    simp only [h0, if_true, Nat.sub_zero, zero_add, Nat.div_one, Nat.sub_add_cancel Nat.one_le_two_pow,
      Nat.mod_self, le_refl, decide_true]
    cases profile <;> rfl
  · have hwork : 2 ^ 256 / (T.val + 1) < 2 ^ 256 := Nat.div_lt_self (by norm_num) (by omega)
    rw [not_div_add_one (by omega), Nat.mod_eq_of_lt hwork, decide_eq_false (by omega), checkedResult_false,
      Option.bind_some, if_neg h0]
    by_cases hbig : 2 ^ 64 ≤ T.val
    · rw [if_pos (div_lt_two_pow_192_iff.mpr hbig), if_pos hbig]
    · rw [if_neg (mt div_lt_two_pow_192_iff.mp hbig), if_neg hbig]

theorem fromCompactTargetBits_genesis_isSome : (fromCompactTargetBits .release 0x1d00ffff).isSome := by decide

/-- The bits `0x1d00ffff` decode to `0xffff * 2 ^ 208`. -/
theorem calcWork_spec_genesis :
    ∃ T, fromCompactTargetBits .release 0x1d00ffff = some T ∧
      calcWork .release 0x1d00ffff =
        if T.val = 0 then (if Profile.release = .release then some 0 else none)
        else if 2 ^ 64 ≤ T.val then some (2 ^ 256 / (T.val + 1)) else none :=
  ⟨_, (Option.some_get fromCompactTargetBits_genesis_isSome).symm,
    calcWork_spec (Option.some_get fromCompactTargetBits_genesis_isSome).symm⟩

/-- `MAX_WORK_LEVEL` (`consensus/core/src/lib.rs` line 47). -/
def MAX_WORK_LEVEL : ℕ := 128

/-- `level_work` (lines 223–231): `1 << min(level + 256 - max_block_level,
MAX_WORK_LEVEL)`, and `0` at level `0`. The shift stays below `192`, so the
`Uint192` shift does not overflow. -/
def levelWork (level maxBlockLevel : ℕ) : ℕ :=
  if level = 0 then 0
  else 2 ^ min (level + 256 - maxBlockLevel) MAX_WORK_LEVEL

end RustyKaspa.Consensus
