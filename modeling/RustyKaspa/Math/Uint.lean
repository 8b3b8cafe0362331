import RustyKaspa.Lib.Limbs
import Mathlib.Tactic.LinearCombination
import Mathlib.Data.List.GetD

/-!
# Multi-word unsigned integers

Model of the types `construct_uint!` generates (`math/src/uint.rs`): a value is
`[u64; LIMBS]`, least significant limb first (`Uint LIMBS`), and denotes
`Limbs.value` of its limbs. The carry loops of `overflowing_add`,
`overflowing_add_u64`, `overflowing_sub`, `carrying_mul_u64` and
`overflowing_mul` (lines 109–209) are modelled limb by limb, with the `u128`
intermediate values of the multiplications as natural numbers (they stay below
`2 ^ 128`).

Results:
* `overflowingAdd_spec`, `overflowingAddU64_spec`, `overflowingSub_spec`,
  `carryingMulU64_spec`: each returns the natural-number result modulo
  `2 ^ (64 * LIMBS)` and the carry, borrow or high word it has.
* `overflowingMul_val`: `overflowing_mul` returns the product modulo
  `2 ^ (64 * LIMBS)`; `overflowingMul_flag_sound`: its flag is set only when the
  product overflows.

**Defect.** `overflowing_mul` forms only the partial products
`self[i] * other[j]` with `i + j < LIMBS` and sets its flag from the carries out
of those rows. An overflow that comes only from a pair with `i + j ≥ LIMBS` is
not flagged: for `Uint256`, `2 ^ 64 * 2 ^ 192 = 2 ^ 256` returns `(0, false)`
(`overflowingMul_misses_overflow`), so the debug assertion of `Mul` does not
fire either.
-/

namespace RustyKaspa.Math

open Limbs

/-! ## Word operations -/

/-- `u64::overflowing_add`: the wrapped sum and whether it wrapped. -/
def u64OverflowingAdd (x y : BitVec 64) : BitVec 64 × Bool :=
  (x + y, decide (2 ^ 64 ≤ x.toNat + y.toNat))

/-- `u64::overflowing_sub`: the wrapped difference and whether it wrapped. -/
def u64OverflowingSub (x y : BitVec 64) : BitVec 64 × Bool :=
  (x - y, decide (x.toNat < y.toNat))

/-- `carrying_add_u64` (lines 115–119). -/
def carryingAddU64 (lhs rhs : BitVec 64) (carry : Bool) : BitVec 64 × Bool :=
  let ab := u64OverflowingAdd lhs rhs
  let cd := u64OverflowingAdd ab.1 (BitVec.ofNat 64 carry.toNat)
  (cd.1, ab.2 != cd.2)

/-- `borrowing_sub_u64` (lines 148–152). -/
def borrowingSubU64 (lhs rhs : BitVec 64) (borrow : Bool) : BitVec 64 × Bool :=
  let ab := u64OverflowingSub lhs rhs
  let cd := u64OverflowingSub ab.1 (BitVec.ofNat 64 borrow.toNat)
  (cd.1, ab.2 != cd.2)

@[simp] theorem toNat_ofNat_toNat (c : Bool) : (BitVec.ofNat 64 c.toNat).toNat = c.toNat := by
  cases c <;> rfl

theorem u64OverflowingAdd_value (x y : BitVec 64) :
    (u64OverflowingAdd x y).1.toNat + 2 ^ 64 * (u64OverflowingAdd x y).2.toNat =
      x.toNat + y.toNat := by
  have hx := x.isLt
  have hy := y.isLt
  by_cases h : 2 ^ 64 ≤ x.toNat + y.toNat
  · simp only [u64OverflowingAdd, BitVec.toNat_add, h, decide_true, Bool.toNat_true]
    omega
  · simp only [u64OverflowingAdd, BitVec.toNat_add, h, decide_false, Bool.toNat_false]
    omega

theorem u64OverflowingSub_value (x y : BitVec 64) :
    (u64OverflowingSub x y).1.toNat + y.toNat =
      x.toNat + 2 ^ 64 * (u64OverflowingSub x y).2.toNat := by
  have hx := x.isLt
  have hy := y.isLt
  by_cases h : x.toNat < y.toNat
  · simp only [u64OverflowingSub, BitVec.toNat_sub, h, decide_true, Bool.toNat_true]
    omega
  · simp only [u64OverflowingSub, BitVec.toNat_sub, h, decide_false, Bool.toNat_false]
    omega

theorem carryingAddU64_value (lhs rhs : BitVec 64) (carry : Bool) :
    (carryingAddU64 lhs rhs carry).1.toNat + 2 ^ 64 * (carryingAddU64 lhs rhs carry).2.toNat =
      lhs.toNat + rhs.toNat + carry.toNat := by
  rcases hA : u64OverflowingAdd lhs rhs with ⟨a, b⟩
  rcases hC : u64OverflowingAdd a (BitVec.ofNat 64 carry.toNat) with ⟨c, d⟩
  have hAv := u64OverflowingAdd_value lhs rhs
  have hCv := u64OverflowingAdd_value a (BitVec.ofNat 64 carry.toNat)
  rw [hA] at hAv
  rw [hC, toNat_ofNat_toNat] at hCv
  have hl := lhs.isLt
  have hr := rhs.isLt
  have hcarry := Bool.toNat_le carry
  simp only [carryingAddU64, hA, hC]
  -- both additions cannot wrap: after the first wraps, its sum is at most `2 ^ 64 - 2`
  cases b <;> cases d <;> simp only [Bool.toNat_true, Bool.toNat_false] at hAv hCv <;>
    simp only [bne_self_eq_false, Bool.true_bne, Bool.bne_true, Bool.not_false,
      Bool.toNat_true, Bool.toNat_false] <;> omega

theorem borrowingSubU64_value (lhs rhs : BitVec 64) (borrow : Bool) :
    (borrowingSubU64 lhs rhs borrow).1.toNat + rhs.toNat + borrow.toNat =
      lhs.toNat + 2 ^ 64 * (borrowingSubU64 lhs rhs borrow).2.toNat := by
  rcases hA : u64OverflowingSub lhs rhs with ⟨a, b⟩
  rcases hC : u64OverflowingSub a (BitVec.ofNat 64 borrow.toNat) with ⟨c, d⟩
  have hAv := u64OverflowingSub_value lhs rhs
  have hCv := u64OverflowingSub_value a (BitVec.ofNat 64 borrow.toNat)
  rw [hA] at hAv
  rw [hC, toNat_ofNat_toNat] at hCv
  have hl := lhs.isLt
  have hr := rhs.isLt
  have ha := a.isLt
  have hc := c.isLt
  have hborrow := Bool.toNat_le borrow
  simp only [borrowingSubU64, hA, hC]
  -- both subtractions cannot wrap: after the first wraps, its difference is at least `1`
  cases b <;> cases d <;> simp only [Bool.toNat_true, Bool.toNat_false] at hAv hCv <;>
    simp only [bne_self_eq_false, Bool.true_bne, Bool.bne_true, Bool.not_false,
      Bool.toNat_true, Bool.toNat_false] <;> omega

/-! ## The carry loops over the limbs -/

/-- The loop of `overflowing_add` (lines 120–126) from some limb on, given the
carry into it. -/
def addLoop : List (BitVec 64) → List (BitVec 64) → Bool → List (BitVec 64) × Bool
  | x :: xs, y :: ys, carry =>
    let s := carryingAddU64 x y carry
    let rest := addLoop xs ys s.2
    (s.1 :: rest.1, rest.2)
  | _, _, carry => ([], carry)

/-- The loop of `overflowing_sub` (lines 154–160) from some limb on, given the
borrow into it. -/
def subLoop : List (BitVec 64) → List (BitVec 64) → Bool → List (BitVec 64) × Bool
  | x :: xs, y :: ys, borrow =>
    let s := borrowingSubU64 x y borrow
    let rest := subLoop xs ys s.2
    (s.1 :: rest.1, rest.2)
  | _, _, borrow => ([], borrow)

/-- The loop of `overflowing_add_u64` (lines 133–139) over the limbs above the
first: it adds the carry and `break`s at the first limb it reaches without one. -/
def addCarryLoop : List (BitVec 64) → Bool → List (BitVec 64) × Bool
  | [], carry => ([], carry)
  | x :: xs, carry =>
    if !carry then (x :: xs, false)
    else
      let s := u64OverflowingAdd x 1
      let rest := addCarryLoop xs s.2
      (s.1 :: rest.1, rest.2)

/-- The loop of `carrying_mul_u64` (lines 187–194) from some limb on, with the
`u128` carry `(n >> 64) & u64::MAX` as a natural number. -/
def mulU64Loop (other : BitVec 64) : List (BitVec 64) → ℕ → List (BitVec 64) × ℕ
  | [], carry => ([], carry)
  | x :: xs, carry =>
    let n := carry + other.toNat * x.toNat
    let rest := mulU64Loop other xs (n / 2 ^ 64 % 2 ^ 64)
    (BitVec.ofNat 64 n :: rest.1, rest.2)

section Loops

variable (xs ys : List (BitVec 64))

theorem length_addLoop (c : Bool) : (addLoop xs ys c).1.length = min xs.length ys.length := by
  induction xs generalizing ys c with
  | nil => simp [addLoop]
  | cons x xs ih =>
    cases ys with
    | nil => simp [addLoop]
    | cons y ys => simp [addLoop, ih, Nat.succ_min_succ]

theorem length_subLoop (c : Bool) : (subLoop xs ys c).1.length = min xs.length ys.length := by
  induction xs generalizing ys c with
  | nil => simp [subLoop]
  | cons x xs ih =>
    cases ys with
    | nil => simp [subLoop]
    | cons y ys => simp [subLoop, ih, Nat.succ_min_succ]

theorem length_addCarryLoop (c : Bool) : (addCarryLoop xs c).1.length = xs.length := by
  induction xs generalizing c with
  | nil => rfl
  | cons x xs ih => cases c <;> simp [addCarryLoop, ih]

theorem length_mulU64Loop (other : BitVec 64) (c : ℕ) :
    (mulU64Loop other xs c).1.length = xs.length := by
  induction xs generalizing c with
  | nil => rfl
  | cons x xs ih => simp [mulU64Loop, ih]

/-- What the addition loop writes, with its last carry, is the sum of the
limbs it reads and the carry in. -/
theorem addLoop_value (h : xs.length = ys.length) (c : Bool) :
    value (addLoop xs ys c).1 + 2 ^ (64 * xs.length) * (addLoop xs ys c).2.toNat =
      value xs + value ys + c.toNat := by
  induction xs generalizing ys c with
  | nil =>
    rw [List.length_nil, eq_comm, List.length_eq_zero_iff] at h
    subst h
    simp [addLoop]
  | cons x xs ih =>
    obtain _ | ⟨y, ys⟩ := ys
    · simp at h
    · have hstep := carryingAddU64_value x y c
      have hrest := ih ys (by simpa using h) (carryingAddU64 x y c).2
      simp only [addLoop, value_cons, List.length_cons]
      rw [Nat.mul_succ, pow_add]
      zify at hstep hrest ⊢
      linear_combination hstep + 2 ^ 64 * hrest

/-- What the subtraction loop writes, with the limbs it subtracts and the
borrow in, is the limbs it reads plus its last borrow. -/
theorem subLoop_value (h : xs.length = ys.length) (c : Bool) :
    value (subLoop xs ys c).1 + value ys + c.toNat =
      value xs + 2 ^ (64 * xs.length) * (subLoop xs ys c).2.toNat := by
  induction xs generalizing ys c with
  | nil =>
    rw [List.length_nil, eq_comm, List.length_eq_zero_iff] at h
    subst h
    simp [subLoop]
  | cons x xs ih =>
    obtain _ | ⟨y, ys⟩ := ys
    · simp at h
    · have hstep := borrowingSubU64_value x y c
      have hrest := ih ys (by simpa using h) (borrowingSubU64 x y c).2
      simp only [subLoop, value_cons, List.length_cons]
      rw [Nat.mul_succ, pow_add]
      zify at hstep hrest ⊢
      linear_combination hstep + 2 ^ 64 * hrest

theorem addCarryLoop_value (c : Bool) :
    value (addCarryLoop xs c).1 + 2 ^ (64 * xs.length) * (addCarryLoop xs c).2.toNat =
      value xs + c.toNat := by
  induction xs generalizing c with
  | nil => simp [addCarryLoop]
  | cons x xs ih =>
    cases c with
    | false => simp [addCarryLoop]
    | true =>
      have hstep := u64OverflowingAdd_value x 1
      have hrest := ih (u64OverflowingAdd x 1).2
      have h1 : (1 : BitVec 64).toNat = 1 := rfl
      rw [h1] at hstep
      simp only [addCarryLoop, Bool.not_true, Bool.false_eq_true, if_false, value_cons,
        List.length_cons, Bool.toNat_true]
      rw [Nat.mul_succ, pow_add]
      zify at hstep hrest ⊢
      linear_combination hstep + 2 ^ 64 * hrest

/-- The `u128` carry of `carrying_mul_u64` stays below `2 ^ 64`, so the sum it
forms stays below `2 ^ 128`, and what the loop writes with its last carry is the
product of the limbs by `other` plus the carry in. -/
theorem mulU64Loop_value (other : BitVec 64) (c : ℕ) (hc : c < 2 ^ 64) :
    value (mulU64Loop other xs c).1 + 2 ^ (64 * xs.length) * (mulU64Loop other xs c).2 =
      other.toNat * value xs + c ∧ (mulU64Loop other xs c).2 < 2 ^ 64 := by
  induction xs generalizing c with
  | nil => exact ⟨by simp [mulU64Loop], hc⟩
  | cons x xs ih =>
    have ho := other.isLt
    have hx := x.isLt
    -- the `u128` sum of one step fits: `c + other * x < 2 ^ 128`
    have hprod : other.toNat * x.toNat ≤ (2 ^ 64 - 1) * (2 ^ 64 - 1) :=
      Nat.mul_le_mul (by omega) (by omega)
    have hn : (c + other.toNat * x.toNat) / 2 ^ 64 < 2 ^ 64 := by omega
    obtain ⟨hrest, hlt⟩ := ih ((c + other.toNat * x.toNat) / 2 ^ 64 % 2 ^ 64)
      (Nat.mod_lt _ (by norm_num))
    rw [Nat.mod_eq_of_lt hn] at hrest hlt
    simp only [mulU64Loop, value_cons, List.length_cons, BitVec.toNat_ofNat, Nat.mod_eq_of_lt hn]
    refine ⟨?_, hlt⟩
    have hsplit := Nat.mod_add_div (c + other.toNat * x.toNat) (2 ^ 64)
    rw [Nat.mul_succ, pow_add]
    zify at hrest hsplit ⊢
    linear_combination hsplit + 2 ^ 64 * hrest

end Loops

/-- The carry loop of `overflowing_add_u64` (lines 130–141): `other` is added to
the first limb and the carry is passed up. A generated type has at least one
limb; with none, `self.0[0]` would be out of bounds. -/
def addU64Loop : List (BitVec 64) → BitVec 64 → List (BitVec 64) × Bool
  | [], _ => ([], false)
  | x :: xs, other =>
    let s := u64OverflowingAdd x other
    let rest := addCarryLoop xs s.2
    (s.1 :: rest.1, rest.2)

theorem length_addU64Loop (xs : List (BitVec 64)) (other : BitVec 64) :
    (addU64Loop xs other).1.length = xs.length := by
  cases xs with
  | nil => rfl
  | cons x xs => simp [addU64Loop, length_addCarryLoop]

theorem addU64Loop_value (xs : List (BitVec 64)) (hxs : xs ≠ []) (other : BitVec 64) :
    value (addU64Loop xs other).1 + 2 ^ (64 * xs.length) * (addU64Loop xs other).2.toNat =
      value xs + other.toNat := by
  obtain _ | ⟨x, xs⟩ := xs
  · exact absurd rfl hxs
  · have hstep := u64OverflowingAdd_value x other
    have hrest := addCarryLoop_value xs (u64OverflowingAdd x other).2
    simp only [addU64Loop, value_cons, List.length_cons]
    rw [Nat.mul_succ, pow_add]
    zify at hstep hrest ⊢
    linear_combination hstep + 2 ^ 64 * hrest

/-! ## The generated types -/

/-- A value of a type `construct_uint!(name, LIMBS)` generates: `[u64; LIMBS]`,
least significant limb first. -/
structure Uint (LIMBS : ℕ) where
  limbs : List (BitVec 64)
  length_limbs : limbs.length = LIMBS
  deriving DecidableEq

/-- `construct_uint!(Uint256, 4)` (`math/src/lib.rs` line 10). -/
abbrev Uint256 := Uint 4

namespace Uint

variable {LIMBS : ℕ}

/-- The number a value denotes. -/
def val (a : Uint LIMBS) : ℕ := value a.limbs

theorem val_lt (a : Uint LIMBS) : a.val < 2 ^ (64 * LIMBS) := by
  have h := value_lt a.limbs
  rwa [a.length_limbs] at h

/-- `overflowing_add` (lines 109–128). -/
def overflowingAdd (a b : Uint LIMBS) : Uint LIMBS × Bool :=
  (⟨(addLoop a.limbs b.limbs false).1,
    by rw [length_addLoop, a.length_limbs, b.length_limbs, min_self]⟩,
    (addLoop a.limbs b.limbs false).2)

/-- `overflowing_add_u64` (lines 130–141). -/
def overflowingAddU64 (a : Uint LIMBS) (other : BitVec 64) : Uint LIMBS × Bool :=
  (⟨(addU64Loop a.limbs other).1, by rw [length_addU64Loop, a.length_limbs]⟩,
    (addU64Loop a.limbs other).2)

/-- `overflowing_sub` (lines 143–162). -/
def overflowingSub (a b : Uint LIMBS) : Uint LIMBS × Bool :=
  (⟨(subLoop a.limbs b.limbs false).1,
    by rw [length_subLoop, a.length_limbs, b.length_limbs, min_self]⟩,
    (subLoop a.limbs b.limbs false).2)

/-- `carrying_mul_u64` (lines 185–195): the product's low limbs and its high
word. -/
def carryingMulU64 (a : Uint LIMBS) (other : BitVec 64) : Uint LIMBS × BitVec 64 :=
  (⟨(mulU64Loop other a.limbs 0).1, by rw [length_mulU64Loop, a.length_limbs]⟩,
    BitVec.ofNat 64 (mulU64Loop other a.limbs 0).2)

/-- `overflowing_mul_u64` (lines 178–183). -/
def overflowingMulU64 (a : Uint LIMBS) (other : BitVec 64) : Uint LIMBS × Bool :=
  let r := a.carryingMulU64 other
  (r.1, r.2 != 0)

/-- A sum split into a part below `B` and `B` times a flag: the part is the
remainder, and the flag is set exactly when the sum reaches `B`. -/
theorem split_flag {B v t : ℕ} {c : Bool} (hv : v < B) (h : v + B * c.toNat = t) :
    v = t % B ∧ (c = true ↔ B ≤ t) := by
  refine ⟨(low_high_of_eq hv h).1, ?_⟩
  cases c <;> simp only [Bool.toNat_false, Bool.toNat_true, mul_zero, mul_one, add_zero] at h <;>
    simp <;> omega

theorem overflowingAdd_spec (a b : Uint LIMBS) :
    (a.overflowingAdd b).1.val = (a.val + b.val) % 2 ^ (64 * LIMBS) ∧
      ((a.overflowingAdd b).2 = true ↔ 2 ^ (64 * LIMBS) ≤ a.val + b.val) := by
  have h := addLoop_value a.limbs b.limbs (by rw [a.length_limbs, b.length_limbs]) false
  rw [a.length_limbs, Bool.toNat_false, add_zero] at h
  exact split_flag (val_lt _) h

theorem overflowingAddU64_spec (hLIMBS : 0 < LIMBS) (a : Uint LIMBS) (other : BitVec 64) :
    (a.overflowingAddU64 other).1.val = (a.val + other.toNat) % 2 ^ (64 * LIMBS) ∧
      ((a.overflowingAddU64 other).2 = true ↔ 2 ^ (64 * LIMBS) ≤ a.val + other.toNat) := by
  have hne : a.limbs ≠ [] := by
    intro h
    have := a.length_limbs
    rw [h, List.length_nil] at this
    omega
  have h := addU64Loop_value a.limbs hne other
  rw [a.length_limbs] at h
  exact split_flag (val_lt _) h

theorem overflowingSub_spec (a b : Uint LIMBS) :
    ((a.overflowingSub b).1.val : ℤ) = ((a.val : ℤ) - b.val) % 2 ^ (64 * LIMBS) ∧
      ((a.overflowingSub b).2 = true ↔ a.val < b.val) := by
  have h := subLoop_value a.limbs b.limbs (by rw [a.length_limbs, b.length_limbs]) false
  rw [a.length_limbs, Bool.toNat_false, add_zero] at h
  change (a.overflowingSub b).1.val + b.val = a.val + 2 ^ (64 * LIMBS) * (a.overflowingSub b).2.toNat at h
  have hv := val_lt (a.overflowingSub b).1
  have hb := val_lt b
  constructor
  · -- `a - b` is the result less `2 ^ (64 * LIMBS)` times the borrow
    have hdiff : (a.val : ℤ) - b.val =
        (a.overflowingSub b).1.val + 2 ^ (64 * LIMBS) * -((a.overflowingSub b).2.toNat : ℤ) := by
      zify at h
      linear_combination -h
    rw [hdiff, Int.add_mul_emod_self_left, Int.emod_eq_of_lt (by positivity) (by exact_mod_cast hv)]
  · cases hc : (a.overflowingSub b).2 <;>
      simp only [hc, Bool.toNat_false, Bool.toNat_true, mul_zero, mul_one, add_zero] at h <;>
      simp <;> omega

theorem carryingMulU64_spec (a : Uint LIMBS) (other : BitVec 64) :
    (a.carryingMulU64 other).1.val = a.val * other.toNat % 2 ^ (64 * LIMBS) ∧
      (a.carryingMulU64 other).2.toNat = a.val * other.toNat / 2 ^ (64 * LIMBS) := by
  obtain ⟨h, hlt⟩ := mulU64Loop_value a.limbs other 0 (by norm_num)
  rw [a.length_limbs, add_zero, mul_comm other.toNat] at h
  have hsplit := low_high_of_eq (val_lt (a.carryingMulU64 other).1) h
  refine ⟨hsplit.1, ?_⟩
  simp only [carryingMulU64, BitVec.toNat_ofNat, Nat.mod_eq_of_lt hlt]
  exact hsplit.2

theorem overflowingMulU64_spec (a : Uint LIMBS) (other : BitVec 64) :
    (a.overflowingMulU64 other).1.val = a.val * other.toNat % 2 ^ (64 * LIMBS) ∧
      ((a.overflowingMulU64 other).2 = true ↔ 2 ^ (64 * LIMBS) ≤ a.val * other.toNat) := by
  obtain ⟨hlow, hhigh⟩ := carryingMulU64_spec a other
  refine ⟨hlow, ?_⟩
  have h0 : (0 : BitVec 64).toNat = 0 := rfl
  simp only [overflowingMulU64, bne_iff_ne, ne_eq, ← BitVec.toNat_inj, hhigh, h0]
  rw [Nat.div_eq_zero_iff_lt (Nat.two_pow_pos _)]
  omega

end Uint

/-! ## The schoolbook product -/

/-- The inner loop of `overflowing_mul` (lines 199–205) for one row:
`result[i + j] += self[i] * y` with the carry, for `i + j < LIMBS`. `acc` is the
suffix `result[j..]`, so the row stops after `acc.length` limbs. Returns the new
limbs and the row's last carry. -/
def mulRow (y : BitVec 64) : List (BitVec 64) → List (BitVec 64) → BitVec 64 →
    List (BitVec 64) × BitVec 64
  | x :: xs, r :: rs, carry =>
    let n := x.toNat * y.toNat + r.toNat + carry.toNat
    let rest := mulRow y xs rs (BitVec.ofNat 64 (n / 2 ^ 64))
    (BitVec.ofNat 64 n :: rest.1, rest.2)
  | _, _, carry => ([], carry)

/-- The outer loop of `overflowing_mul` (lines 196–208) from row `j` on: `ys` are
the limbs `other[j..]`; each row rewrites `result[j..]` and its last carry is
or-ed into the flag. -/
def mulRows (xs : List (BitVec 64)) : ℕ → List (BitVec 64) → List (BitVec 64) → Bool →
    List (BitVec 64) × Bool
  | _, [], result, carryOut => (result, carryOut)
  | j, y :: ys, result, carryOut =>
    let row := mulRow y xs (result.drop j) 0
    mulRows xs (j + 1) ys (result.take j ++ row.1) (carryOut || row.2 != 0)

theorem length_mulRow (y : BitVec 64) (xs acc : List (BitVec 64)) (c : BitVec 64) :
    (mulRow y xs acc c).1.length = min xs.length acc.length := by
  induction xs generalizing acc c with
  | nil => simp [mulRow]
  | cons x xs ih =>
    cases acc with
    | nil => simp [mulRow]
    | cons r rs => simp [mulRow, ih, Nat.succ_min_succ]

/-- A row adds `y` times the limbs of `self` it reaches to the destination
suffix; what it writes, with its last carry, is that sum. -/
theorem mulRow_value (y : BitVec 64) (xs acc : List (BitVec 64)) (c : BitVec 64)
    (h : acc.length ≤ xs.length) :
    value (mulRow y xs acc c).1 + 2 ^ (64 * acc.length) * (mulRow y xs acc c).2.toNat =
      value (xs.take acc.length) * y.toNat + value acc + c.toNat := by
  induction acc generalizing xs c with
  | nil => simp [mulRow]
  | cons r rs ih =>
    obtain _ | ⟨x, xs⟩ := xs
    · simp at h
    · have hx := x.isLt
      have hy := y.isLt
      have hr := r.isLt
      have hc := c.isLt
      -- the `u128` sum of one step fits, so its high word is the next carry exactly
      have hprod : x.toNat * y.toNat ≤ (2 ^ 64 - 1) * (2 ^ 64 - 1) :=
        Nat.mul_le_mul (by omega) (by omega)
      have hn : (x.toNat * y.toNat + r.toNat + c.toNat) / 2 ^ 64 < 2 ^ 64 := by omega
      have hrest := ih xs (BitVec.ofNat 64 ((x.toNat * y.toNat + r.toNat + c.toNat) / 2 ^ 64))
        (by simpa using h)
      rw [BitVec.toNat_ofNat, Nat.mod_eq_of_lt hn] at hrest
      have hsplit := Nat.mod_add_div (x.toNat * y.toNat + r.toNat + c.toNat) (2 ^ 64)
      simp only [mulRow, value_cons, List.length_cons, List.take_succ_cons, BitVec.toNat_ofNat]
      rw [Nat.mul_succ, pow_add]
      zify at hrest hsplit ⊢
      linear_combination hsplit + 2 ^ 64 * hrest

section Rows

variable {xs : List (BitVec 64)}

/-- One row of the product, exactly: the rewritten destination and `2 ^ (64 * L)`
times the row's last carry are the old destination plus `2 ^ (64 * j) * y` times
the `L - j` low limbs of `self`. -/
theorem mulRow_step_value {result : List (BitVec 64)} (hres : result.length = xs.length) {j : ℕ}
    (hj : j ≤ xs.length) (y : BitVec 64) :
    value (result.take j ++ (mulRow y xs (result.drop j) 0).1) +
        2 ^ (64 * xs.length) * (mulRow y xs (result.drop j) 0).2.toNat =
      value result + 2 ^ (64 * j) * y.toNat * value (xs.take (xs.length - j)) := by
  have hrow := mulRow_value y xs (result.drop j) 0 (by simp [hres])
  have hsplit := value_append (result.take j) (result.drop j)
  rw [List.take_append_drop] at hsplit
  have hpow : 2 ^ (64 * xs.length) = 2 ^ (64 * j) * 2 ^ (64 * (xs.length - j)) := by
    rw [← pow_add]
    congr 1
    omega
  rw [List.length_drop, hres] at hrow
  rw [List.length_take_of_le (by omega)] at hsplit
  rw [value_append, List.length_take_of_le (by omega), hpow]
  have h0 : (0 : BitVec 64).toNat = 0 := rfl
  rw [h0, add_zero] at hrow
  rw [hsplit]
  linear_combination 2 ^ (64 * j) * hrow

/-- The low `L - j` limbs of `self`, shifted up by `j` limbs, agree with all of
`self` modulo `2 ^ (64 * L)`. -/
theorem shifted_take_mod (hj : j ≤ xs.length) (v y : ℕ) :
    (v + 2 ^ (64 * j) * y * value (xs.take (xs.length - j))) % 2 ^ (64 * xs.length) =
      (v + 2 ^ (64 * j) * y * value xs) % 2 ^ (64 * xs.length) := by
  have hpow : 2 ^ (64 * xs.length) = 2 ^ (64 * j) * 2 ^ (64 * (xs.length - j)) := by
    rw [← pow_add]
    congr 1
    omega
  have hdecomp := Nat.mod_add_div (value xs) (2 ^ (64 * (xs.length - j)))
  rw [value_take]
  conv_rhs => rw [← hdecomp]
  rw [show v + 2 ^ (64 * j) * y * (value xs % 2 ^ (64 * (xs.length - j)) +
      2 ^ (64 * (xs.length - j)) * (value xs / 2 ^ (64 * (xs.length - j)))) =
      v + 2 ^ (64 * j) * y * (value xs % 2 ^ (64 * (xs.length - j))) +
        2 ^ (64 * xs.length) * (y * (value xs / 2 ^ (64 * (xs.length - j)))) by rw [hpow]; ring,
    Nat.add_mul_mod_self_left]

theorem length_mulRows (j : ℕ) (ys result : List (BitVec 64)) (c : Bool)
    (hres : result.length = xs.length) : (mulRows xs j ys result c).1.length = xs.length := by
  induction ys generalizing j result c with
  | nil => simpa [mulRows] using hres
  | cons y ys ih =>
    apply ih
    simp only [List.length_append, List.length_take, length_mulRow, List.length_drop, hres]
    omega

/-- After the rows from `j` on, the destination holds the old one plus
`2 ^ (64 * j)` times the product of `self` by those limbs of `other`, modulo
`2 ^ (64 * L)`. -/
theorem mulRows_value (j : ℕ) (ys result : List (BitVec 64)) (c : Bool)
    (hres : result.length = xs.length) (hj : j + ys.length = xs.length) :
    value (mulRows xs j ys result c).1 =
      (value result + 2 ^ (64 * j) * value xs * value ys) % 2 ^ (64 * xs.length) := by
  induction ys generalizing j result c with
  | nil =>
    have hlt := value_lt result
    rw [hres] at hlt
    simp [mulRows, Nat.mod_eq_of_lt hlt]
  | cons y ys ih =>
    simp only [List.length_cons] at hj
    have hjle : j ≤ xs.length := by omega
    have hstep := mulRow_step_value hres hjle y
    have hlt := value_lt (result.take j ++ (mulRow y xs (result.drop j) 0).1)
    rw [List.length_append, List.length_take, length_mulRow, List.length_drop, hres,
      show min j xs.length + min xs.length (xs.length - j) = xs.length by omega] at hlt
    -- the rewritten destination is the old one plus this row, modulo `2 ^ (64 * L)`
    have hnew : value (result.take j ++ (mulRow y xs (result.drop j) 0).1) =
        (value result + 2 ^ (64 * j) * y.toNat * value xs) % 2 ^ (64 * xs.length) := by
      rw [← shifted_take_mod hjle, ← hstep, Nat.add_mul_mod_self_left, Nat.mod_eq_of_lt hlt]
    simp only [mulRows]
    rw [ih (j + 1) _ _ (by simp only [List.length_append, List.length_take, length_mulRow,
        List.length_drop, hres]; omega) (by omega), hnew, Nat.mod_add_mod, value_cons]
    congr 1
    rw [Nat.mul_succ, pow_add]
    ring

/-- The flag of the rows from `j` on is set only if it was set before or the sum
they accumulate reaches `2 ^ (64 * L)`. -/
theorem mulRows_flag (j : ℕ) (ys result : List (BitVec 64)) (c : Bool)
    (hres : result.length = xs.length) (hj : j + ys.length = xs.length)
    (hflag : (mulRows xs j ys result c).2 = true) :
    c = true ∨ 2 ^ (64 * xs.length) ≤ value result + 2 ^ (64 * j) * value xs * value ys := by
  induction ys generalizing j result c with
  | nil => exact Or.inl (by simpa [mulRows] using hflag)
  | cons y ys ih =>
    simp only [List.length_cons] at hj
    have hjle : j ≤ xs.length := by omega
    have hstep := mulRow_step_value hres hjle y
    -- the row reads at most all of `self`
    have hle : 2 ^ (64 * j) * y.toNat * value (xs.take (xs.length - j)) ≤
        2 ^ (64 * j) * y.toNat * value xs := by
      rw [value_take]
      exact Nat.mul_le_mul_left _ (Nat.mod_le _ _)
    have hmore : 2 ^ (64 * j) * y.toNat * value xs + 2 ^ (64 * (j + 1)) * value xs * value ys =
        2 ^ (64 * j) * value xs * value (y :: ys) := by
      rw [value_cons, Nat.mul_succ, pow_add]
      ring
    simp only [mulRows] at hflag
    rcases ih (j + 1) _ _ (by simp only [List.length_append, List.length_take, length_mulRow,
        List.length_drop, hres]; omega) (by omega) hflag with hc | hreach
    · rcases Bool.or_eq_true_iff.mp hc with hc | hrow
      · exact Or.inl hc
      · -- a row that carries out has reached `2 ^ (64 * L)` already
        right
        have hcarry : 1 ≤ (mulRow y xs (result.drop j) 0).2.toNat := by
          rw [bne_iff_ne, ne_eq, ← BitVec.toNat_inj] at hrow
          have h0 : (0 : BitVec 64).toNat = 0 := rfl
          omega
        have hmul := Nat.mul_le_mul_left (2 ^ (64 * xs.length)) hcarry
        rw [← hmore]
        omega
    · right
      rw [← hmore]
      omega

end Rows

namespace Uint

variable {LIMBS : ℕ}

/-- `overflowing_mul` (lines 196–209). -/
def overflowingMul (a b : Uint LIMBS) : Uint LIMBS × Bool :=
  let r := mulRows a.limbs 0 b.limbs (List.replicate LIMBS 0) false
  (⟨r.1, by rw [length_mulRows 0 _ _ _ (by rw [List.length_replicate, a.length_limbs]),
    a.length_limbs]⟩, r.2)

/-- The product `overflowing_mul` returns is the product modulo
`2 ^ (64 * LIMBS)`. -/
theorem overflowingMul_val (a b : Uint LIMBS) :
    (a.overflowingMul b).1.val = a.val * b.val % 2 ^ (64 * LIMBS) := by
  have h := @mulRows_value a.limbs 0 b.limbs (List.replicate LIMBS 0) false
    (by rw [List.length_replicate, a.length_limbs])
    (by rw [b.length_limbs, a.length_limbs, zero_add])
  rw [value_replicate_zero, a.length_limbs, zero_add, mul_zero, pow_zero, one_mul] at h
  exact h

/-- The flag of `overflowing_mul` is set only when the product overflows. -/
theorem overflowingMul_flag_sound (a b : Uint LIMBS) (h : (a.overflowingMul b).2 = true) :
    2 ^ (64 * LIMBS) ≤ a.val * b.val := by
  have hflag := @mulRows_flag a.limbs 0 b.limbs (List.replicate LIMBS 0) false
    (by rw [List.length_replicate, a.length_limbs])
    (by rw [b.length_limbs, a.length_limbs, zero_add]) h
  rw [value_replicate_zero, a.length_limbs, zero_add, mul_zero, pow_zero, one_mul] at hflag
  rcases hflag with hfalse | hreach
  · exact absurd hfalse Bool.false_ne_true
  · exact hreach

end Uint

/-! ## Shifts -/

/-- `BITS = LIMBS * u64::BITS`. -/
def BITS (LIMBS : ℕ) : ℕ := LIMBS * 64

/-- The limbs `overflowing_shl` (lines 66–84) writes for a shift by `leftWords`
limbs and `leftShifts < 64` bits: `ret[i] = self[i - leftWords] << leftShifts`,
or-ed, when `leftShifts > 0`, with the bits carried up from the limb below. -/
def shlLimbs (xs : List (BitVec 64)) (leftWords leftShifts : ℕ) : List (BitVec 64) :=
  (List.range xs.length).map fun i =>
    (if leftWords ≤ i then xs.getD (i - leftWords) 0 <<< leftShifts else 0) |||
      (if 0 < leftShifts ∧ leftWords + 1 ≤ i then
        xs.getD (i - 1 - leftWords) 0 >>> (64 - leftShifts) else 0)

/-- The limbs `overflowing_shr` (lines 91–107) writes: `ret[i] = self[i + leftWords]
>> leftShifts`, or-ed, when `leftShifts > 0`, with the bits carried down from the
limb above. -/
def shrLimbs (xs : List (BitVec 64)) (leftWords leftShifts : ℕ) : List (BitVec 64) :=
  (List.range xs.length).map fun i =>
    (if i + leftWords < xs.length then xs.getD (i + leftWords) 0 >>> leftShifts else 0) |||
      (if 0 < leftShifts ∧ i + leftWords + 1 < xs.length then
        xs.getD (i + leftWords + 1) 0 <<< (64 - leftShifts) else 0)

@[simp] theorem length_shlLimbs (xs : List (BitVec 64)) (leftWords leftShifts : ℕ) :
    (shlLimbs xs leftWords leftShifts).length = xs.length := by
  simp [shlLimbs]

@[simp] theorem length_shrLimbs (xs : List (BitVec 64)) (leftWords leftShifts : ℕ) :
    (shrLimbs xs leftWords leftShifts).length = xs.length := by
  simp [shrLimbs]

theorem getD_map_range {α : Type} (f : ℕ → α) (n i : ℕ) (d : α) :
    ((List.range n).map f).getD i d = if i < n then f i else d := by
  by_cases h : i < n <;> simp [List.getD_eq_getElem?_getD, h]

theorem getLsbD_zero_u64 (j : ℕ) : (0 : BitVec 64).getLsbD j = false :=
  BitVec.getLsbD_zero

/-- Bit `j` of limb `i` of a left shift is bit `64 * i + j - s` of the value, for
`s = 64 * leftWords + leftShifts`. -/
theorem getLsbD_shlLimbs (xs : List (BitVec 64)) {leftWords leftShifts : ℕ} (hls : leftShifts < 64)
    {i j : ℕ} (hi : i < xs.length) (hj : j < 64) :
    ((shlLimbs xs leftWords leftShifts).getD i 0).getLsbD j =
      (decide (64 * leftWords + leftShifts ≤ 64 * i + j) &&
        (xs.getD ((64 * i + j - (64 * leftWords + leftShifts)) / 64) 0).getLsbD
          ((64 * i + j - (64 * leftWords + leftShifts)) % 64)) := by
  rw [shlLimbs, getD_map_range, if_pos hi, BitVec.getLsbD_or]
  by_cases hjl : leftShifts ≤ j
  · -- the bit comes from limb `i - leftWords`, shifted within the limb
    have hsecond : (if 0 < leftShifts ∧ leftWords + 1 ≤ i then
        xs.getD (i - 1 - leftWords) 0 >>> (64 - leftShifts) else 0).getLsbD j = false := by
      split_ifs
      · rw [BitVec.getLsbD_ushiftRight, BitVec.getLsbD_of_ge _ _ (by omega)]
      · exact getLsbD_zero_u64 _
    rw [hsecond, Bool.or_false]
    by_cases hw : leftWords ≤ i
    · have hq : (64 * i + j - (64 * leftWords + leftShifts)) / 64 = i - leftWords := by omega
      have hr : (64 * i + j - (64 * leftWords + leftShifts)) % 64 = j - leftShifts := by omega
      rw [if_pos hw, BitVec.getLsbD_shiftLeft, hq, hr]
      simp [hj, hjl, show 64 * leftWords + leftShifts ≤ 64 * i + j by omega]
    · rw [if_neg hw, getLsbD_zero_u64 _]
      simp [show ¬64 * leftWords + leftShifts ≤ 64 * i + j by omega]
  · -- the bit is carried up from the top of limb `i - 1 - leftWords`
    have hfirst : (if leftWords ≤ i then xs.getD (i - leftWords) 0 <<< leftShifts else 0).getLsbD j =
        false := by
      split_ifs
      · simp [BitVec.getLsbD_shiftLeft, show j < leftShifts by omega]
      · exact getLsbD_zero_u64 _
    rw [hfirst, Bool.false_or]
    by_cases hw : leftWords + 1 ≤ i
    · have hq : (64 * i + j - (64 * leftWords + leftShifts)) / 64 = i - 1 - leftWords := by omega
      have hr : (64 * i + j - (64 * leftWords + leftShifts)) % 64 = 64 - leftShifts + j := by omega
      rw [if_pos ⟨by omega, hw⟩, BitVec.getLsbD_ushiftRight, hq, hr]
      simp [show 64 * leftWords + leftShifts ≤ 64 * i + j by omega]
    · rw [if_neg (fun h => hw h.2), getLsbD_zero_u64 _]
      simp [show ¬64 * leftWords + leftShifts ≤ 64 * i + j by omega]

/-- Bit `j` of limb `i` of a right shift is bit `64 * i + j + s` of the value. -/
theorem getLsbD_shrLimbs (xs : List (BitVec 64)) {leftWords leftShifts : ℕ} (hls : leftShifts < 64)
    {i j : ℕ} (hi : i < xs.length) (hj : j < 64) :
    ((shrLimbs xs leftWords leftShifts).getD i 0).getLsbD j =
      (xs.getD ((64 * i + j + (64 * leftWords + leftShifts)) / 64) 0).getLsbD
        ((64 * i + j + (64 * leftWords + leftShifts)) % 64) := by
  rw [shrLimbs, getD_map_range, if_pos hi, BitVec.getLsbD_or]
  by_cases hjl : j + leftShifts < 64
  · -- the bit comes from limb `i + leftWords`
    have hq : (64 * i + j + (64 * leftWords + leftShifts)) / 64 = i + leftWords := by omega
    have hr : (64 * i + j + (64 * leftWords + leftShifts)) % 64 = leftShifts + j := by omega
    have hsecond : (if 0 < leftShifts ∧ i + leftWords + 1 < xs.length then
        xs.getD (i + leftWords + 1) 0 <<< (64 - leftShifts) else 0).getLsbD j = false := by
      split_ifs
      · simp [BitVec.getLsbD_shiftLeft, show j < 64 - leftShifts by omega]
      · exact getLsbD_zero_u64 _
    rw [hsecond, Bool.or_false, hq, hr]
    split_ifs with hin
    · rw [BitVec.getLsbD_ushiftRight]
    · rw [getLsbD_zero_u64 _, List.getD_eq_default _ _ (by omega), getLsbD_zero_u64 _]
  · -- the bit is carried down from the bottom of limb `i + leftWords + 1`
    have hq : (64 * i + j + (64 * leftWords + leftShifts)) / 64 = i + leftWords + 1 := by omega
    have hr : (64 * i + j + (64 * leftWords + leftShifts)) % 64 = j - (64 - leftShifts) := by omega
    have hfirst : (if i + leftWords < xs.length then
        xs.getD (i + leftWords) 0 >>> leftShifts else 0).getLsbD j = false := by
      split_ifs
      · rw [BitVec.getLsbD_ushiftRight, BitVec.getLsbD_of_ge _ _ (by omega)]
      · exact getLsbD_zero_u64 _
    rw [hfirst, Bool.false_or, hq, hr]
    split_ifs with hin
    · rw [BitVec.getLsbD_shiftLeft]
      simp only [hj, show ¬j < 64 - leftShifts by omega, decide_true, decide_false,
        Bool.not_false, Bool.true_and]
    · rw [getLsbD_zero_u64 _]
      by_cases hlen : i + leftWords + 1 < xs.length
      · omega
      · rw [List.getD_eq_default _ _ (by omega), getLsbD_zero_u64 _]

/-- A left shift by `s = 64 * leftWords + leftShifts` multiplies the value by
`2 ^ s`, dropping what passes the top limb. -/
theorem value_shlLimbs (xs : List (BitVec 64)) (leftWords leftShifts : ℕ) (hls : leftShifts < 64) :
    value (shlLimbs xs leftWords leftShifts) =
      value xs * 2 ^ (64 * leftWords + leftShifts) % 2 ^ (64 * xs.length) := by
  apply Nat.eq_of_testBit_eq
  intro k
  rw [testBit_value (by norm_num), Nat.testBit_mod_two_pow, Nat.testBit_mul_two_pow,
    testBit_value (by norm_num)]
  by_cases hk : k < 64 * xs.length
  · have hk' : k = 64 * (k / 64) + k % 64 := (Nat.div_add_mod k 64).symm
    rw [getLsbD_shlLimbs xs hls (by omega) (Nat.mod_lt _ (by norm_num)), ← hk']
    simp [hk]
  · rw [List.getD_eq_default _ _ (by simp; omega), getLsbD_zero_u64 _]
    simp [hk]

/-- A right shift by `s = 64 * leftWords + leftShifts` divides the value by
`2 ^ s`. -/
theorem value_shrLimbs (xs : List (BitVec 64)) (leftWords leftShifts : ℕ) (hls : leftShifts < 64) :
    value (shrLimbs xs leftWords leftShifts) = value xs / 2 ^ (64 * leftWords + leftShifts) := by
  apply Nat.eq_of_testBit_eq
  intro k
  rw [testBit_value (by norm_num), Nat.testBit_div_two_pow, testBit_value (by norm_num)]
  by_cases hk : k < 64 * xs.length
  · have hk' : k = 64 * (k / 64) + k % 64 := (Nat.div_add_mod k 64).symm
    rw [getLsbD_shrLimbs xs hls (by omega) (Nat.mod_lt _ (by norm_num)), ← hk']
  · rw [List.getD_eq_default _ _ (by simp; omega), getLsbD_zero_u64 _,
      List.getD_eq_default _ _ (by omega), getLsbD_zero_u64 _]

namespace Uint

variable {LIMBS : ℕ}

/-- `overflowing_shl` (lines 66–84): the shift `s` is reduced modulo `BITS`, and
the flag says whether it was at least `BITS`. -/
def overflowingShl (a : Uint LIMBS) (s : ℕ) : Uint LIMBS × Bool :=
  let overflows := decide (BITS LIMBS ≤ s)
  let s := s % BITS LIMBS
  (⟨shlLimbs a.limbs (s / 64) (s % 64), by rw [length_shlLimbs, a.length_limbs]⟩, overflows)

/-- `overflowing_shr` (lines 91–107). -/
def overflowingShr (a : Uint LIMBS) (s : ℕ) : Uint LIMBS × Bool :=
  let overflows := decide (BITS LIMBS ≤ s)
  let s := s % BITS LIMBS
  (⟨shrLimbs a.limbs (s / 64) (s % 64), by rw [length_shrLimbs, a.length_limbs]⟩, overflows)

theorem overflowingShl_spec (a : Uint LIMBS) (s : ℕ) :
    (a.overflowingShl s).1.val = a.val * 2 ^ (s % BITS LIMBS) % 2 ^ (64 * LIMBS) ∧
      ((a.overflowingShl s).2 = true ↔ BITS LIMBS ≤ s) := by
  refine ⟨?_, by simp [overflowingShl]⟩
  have h := value_shlLimbs a.limbs (s % BITS LIMBS / 64) (s % BITS LIMBS % 64)
    (Nat.mod_lt _ (by norm_num))
  rw [Nat.div_add_mod, a.length_limbs] at h
  exact h

theorem overflowingShr_spec (a : Uint LIMBS) (s : ℕ) :
    (a.overflowingShr s).1.val = a.val / 2 ^ (s % BITS LIMBS) ∧
      ((a.overflowingShr s).2 = true ↔ BITS LIMBS ≤ s) := by
  refine ⟨?_, by simp [overflowingShr]⟩
  have h := value_shrLimbs a.limbs (s % BITS LIMBS / 64) (s % BITS LIMBS % 64)
    (Nat.mod_lt _ (by norm_num))
  rw [Nat.div_add_mod] at h
  exact h

end Uint

/-! ## The operators and their debug assertions -/

/-- The build profile: a `debug_assert!` panics in a debug build and is skipped
in a release build. -/
inductive Profile where
  | debug
  | release
  deriving DecidableEq, Repr

/-- An operator that `debug_assert!`s that the overflow flag of its
`overflowing_*` result is clear: `none` is the panic of a debug build. -/
def checkedResult {α : Type} (profile : Profile) (r : α × Bool) : Option α :=
  match profile with
  | .debug => if r.2 then none else some r.1
  | .release => some r.1

theorem checkedResult_eq_none_iff {α : Type} (profile : Profile) (r : α × Bool) :
    checkedResult profile r = none ↔ profile = .debug ∧ r.2 = true := by
  cases profile <;> cases hr : r.2 <;> simp [checkedResult, hr]

theorem checkedResult_false {α : Type} (profile : Profile) (x : α) : checkedResult profile (x, false) = some x := by
  cases profile <;> rfl

/-- `Add` of a `w`-bit `Uint` (lines 527–537) on the numbers it adds: the sum
modulo `2 ^ w`, with the carry that `debug_assert!` makes a debug build panic
on. -/
def checkedAdd (profile : Profile) (w a b : ℕ) : Option ℕ :=
  checkedResult profile ((a + b) % 2 ^ w, decide (2 ^ w ≤ a + b))

/-- `Sum` of a `Uint` (lines 686–694) on the numbers: the first element, then
each next one added. -/
def checkedSum (profile : Profile) (w : ℕ) : List ℕ → Option ℕ
  | [] => some 0
  | first :: rest => rest.foldlM (checkedAdd profile w) first

/-- A sum that fits is the sum, in either build. -/
theorem checkedAdd_of_lt {profile : Profile} {w a b : ℕ} (h : a + b < 2 ^ w) :
    checkedAdd profile w a b = some (a + b) := by
  rw [checkedAdd, Nat.mod_eq_of_lt h, decide_eq_false (Nat.not_le.mpr h)]
  exact checkedResult_false profile (a + b)

/-- A release build wraps. -/
theorem checkedAdd_release (w a b : ℕ) : checkedAdd .release w a b = some ((a + b) % 2 ^ w) := rfl

/-- What a debug build returns is the sum, which fits. -/
theorem checkedAdd_debug {w a b c : ℕ} (h : checkedAdd .debug w a b = some c) : a + b < 2 ^ w ∧ c = a + b := by
  by_cases hlt : a + b < 2 ^ w
  · rw [checkedAdd_of_lt hlt, Option.some.injEq] at h
    exact ⟨hlt, h.symm⟩
  · rw [checkedAdd, decide_eq_true (Nat.not_lt.mp hlt)] at h
    cases h

/-- `+` on a primitive unsigned integer of `w` bits. The workspace builds its
release profile with `overflow-checks` (`Cargo.toml` line 370), so an overflow
panics in every build, as the assertion of a debug build does. -/
def overflowCheckedAdd (w a b : ℕ) : Option ℕ := checkedAdd .debug w a b

theorem overflowCheckedAdd_of_lt {w a b : ℕ} (h : a + b < 2 ^ w) : overflowCheckedAdd w a b = some (a + b) :=
  checkedAdd_of_lt h

theorem overflowCheckedAdd_eq_some {w a b c : ℕ} (h : overflowCheckedAdd w a b = some c) :
    a + b < 2 ^ w ∧ c = a + b :=
  checkedAdd_debug h

theorem foldlM_checkedAdd_release (w : ℕ) : ∀ (xs : List ℕ) (acc : ℕ),
    ∃ n, xs.foldlM (checkedAdd .release w) acc = some n
  | [], acc => ⟨acc, rfl⟩
  | x :: xs, acc => by
    rw [List.foldlM_cons, checkedAdd_release, Option.bind_eq_bind, Option.bind_some]
    exact foldlM_checkedAdd_release w xs _

theorem foldlM_checkedAdd_of_lt {profile : Profile} {w : ℕ} : ∀ {xs : List ℕ} {acc : ℕ},
    acc + xs.sum < 2 ^ w → xs.foldlM (checkedAdd profile w) acc = some (acc + xs.sum)
  | [], acc, _ => by simp
  | x :: xs, acc, h => by
    rw [List.sum_cons] at h
    rw [List.foldlM_cons, checkedAdd_of_lt (by omega), Option.bind_eq_bind, Option.bind_some,
      foldlM_checkedAdd_of_lt (by omega), List.sum_cons, Nat.add_assoc]

theorem foldlM_checkedAdd_debug {w : ℕ} : ∀ {xs : List ℕ} {acc n : ℕ},
    xs.foldlM (checkedAdd .debug w) acc = some n → n = acc + xs.sum
  | [], acc, n, h => by simpa using h.symm
  | x :: xs, acc, n, h => by
    obtain ⟨m, hm, h⟩ := Option.bind_eq_some_iff.mp h
    rw [(checkedAdd_debug hm).2] at h
    rw [foldlM_checkedAdd_debug h, List.sum_cons, Nat.add_assoc]

theorem checkedSum_release_isSome (w : ℕ) (xs : List ℕ) : ∃ n, checkedSum .release w xs = some n := by
  cases xs with
  | nil => exact ⟨0, rfl⟩
  | cons x xs => exact foldlM_checkedAdd_release w xs x

theorem checkedSum_of_lt {profile : Profile} {w : ℕ} {xs : List ℕ} (h : xs.sum < 2 ^ w) :
    checkedSum profile w xs = some xs.sum := by
  cases xs with
  | nil => rfl
  | cons x xs =>
    rw [checkedSum, foldlM_checkedAdd_of_lt (by simpa using h), List.sum_cons]

theorem checkedSum_debug {w : ℕ} {xs : List ℕ} {n : ℕ} (h : checkedSum .debug w xs = some n) : n = xs.sum := by
  cases xs with
  | nil => simpa [checkedSum] using h.symm
  | cons x xs => rw [foldlM_checkedAdd_debug h, List.sum_cons]

namespace Uint

variable {LIMBS : ℕ}

/-- `ZERO`. -/
def ZERO : Uint LIMBS := ⟨List.replicate LIMBS 0, List.length_replicate⟩

/-- `from_u64` (lines 21–26): `n` in the lowest limb. -/
def fromU64 (n : BitVec 64) : Uint LIMBS :=
  ⟨(List.replicate LIMBS 0).set 0 n, by rw [List.length_set, List.length_replicate]⟩

@[simp] theorem val_ZERO : (ZERO : Uint LIMBS).val = 0 := value_replicate_zero LIMBS

theorem val_fromU64 (hLIMBS : 0 < LIMBS) (n : BitVec 64) : (fromU64 n : Uint LIMBS).val = n.toNat := by
  obtain ⟨k, rfl⟩ : ∃ k, LIMBS = k + 1 := ⟨LIMBS - 1, by omega⟩
  simp only [fromU64, val, List.replicate_succ, List.set_cons_zero, value_cons,
    value_replicate_zero, mul_zero, add_zero]

/-- `Mul` (lines 563–573). -/
def mul (profile : Profile) (a b : Uint LIMBS) : Option (Uint LIMBS) :=
  checkedResult profile (a.overflowingMul b)

/-- The flag misses an overflow: in `Uint256`, `2 ^ 64 * 2 ^ 192 = 2 ^ 256`, but
`overflowing_mul` returns zero with the flag clear, since the only nonzero
partial product is `self[1] * other[3]` and `1 + 3 ≥ LIMBS`; so `Mul` returns
zero in a debug build too, its assertion silent. -/
theorem overflowingMul_misses_overflow :
    (⟨[0, 1, 0, 0], rfl⟩ : Uint256).overflowingMul ⟨[0, 0, 0, 1], rfl⟩ = (⟨[0, 0, 0, 0], rfl⟩, false) ∧
      2 ^ 256 ≤ (⟨[0, 1, 0, 0], rfl⟩ : Uint256).val * (⟨[0, 0, 0, 1], rfl⟩ : Uint256).val ∧
      (⟨[0, 1, 0, 0], rfl⟩ : Uint256).mul .debug ⟨[0, 0, 0, 1], rfl⟩ = some ⟨[0, 0, 0, 0], rfl⟩ := by
  decide

/-- `Shl<u32>` (lines 662–672). -/
def shl (profile : Profile) (a : Uint LIMBS) (s : ℕ) : Option (Uint LIMBS) :=
  checkedResult profile (a.overflowingShl s)

/-- `Shr<u32>` (lines 674–684). -/
def shr (profile : Profile) (a : Uint LIMBS) (s : ℕ) : Option (Uint LIMBS) :=
  checkedResult profile (a.overflowingShr s)

end Uint

end RustyKaspa.Math
