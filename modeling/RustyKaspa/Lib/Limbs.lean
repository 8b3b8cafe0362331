import Mathlib.Data.Nat.Bits
import Mathlib.Tactic.Ring
import Mathlib.Tactic.Linarith

/-!
# Little-endian limb lists

A list of `w`-bit words read least significant first, as a multi-word integer
stores its limbs, denotes a number in base `2 ^ w` (`Limbs.value`). The lemmas
are the ones the carry loops over such lists use: the value of an append and
its bound, the value of a prefix as a remainder, and the split of a sum into a
low part below a bound and a carry (`low_high_of_eq`).
-/

namespace Limbs

variable {w : ℕ}

/-- The number a limb list denotes, least significant limb first. -/
def value : List (BitVec w) → ℕ
  | [] => 0
  | x :: xs => x.toNat + 2 ^ w * value xs

@[simp] theorem value_nil : value ([] : List (BitVec w)) = 0 := rfl

@[simp] theorem value_cons (x : BitVec w) (xs : List (BitVec w)) :
    value (x :: xs) = x.toNat + 2 ^ w * value xs := rfl

theorem value_append (xs ys : List (BitVec w)) :
    value (xs ++ ys) = value xs + 2 ^ (w * xs.length) * value ys := by
  induction xs with
  | nil => simp
  | cons x xs ih =>
    rw [List.cons_append, value_cons, value_cons, ih, List.length_cons, Nat.mul_succ, pow_add]
    ring

theorem value_lt (xs : List (BitVec w)) : value xs < 2 ^ (w * xs.length) := by
  induction xs with
  | nil => simp
  | cons x xs ih =>
    have hx := x.isLt
    have hsucc : value xs + 1 ≤ 2 ^ (w * xs.length) := ih
    calc value (x :: xs) = x.toNat + 2 ^ w * value xs := rfl
      _ < 2 ^ w + 2 ^ w * value xs := by omega
      _ = 2 ^ w * (value xs + 1) := by ring
      _ ≤ 2 ^ w * 2 ^ (w * xs.length) := Nat.mul_le_mul_left _ hsucc
      _ = 2 ^ (w * (x :: xs).length) := by rw [← pow_add, List.length_cons, Nat.mul_succ, add_comm]

@[simp] theorem value_replicate_zero (n : ℕ) : value (List.replicate n (0 : BitVec w)) = 0 := by
  induction n with
  | zero => rfl
  | succ n ih =>
    rw [List.replicate_succ, value_cons, ih]
    simp

/-- A prefix of `k` limbs denotes the value modulo `2 ^ (w * k)`. -/
theorem value_take (xs : List (BitVec w)) (k : ℕ) :
    value (xs.take k) = value xs % 2 ^ (w * k) := by
  induction xs generalizing k with
  | nil => simp
  | cons x xs ih =>
    cases k with
    | zero => simp [Nat.mod_one]
    | succ k =>
      have hx := x.isLt
      rw [List.take_succ_cons, value_cons, value_cons, ih, Nat.mul_succ, add_comm (w * k) w,
        pow_add]
      -- split the remainder at the low limb: `a % (B * C) = a % B + B * (a / B % C)`
      rw [Nat.mod_mul, Nat.add_mul_mod_self_left, Nat.mod_eq_of_lt hx,
        Nat.add_mul_div_left _ _ (Nat.two_pow_pos w), Nat.div_eq_of_lt hx, zero_add]

/-- The limbs from `k` on denote the value divided by `2 ^ (w * k)`. -/
theorem value_drop (xs : List (BitVec w)) (k : ℕ) :
    value (xs.drop k) = value xs / 2 ^ (w * k) := by
  have happ := value_append (xs.take k) (xs.drop k)
  rw [List.take_append_drop] at happ
  have hlt := value_lt (xs.take k)
  by_cases hk : k ≤ xs.length
  · rw [List.length_take_of_le hk] at happ hlt
    rw [happ, Nat.add_mul_div_left _ _ (Nat.two_pow_pos _), Nat.div_eq_of_lt hlt, zero_add]
  · have hdrop : xs.drop k = [] := List.drop_eq_nil_of_le (by omega)
    have hbound : value xs < 2 ^ (w * k) :=
      lt_of_lt_of_le (value_lt xs) (Nat.pow_le_pow_right (by omega) (by nlinarith))
    rw [hdrop, value_nil, Nat.div_eq_of_lt hbound]

/-- Bit `k` of the value is bit `k % w` of limb `k / w`; limbs past the end
read as zero. -/
theorem testBit_value (hw : 0 < w) (xs : List (BitVec w)) (k : ℕ) :
    (value xs).testBit k = (xs.getD (k / w) 0).getLsbD (k % w) := by
  induction xs generalizing k with
  | nil => simp
  | cons x xs ih =>
    rw [value_cons, add_comm, Nat.testBit_two_pow_mul_add _ x.isLt]
    by_cases hk : k < w
    · rw [if_pos hk, Nat.div_eq_of_lt hk, Nat.mod_eq_of_lt hk]
      rfl
    · -- past the first limb: bit `k` of the value is bit `k - w` of the rest
      have hdiv : k / w = (k - w) / w + 1 := Nat.div_eq_sub_div hw (by omega)
      have hmod : k % w = (k - w) % w := Nat.mod_eq_sub_mod (by omega)
      rw [if_neg hk, ih, hdiv, hmod, List.getD_cons_succ]

/-- A sum written as a low part below `B` plus `B` times a carry: the low part is
the remainder and the carry the quotient. -/
theorem low_high_of_eq {B v c t : ℕ} (hv : v < B) (h : v + B * c = t) :
    v = t % B ∧ c = t / B := by
  subst h
  have hB : 0 < B := by omega
  constructor
  · rw [Nat.add_mul_mod_self_left, Nat.mod_eq_of_lt hv]
  · rw [Nat.add_mul_div_left _ _ hB, Nat.div_eq_of_lt hv, zero_add]

end Limbs
