import Mathlib.Data.List.ModifyLast
import Mathlib.Data.Nat.Digits.Lemmas
import Mathlib.Data.Nat.Bitwise

/-!
# Script numbers

Model of the numeric encoding of the script engine
(`crypto/txscript/src/data_stack.rs` lines 127–208). `serialize_i64` writes a
number as its magnitude in little-endian bytes with the sign in the top bit of
the last byte, adding a `0` byte when the magnitude's top bit is set, and, when
a size is asked for, pads with zeros and puts the sign on the last padding
byte. `deserialize_i64` reads such bytes back, after
`check_minimal_data_encoding` when asked to. An `i64` is an integer with
`-2 ^ 63 ≤ x < 2 ^ 63`, and bytes denote the little-endian number `leValue`.

Results, for every `x` with `-2 ^ 63 < x < 2 ^ 63` (all of `i64` but `i64::MIN`):
* `serializeI64_none_spec`: `serialize_i64(x, None)` has at most 8 bytes, passes
  `check_minimal_data_encoding` and `deserialize_i64(·, true)` reads it back as
  `x`;
* `serializeI64_some_spec`: for every size from its length up to 8,
  `serialize_i64(x, Some(size))` has `size` bytes and `deserialize_i64(·, false)`
  reads it back as `x`;
* `serializeI64_deserializeI64`: every byte string of at most 8 bytes that
  passes `check_minimal_data_encoding` is `serialize_i64` of what it reads as;
* `decodeFold_bounds`: the fold of `deserialize_i64` stays below `2 ^ 63`
  for at most 8 bytes, so its `i64` shifts and additions do not overflow.
-/

namespace RustyKaspa.Txscript

/-- The two texts of the `NotMinimalData` errors of these functions. -/
inductive NumericEncodingIssue where
  /-- "numeric value encoded as {v:x?} is not minimally encoded" -/
  | notMinimallyEncoded
  /-- "numeric value encoded as {v:x?} is longer than 8 bytes" -/
  | longerThan8Bytes
  deriving DecidableEq, Repr

/-- The texts of the `NotMinimalData` errors of `check_minimal_data_push`
(`opcodes/mod.rs` lines 178–223). -/
inductive PushEncodingIssue where
  /-- "zero length data push is encoded with opcode {self:?} instead of OpFalse" -/
  | insteadOfOpFalse
  /-- "zero length data push is encoded with opcode {:?} instead of Op_{}" -/
  | insteadOfSmallInt
  /-- "data push of the value -1 encoded with opcode {self:?} instead of OP_1NEGATE" -/
  | insteadOf1Negate
  /-- "data push of {data_len} bytes encoded with opcode {self:?} instead of OP_DATA_{data_len}" -/
  | insteadOfOpData
  /-- "data push of {data_len} bytes encoded with opcode {self:?} instead of OP_PUSHDATA1" -/
  | insteadOfPushData1
  /-- "data push of {data_len} bytes encoded with opcode {self:?} instead of OP_PUSHDATA2" -/
  | insteadOfPushData2
  deriving DecidableEq, Repr

/-- `SerializationError::NumberTooLong(from, size)`. -/
inductive SerializationError where
  | numberTooLong (x : ℤ) (size : ℕ)
  deriving DecidableEq, Repr

/-- The variants of `TxScriptError` the modelled functions return.
`NotMinimalData` carries the values its message shows: the bytes of a number, or
the opcode and the data length of a push. -/
inductive TxScriptError where
  | notMinimalData (issue : NumericEncodingIssue) (v : List UInt8)
  | notMinimalPush (issue : PushEncodingIssue) (opcode : UInt8) (dataLen : ℕ)
  | malformedPushSize (bytes : List UInt8)
  | malformedPush (expected got : ℕ)
  | elementTooBig (len max : ℕ)
  | opcodeReserved (opcode : UInt8)
  | serialization (e : SerializationError)
  deriving DecidableEq, Repr

/-- `check_minimal_data_encoding` (lines 127–150): the most significant byte,
less its sign bit, is not zero, unless the byte below it has its top bit set. -/
def checkMinimalDataEncoding (v : List UInt8) : Except TxScriptError Unit :=
  if v.isEmpty then .ok ()
  else if v.getD (v.length - 1) 0 &&& 0x7f = 0 then
    if v.length = 1 ∨ v.getD (v.length - 2) 0 &&& 0x80 = 0 then
      .error (.notMinimalData .notMinimallyEncoded v)
    else .ok ()
  else .ok ()

/-- The bytes the `iter::from_fn` of `serialize_i64` (lines 156–169) yields from
`positive` and `last_saturated`: `positive & 0xff` while `positive` is not
zero, shifting it right by 8, then one `0` if the last byte had its top bit set. -/
def magnitudeBytes (positive : ℕ) (lastSaturated : Bool) : List UInt8 :=
  if positive = 0 then (if lastSaturated then [0] else [])
  else
    let value := positive % 256
    UInt8.ofNat value :: magnitudeBytes (positive / 256) (value &&& 0x80 != 0)
termination_by positive
decreasing_by omega

/-- `serialize_i64` (lines 152–184). The `unreachable!()` of a negative number
without bytes is not reached: a nonzero magnitude has a byte. -/
def serializeI64 (x : ℤ) (size : Option ℕ) : Except SerializationError (List UInt8) := do
  let numberVec := magnitudeBytes x.natAbs false
  let numberVec ← match size with
    | some size =>
      if numberVec.length > size then throw (.numberTooLong x size)
      else pure (numberVec ++ List.replicate (size - numberVec.length) 0)
    | none => pure numberVec
  pure (if x.sign = -1 then numberVec.modifyLast (· ||| 0x80) else numberVec)

/-- The fold of `deserialize_i64`: the bytes below the most significant one, from
the top, shifted in under `first_byte`. -/
def decodeFold (firstByte : ℤ) (rest : List UInt8) : ℤ :=
  (rest.reverse.map fun b => (b.toNat : ℤ)).foldl (fun accum item => accum * 256 + item) firstByte

/-- `deserialize_i64` (lines 186–208). `(accum << 8) + item` is `accum * 256 + item`:
`decodeFold_bounds` shows it stays within `i64`. -/
def deserializeI64 (v : List UInt8) (enforceMinimal : Bool) : Except TxScriptError ℤ :=
  if v.length > 8 then .error (.notMinimalData .longerThan8Bytes v)
  else if v.length = 0 then .ok 0
  else do
    if enforceMinimal then checkMinimalDataEncoding v
    let msb := v.getD (v.length - 1) 0
    let sign : ℤ := 1 - 2 * ((msb >>> 7).toNat : ℤ)
    let firstByte : ℤ := (msb &&& 0x7f).toNat
    pure (decodeFold firstByte (v.take (v.length - 1)) * sign)

/-! ## Bytes as numbers -/

/-- The little-endian number a byte string denotes. -/
def leValue (bs : List UInt8) : ℕ := Nat.ofDigits 256 (bs.map UInt8.toNat)

@[simp] theorem leValue_nil : leValue [] = 0 := rfl

@[simp] theorem leValue_cons (b : UInt8) (bs : List UInt8) :
    leValue (b :: bs) = b.toNat + 256 * leValue bs := by
  simp [leValue, Nat.ofDigits_cons]

theorem leValue_append (bs bs' : List UInt8) :
    leValue (bs ++ bs') = leValue bs + 256 ^ bs.length * leValue bs' := by
  rw [leValue, leValue, leValue, List.map_append, Nat.ofDigits_append, List.length_map]

theorem leValue_append_singleton (bs : List UInt8) (b : UInt8) :
    leValue (bs ++ [b]) = leValue bs + 256 ^ bs.length * b.toNat := by
  rw [leValue, leValue, List.map_append, Nat.ofDigits_append, List.length_map, List.map_singleton,
    Nat.ofDigits_singleton]

@[simp] theorem leValue_replicate_zero (n : ℕ) : leValue (List.replicate n 0) = 0 := by
  induction n with
  | zero => rfl
  | succ n ih => rw [List.replicate_succ, leValue_cons, ih]; rfl

theorem leValue_lt (bs : List UInt8) : leValue bs < 256 ^ bs.length := by
  induction bs with
  | nil => simp
  | cons b bs ih =>
    have hb := b.toNat_lt
    rw [leValue_cons, List.length_cons, pow_succ]
    omega

/-- Horner's rule, as the fold of `deserialize_i64` applies it. -/
theorem decodeFold_eq (firstByte : ℤ) (rest : List UInt8) :
    decodeFold firstByte rest = firstByte * 256 ^ rest.length + leValue rest := by
  rw [decodeFold, List.map_reverse, List.foldl_reverse]
  induction rest with
  | nil => simp
  | cons b bs ih =>
    rw [List.map_cons, List.foldr_cons, ih, leValue_cons, List.length_cons, pow_succ]
    push_cast
    ring

/-- The last step of the fold shifts in the lowest byte: the accumulator after each step is the
fold over the bytes above some position. -/
theorem decodeFold_cons (firstByte : ℤ) (b : UInt8) (rest : List UInt8) :
    decodeFold firstByte (b :: rest) = decodeFold firstByte rest * 256 + b.toNat := by
  rw [decodeFold, decodeFold, List.reverse_cons, List.map_append, List.foldl_append]
  rfl

/-- Below a first byte under `128` and at most 7 bytes, the fold stays in `[0, 2 ^ 63)`. -/
theorem decodeFold_bounds {firstByte : ℕ} (hfirst : firstByte < 128) {rest : List UInt8}
    (hrest : rest.length ≤ 7) : 0 ≤ decodeFold firstByte rest ∧ decodeFold firstByte rest < 2 ^ 63 := by
  have hlt := leValue_lt rest
  have hpow : 256 ^ rest.length ≤ 256 ^ 7 := Nat.pow_le_pow_right (by norm_num) hrest
  have hbound : firstByte * 256 ^ rest.length + leValue rest < 2 ^ 63 :=
    calc firstByte * 256 ^ rest.length + leValue rest
        < (firstByte + 1) * 256 ^ rest.length := by rw [add_mul, one_mul]; omega
      _ ≤ 128 * 256 ^ 7 := Nat.mul_le_mul (by omega) hpow
      _ = 2 ^ 63 := by norm_num
  rw [decodeFold_eq]
  constructor
  · positivity
  · exact_mod_cast hbound

/-! ## Facts about single bytes -/

theorem land_0x80 {v : ℕ} (hv : v < 256) : v &&& 0x80 = if 128 ≤ v then 128 else 0 := by
  have h := Nat.and_two_pow v 7
  rw [Nat.testBit_eq_decide_div_mod_eq] at h
  by_cases h128 : 128 ≤ v
  · rw [if_pos h128]
    rw [show v / 2 ^ 7 % 2 = 1 by omega] at h
    simpa using h
  · rw [if_neg h128]
    rw [show v / 2 ^ 7 % 2 = 0 by omega] at h
    simpa using h

theorem land_0x80_ne_zero {v : ℕ} (hv : v < 256) : (v &&& 0x80 != 0) = decide (128 ≤ v) := by
  rw [land_0x80 hv]
  split_ifs with h <;> simp [h]

theorem toNat_or_0x80 {b : UInt8} (hb : b.toNat < 128) : (b ||| 0x80).toNat = b.toNat + 128 := by
  rw [UInt8.toNat_or, show (0x80 : UInt8).toNat = 2 ^ 7 * 1 from rfl, Nat.lor_comm,
    ← Nat.two_pow_add_eq_or_of_lt hb]
  omega

theorem toNat_and_0x7f (b : UInt8) : (b &&& 0x7f).toNat = b.toNat % 128 := by
  rw [UInt8.toNat_and, show (0x7f : UInt8).toNat = 2 ^ 7 - 1 from rfl,
    Nat.and_two_pow_sub_one_eq_mod]

theorem toNat_and_0x80 (b : UInt8) : (b &&& 0x80).toNat = if 128 ≤ b.toNat then 128 else 0 := by
  rw [UInt8.toNat_and, show (0x80 : UInt8).toNat = 0x80 from rfl, land_0x80 b.toNat_lt]

theorem toNat_shiftRight_7 (b : UInt8) : (b >>> 7).toNat = b.toNat / 128 := by
  rw [UInt8.toNat_shiftRight, show (7 : UInt8).toNat % 8 = 7 from rfl, Nat.shiftRight_eq_div_pow]

theorem and_0x7f_eq_zero_iff (b : UInt8) : b &&& 0x7f = 0 ↔ b.toNat % 128 = 0 := by
  rw [← UInt8.toNat_inj, toNat_and_0x7f]
  rfl

theorem and_0x80_eq_zero_iff (b : UInt8) : b &&& 0x80 = 0 ↔ b.toNat < 128 := by
  rw [← UInt8.toNat_inj, toNat_and_0x80]
  split_ifs <;> simp <;> omega

/-! ## The magnitude bytes -/

theorem magnitudeBytes_zero (lastSaturated : Bool) :
    magnitudeBytes 0 lastSaturated = if lastSaturated then [0] else [] := by
  rw [magnitudeBytes, if_pos rfl]

theorem magnitudeBytes_of_ne_zero {positive : ℕ} (h : positive ≠ 0) (lastSaturated : Bool) :
    magnitudeBytes positive lastSaturated =
      UInt8.ofNat (positive % 256) ::
        magnitudeBytes (positive / 256) (decide (128 ≤ positive % 256)) := by
  rw [magnitudeBytes, if_neg h]
  dsimp only
  rw [land_0x80_ne_zero (Nat.mod_lt _ (by norm_num))]

/-- The bytes of a nonzero magnitude are its base-256 digits, with one `0` after them
when the top digit has its top bit set. -/
theorem map_toNat_magnitudeBytes {n : ℕ} (hn : n ≠ 0) (lastSaturated : Bool) :
    (magnitudeBytes n lastSaturated).map UInt8.toNat =
      Nat.digits 256 n ++ if 128 ≤ (Nat.digits 256 n).getLastD 0 then [0] else [] := by
  induction n using Nat.strong_induction_on generalizing lastSaturated with
  | _ n ih =>
    rw [magnitudeBytes_of_ne_zero hn, List.map_cons, UInt8.toNat_ofNat',
      show (2 : ℕ) ^ 8 = 256 from rfl, Nat.mod_mod,
      Nat.digits_def' (by norm_num) (Nat.pos_of_ne_zero hn), List.getLastD_cons]
    by_cases hq : n / 256 = 0
    · -- the top digit: the bytes end after it, or after the `0` of its top bit
      rw [hq, magnitudeBytes_zero, Nat.digits_zero, List.getLastD_nil]
      by_cases hs : 128 ≤ n % 256 <;> simp [hs]
    · have hds : Nat.digits 256 (n / 256) ≠ [] := Nat.digits_ne_nil_iff_ne_zero.mpr hq
      rw [ih (n / 256) (Nat.div_lt_self (Nat.pos_of_ne_zero hn) (by norm_num)) hq,
        List.getLastD_eq_getLast?, List.getLastD_eq_getLast?, List.getLast?_eq_some_getLast hds]
      rfl

theorem leValue_magnitudeBytes (n : ℕ) (lastSaturated : Bool) :
    leValue (magnitudeBytes n lastSaturated) = n := by
  by_cases hn : n = 0
  · subst hn
    rw [magnitudeBytes_zero]
    cases lastSaturated <;> rfl
  · rw [leValue, map_toNat_magnitudeBytes hn, Nat.ofDigits_append, Nat.ofDigits_digits]
    split_ifs <;> simp

theorem getLastD_map_toNat (l : List UInt8) :
    (l.map UInt8.toNat).getLastD 0 = (l.getLastD 0).toNat := by
  change (l.map UInt8.toNat).getLastD (UInt8.toNat 0) = _
  rw [List.getLastD_map]

/-- A nonzero magnitude ends in a byte below `128`, which is not `0` unless the byte
below it has its top bit set: the shape `check_minimal_data_encoding` accepts. -/
theorem magnitudeBytes_append_singleton {n : ℕ} (hn : n ≠ 0) :
    ∃ init last, magnitudeBytes n false = init ++ [last] ∧ last.toNat < 128 ∧
      (last.toNat ≠ 0 ∨ 128 ≤ (init.getLastD 0).toNat) := by
  have hmap := map_toNat_magnitudeBytes hn false
  have hds : Nat.digits 256 n ≠ [] := Nat.digits_ne_nil_iff_ne_zero.mpr hn
  obtain ⟨ds, d, hdd⟩ := (List.eq_nil_or_concat' (Nat.digits 256 n)).resolve_left hds
  have hd0 : d ≠ 0 := by
    have := Nat.getLast_digit_ne_zero 256 hn
    simpa [hdd] using this
  rw [hdd, List.getLastD_concat] at hmap
  by_cases hd : 128 ≤ d
  · -- the top digit is followed by a `0`
    rw [if_pos hd] at hmap
    obtain ⟨init, l₂, hsplit, hinit, hl₂⟩ := List.map_eq_append_iff.mp hmap
    obtain ⟨last, rfl, hlast⟩ := List.map_eq_singleton_iff.mp hl₂
    refine ⟨init, last, hsplit, by omega, Or.inr ?_⟩
    rw [← getLastD_map_toNat, hinit, List.getLastD_concat]
    exact hd
  · rw [if_neg hd, List.append_nil] at hmap
    obtain ⟨init, l₂, hsplit, -, hl₂⟩ := List.map_eq_append_iff.mp hmap
    obtain ⟨last, rfl, hlast⟩ := List.map_eq_singleton_iff.mp hl₂
    exact ⟨init, last, hsplit, by omega, Or.inl (by omega)⟩

/-- The base-256 digits of what bytes with a nonzero top byte denote are those bytes. -/
theorem digits_leValue {l : List UInt8} (hl : (l.getLastD 0).toNat ≠ 0) :
    Nat.digits 256 (leValue l) = l.map UInt8.toNat := by
  apply Nat.digits_ofDigits _ (by norm_num)
  · intro d hd
    obtain ⟨b, -, rfl⟩ := List.mem_map.mp hd
    exact b.toNat_lt
  · intro hne
    have hl' : l ≠ [] := by simpa using hne
    have htop : l.getLastD 0 = l.getLast hl' := by
      rw [List.getLastD_eq_getLast?, List.getLast?_eq_some_getLast hl']
      rfl
    rw [List.getLast_map, ← htop]
    exact hl

/-- Bytes of that shape are the magnitude bytes of the number they denote: the base-256
digits of a number are unique. -/
theorem magnitudeBytes_leValue {init : List UInt8} {last : UInt8} (hlast : last.toNat < 128)
    (hmin : last.toNat ≠ 0 ∨ 128 ≤ (init.getLastD 0).toNat) :
    magnitudeBytes (leValue (init ++ [last])) false = init ++ [last] := by
  apply List.map_injective_iff.mpr (fun _ _ h => UInt8.toNat_inj.mp h)
  by_cases hl0 : last.toNat = 0
  · -- a zero top byte: the digits are the bytes below it, and their top digit is saturated
    have hinit : 128 ≤ (init.getLastD 0).toNat := hmin.resolve_left (not_not.mpr hl0)
    have hd := digits_leValue (l := init) (by omega)
    have hn : leValue init ≠ 0 := by
      intro h0
      rw [h0, Nat.digits_zero] at hd
      have := congrArg (List.getLastD · 0) hd
      simp only [List.getLastD_nil, getLastD_map_toNat] at this
      omega
    rw [leValue_append_singleton, hl0, mul_zero, add_zero, map_toNat_magnitudeBytes hn, hd,
      getLastD_map_toNat, if_pos hinit, List.map_append, List.map_singleton, hl0]
  · -- a nonzero top byte: the bytes are the digits, with nothing after them
    have hd := digits_leValue (l := init ++ [last]) (by rwa [List.getLastD_concat])
    have hn : leValue (init ++ [last]) ≠ 0 := by
      intro h0
      rw [h0, Nat.digits_zero] at hd
      simp at hd
    rw [map_toNat_magnitudeBytes hn, hd, List.map_append, List.map_singleton,
      List.getLastD_concat, if_neg (by omega), List.append_nil]

/-- Bytes of the minimal shape that denote less than `128 * 256 ^ k` have at most `k` bytes
below the top one. -/
theorem length_le_of_leValue_lt {init : List UInt8} {last : UInt8} {k : ℕ}
    (hmin : last.toNat ≠ 0 ∨ 128 ≤ (init.getLastD 0).toNat)
    (hlt : leValue (init ++ [last]) < 128 * 256 ^ k) : init.length ≤ k := by
  rw [leValue_append_singleton] at hlt
  rcases hmin with hlast | hinit
  · -- a nonzero top byte weighs at least `256 ^ init.length`
    have hpow : 256 ^ init.length < 256 ^ (k + 1) :=
      calc 256 ^ init.length ≤ 256 ^ init.length * last.toNat := Nat.le_mul_of_pos_right _ (by omega)
        _ < 128 * 256 ^ k := by omega
        _ < 256 ^ (k + 1) := by rw [pow_succ]; omega
    have := (Nat.pow_lt_pow_iff_right (by norm_num)).mp hpow
    omega
  · -- a zero top byte sits on a byte of weight at least `128 * 256 ^ (init.length - 1)`
    obtain ⟨init', p, rfl⟩ := (List.eq_nil_or_concat' init).resolve_left (by
      rintro rfl
      simp at hinit)
    rw [List.getLastD_concat] at hinit
    rw [leValue_append_singleton] at hlt
    have hpow : 256 ^ init'.length < 256 ^ k := by
      have : 128 * 256 ^ init'.length ≤ 256 ^ init'.length * p.toNat := by
        rw [mul_comm]
        exact Nat.mul_le_mul_left _ hinit
      omega
    have := (Nat.pow_lt_pow_iff_right (by norm_num)).mp hpow
    rw [List.length_append, List.length_singleton]
    omega

/-! ## Reading and writing the top byte -/

/-- What `check_minimal_data_encoding` asks of bytes with top byte `last`. -/
theorem checkMinimalDataEncoding_append_singleton (init : List UInt8) (last : UInt8) :
    checkMinimalDataEncoding (init ++ [last]) = .ok () ↔
      last.toNat % 128 ≠ 0 ∨ 128 ≤ (init.getLastD 0).toNat := by
  have htop : (init ++ [last]).getD ((init ++ [last]).length - 1) 0 = last := by simp
  rcases List.eq_nil_or_concat' init with rfl | ⟨init', p, rfl⟩
  · simp [checkMinimalDataEncoding, and_0x7f_eq_zero_iff]
  · have hbelow : (init' ++ [p] ++ [last]).getD ((init' ++ [p] ++ [last]).length - 2) 0 = p := by
      simp
    simp only [checkMinimalDataEncoding, htop, hbelow, and_0x7f_eq_zero_iff,
      and_0x80_eq_zero_iff, List.getLastD_concat]
    split_ifs <;> simp_all

/-- The top byte of a number: its magnitude's top byte, with the sign bit set when it is
negative. -/
theorem toNat_signed {top : UInt8} (htop : top.toNat < 128) (neg : Prop) [Decidable neg] :
    (if neg then top ||| 0x80 else top).toNat = top.toNat + if neg then 128 else 0 := by
  split_ifs
  · exact toNat_or_0x80 htop
  · rfl

/-- Every byte is its low seven bits with the sign bit put back. -/
theorem eq_signed_and_0x7f (b : UInt8) :
    b = if 128 ≤ b.toNat then (b &&& 0x7f) ||| 0x80 else b &&& 0x7f := by
  have hlow : (b &&& 0x7f).toNat < 128 := by
    rw [toNat_and_0x7f]
    omega
  apply UInt8.toNat_inj.mp
  rw [toNat_signed hlow, toNat_and_0x7f]
  have := b.toNat_lt
  split_ifs <;> omega

theorem checkMinimalDataEncoding_signed {init : List UInt8} {top : UInt8} (htop : top.toNat < 128)
    (hmin : top.toNat ≠ 0 ∨ 128 ≤ (init.getLastD 0).toNat) (neg : Prop) [Decidable neg] :
    checkMinimalDataEncoding (init ++ [if neg then top ||| 0x80 else top]) = .ok () := by
  rw [checkMinimalDataEncoding_append_singleton, toNat_signed htop]
  split_ifs <;> omega

/-- `deserialize_i64` of bytes with top byte `top`: the magnitude below the sign bit, negated
when the sign bit is set. -/
theorem deserializeI64_append_singleton {init : List UInt8} (top : UInt8) (hlen : init.length < 8)
    {enforceMinimal : Bool}
    (hcheck : enforceMinimal = true → checkMinimalDataEncoding (init ++ [top]) = .ok ()) :
    deserializeI64 (init ++ [top]) enforceMinimal =
      .ok (((top.toNat % 128 * 256 ^ init.length + leValue init : ℕ) : ℤ) *
        (1 - 2 * ((top.toNat / 128 : ℕ) : ℤ))) := by
  have hlong : ¬(init ++ [top]).length > 8 := by
    rw [List.length_append, List.length_singleton]
    omega
  have htop : (init ++ [top]).getD ((init ++ [top]).length - 1) 0 = top := by simp
  have htake : (init ++ [top]).take ((init ++ [top]).length - 1) = init := by simp
  rw [deserializeI64, if_neg hlong, if_neg (by simp)]
  cases enforceMinimal
  · simp only [htop, htake, decodeFold_eq, toNat_and_0x7f, toNat_shiftRight_7]
    push_cast
    rfl
  · simp only [hcheck rfl, htop, htake, decodeFold_eq, toNat_and_0x7f, toNat_shiftRight_7]
    push_cast
    rfl

/-- Bytes whose top byte is below `128`, with the sign bit set on it for a negative number,
read back as the number whose magnitude they denote. -/
theorem deserializeI64_signed {init : List UInt8} {top : UInt8} (htop : top.toNat < 128)
    (hlen : init.length < 8) {x : ℤ} (hx : x.natAbs = leValue (init ++ [top]))
    (enforceMinimal : Bool)
    (hmin : enforceMinimal = true → top.toNat ≠ 0 ∨ 128 ≤ (init.getLastD 0).toNat) :
    deserializeI64 (init ++ [if x < 0 then top ||| 0x80 else top]) enforceMinimal = .ok x := by
  rw [deserializeI64_append_singleton _ hlen (fun h => checkMinimalDataEncoding_signed htop (hmin h) _),
    toNat_signed htop]
  rw [leValue_append_singleton, Nat.mul_comm] at hx
  congr 1
  by_cases hneg : x < 0
  · rw [if_pos hneg, show (top.toNat + 128) % 128 = top.toNat by omega,
      show (top.toNat + 128) / 128 = 1 by omega]
    omega
  · rw [if_neg hneg, show (top.toNat + 0) % 128 = top.toNat by omega,
      show (top.toNat + 0) / 128 = 0 by omega]
    omega

/-! ## Writing -/

theorem serializeI64_none (x : ℤ) :
    serializeI64 x none =
      .ok (if x < 0 then (magnitudeBytes x.natAbs false).modifyLast (· ||| 0x80)
        else magnitudeBytes x.natAbs false) := by
  simp only [serializeI64, Int.sign_eq_neg_one_iff_neg]
  rfl

theorem serializeI64_some (x : ℤ) {size : ℕ} (hsize : (magnitudeBytes x.natAbs false).length ≤ size) :
    serializeI64 x (some size) =
      .ok (if x < 0 then
          (magnitudeBytes x.natAbs false ++
            List.replicate (size - (magnitudeBytes x.natAbs false).length) 0).modifyLast (· ||| 0x80)
        else magnitudeBytes x.natAbs false ++
          List.replicate (size - (magnitudeBytes x.natAbs false).length) 0) := by
  simp only [serializeI64, Int.sign_eq_neg_one_iff_neg, gt_iff_lt, not_lt.mpr hsize, if_false]
  rfl

theorem length_modifyLast {α : Type*} (f : α → α) (l : List α) :
    (l.modifyLast f).length = l.length := by
  rcases List.eq_nil_or_concat' l with rfl | ⟨init, a, rfl⟩
  · rfl
  · rw [List.modifyLast_concat, List.length_append, List.length_append, List.length_singleton,
      List.length_singleton]

/-- The sign bit goes on the top byte. -/
theorem modifyLast_signed (init : List UInt8) (top : UInt8) (neg : Prop) [Decidable neg] :
    (if neg then (init ++ [top]).modifyLast (· ||| 0x80) else init ++ [top]) =
      init ++ [if neg then top ||| 0x80 else top] := by
  split_ifs
  · exact List.modifyLast_concat _ _ _
  · rfl

/-- The magnitude bytes padded with zeros, when there is at least one: their top byte is below
`128` and they denote the magnitude. -/
theorem padded_append_singleton (n k : ℕ) (hne : magnitudeBytes n false ++ List.replicate k 0 ≠ []) :
    ∃ init top, magnitudeBytes n false ++ List.replicate k 0 = init ++ [top] ∧ top.toNat < 128 ∧
      leValue (init ++ [top]) = n := by
  cases k with
  | zero =>
    -- no padding: the bytes are those of a nonzero magnitude
    have hn : n ≠ 0 := by
      rintro rfl
      simp [magnitudeBytes_zero] at hne
    obtain ⟨init, last, hbytes, hlast, -⟩ := magnitudeBytes_append_singleton hn
    refine ⟨init, last, by rw [List.replicate_zero, List.append_nil, hbytes], hlast, ?_⟩
    rw [← hbytes, leValue_magnitudeBytes]
  | succ k =>
    -- the top byte is a padding `0`
    refine ⟨magnitudeBytes n false ++ List.replicate k 0, 0, by rw [List.replicate_succ',
      List.append_assoc], by decide, ?_⟩
    rw [leValue_append_singleton, leValue_append, leValue_replicate_zero, leValue_magnitudeBytes]
    simp

/-! ## Round trips -/

/-- `serialize_i64(x, None)`, for `x` in `i64` but `i64::MIN`, has at most 8 bytes, is
minimally encoded and reads back as `x`. -/
theorem serializeI64_none_spec {x : ℤ} (hlo : -2 ^ 63 < x) (hhi : x < 2 ^ 63) :
    ∃ v, serializeI64 x none = .ok v ∧ v.length ≤ 8 ∧ checkMinimalDataEncoding v = .ok () ∧
      deserializeI64 v true = .ok x := by
  rw [serializeI64_none]
  by_cases hx : x = 0
  · subst hx
    exact ⟨[], by rw [Int.natAbs_zero, magnitudeBytes_zero]; rfl, by simp, rfl, rfl⟩
  · obtain ⟨init, last, hbytes, hlast, hmin⟩ :=
      magnitudeBytes_append_singleton (Int.natAbs_ne_zero.mpr hx)
    have hval : x.natAbs = leValue (init ++ [last]) := by rw [← hbytes, leValue_magnitudeBytes]
    have hlen : init.length ≤ 7 := length_le_of_leValue_lt hmin (by rw [← hval]; omega)
    refine ⟨init ++ [if x < 0 then last ||| 0x80 else last], by rw [hbytes, modifyLast_signed],
      by simp; omega, checkMinimalDataEncoding_signed hlast hmin _, ?_⟩
    exact deserializeI64_signed hlast (by omega) hval true (fun _ => hmin)

/-- `serialize_i64(x, Some(size))` for a size from the length of `serialize_i64(x, None)` up
to 8 has `size` bytes and reads back as `x` without the minimality check. -/
theorem serializeI64_some_spec {x : ℤ} {v : List UInt8} (hv : serializeI64 x none = .ok v)
    {size : ℕ} (hsize : v.length ≤ size) (h8 : size ≤ 8) :
    ∃ w, serializeI64 x (some size) = .ok w ∧ w.length = size ∧ deserializeI64 w false = .ok x := by
  have hlen : (magnitudeBytes x.natAbs false).length ≤ size := by
    rw [serializeI64_none] at hv
    have hv' := Except.ok.inj hv
    split_ifs at hv' <;> rw [← hv'] at hsize
    · rwa [length_modifyLast] at hsize
    · exact hsize
  rw [serializeI64_some x hlen]
  by_cases hnil : magnitudeBytes x.natAbs false ++
      List.replicate (size - (magnitudeBytes x.natAbs false).length) 0 = []
  · -- no bytes at all: `x` is `0` and `size` is `0`
    have hx : x = 0 := by
      have := leValue_magnitudeBytes x.natAbs false
      rw [List.append_eq_nil_iff.mp hnil |>.1, leValue_nil] at this
      omega
    subst hx
    refine ⟨_, rfl, ?_, ?_⟩
    · simp only [lt_irrefl, if_false, List.length_append, List.length_replicate]
      omega
    · simp only [lt_irrefl, if_false, hnil]
      rfl
  · obtain ⟨init, top, hpad, htop, hval⟩ := padded_append_singleton _ _ hnil
    have hlen' : (init ++ [top]).length = size := by
      rw [← hpad, List.length_append, List.length_replicate]
      omega
    refine ⟨init ++ [if x < 0 then top ||| 0x80 else top], by rw [hpad, modifyLast_signed], ?_, ?_⟩
    · simpa using hlen'
    · apply deserializeI64_signed htop (by simp at hlen'; omega) hval.symm false
      intro h
      cases h

/-- Every byte string of at most 8 bytes that `check_minimal_data_encoding` accepts is
`serialize_i64` of what `deserialize_i64` reads from it. -/
theorem serializeI64_deserializeI64 {v : List UInt8} (hlen : v.length ≤ 8)
    (hcheck : checkMinimalDataEncoding v = .ok ()) :
    ∃ x, deserializeI64 v true = .ok x ∧ serializeI64 x none = .ok v := by
  rcases List.eq_nil_or_concat' v with rfl | ⟨init, l, rfl⟩
  · exact ⟨0, rfl, by rw [serializeI64_none, Int.natAbs_zero, magnitudeBytes_zero]; rfl⟩
  · have htop : (l &&& 0x7f).toNat < 128 := by
      rw [toNat_and_0x7f]
      omega
    have hmin : (l &&& 0x7f).toNat ≠ 0 ∨ 128 ≤ (init.getLastD 0).toNat := by
      rw [toNat_and_0x7f]
      exact (checkMinimalDataEncoding_append_singleton init l).mp hcheck
    have hbytes := magnitudeBytes_leValue htop hmin
    -- the magnitude is not zero: its bytes are not empty
    have hn : leValue (init ++ [l &&& 0x7f]) ≠ 0 := by
      intro h0
      rw [h0, magnitudeBytes_zero] at hbytes
      simp at hbytes
    -- the number read: the magnitude, negative when the sign bit of the top byte is set
    obtain ⟨x, hsign, habs⟩ : ∃ x : ℤ, (x < 0 ↔ 128 ≤ l.toNat) ∧
        x.natAbs = leValue (init ++ [l &&& 0x7f]) :=
      ⟨if 128 ≤ l.toNat then -(leValue (init ++ [l &&& 0x7f]) : ℤ)
        else leValue (init ++ [l &&& 0x7f]), by split_ifs <;> omega, by split_ifs <;> simp⟩
    have hl : l = if x < 0 then (l &&& 0x7f) ||| 0x80 else l &&& 0x7f := by
      rw [if_congr hsign rfl rfl]
      exact eq_signed_and_0x7f l
    refine ⟨x, ?_, ?_⟩
    · have hread := deserializeI64_signed htop (by simp at hlen; omega) habs true (fun _ => hmin)
      rwa [← hl] at hread
    · rw [serializeI64_none, habs, hbytes, modifyLast_signed, ← hl]

/-- Script numbers round-trip over `i64` without `i64::MIN`: `serialize_i64(x, None)` is
minimal and reads back as `x`; every minimal string of at most 8 bytes is written back by
`serialize_i64`; `serialize_i64(x, Some(size))` has `size` bytes and reads back as `x`; and every
accumulator of the fold of `deserialize_i64` on at most 8 bytes (`decodeFold_cons`: the fold
over the bytes above a position) lies in `[0, 2 ^ 63)`, so no shift or addition overflows. -/
theorem scriptNum_round_trip :
    (∀ x : ℤ, -2 ^ 63 < x → x < 2 ^ 63 →
      ∃ v, serializeI64 x none = .ok v ∧ v.length ≤ 8 ∧ checkMinimalDataEncoding v = .ok () ∧
        deserializeI64 v true = .ok x) ∧
    (∀ v : List UInt8, v.length ≤ 8 → checkMinimalDataEncoding v = .ok () →
      ∃ x, deserializeI64 v true = .ok x ∧ serializeI64 x none = .ok v) ∧
    (∀ (x : ℤ) (v : List UInt8) (size : ℕ), serializeI64 x none = .ok v → v.length ≤ size →
      size ≤ 8 →
      ∃ w, serializeI64 x (some size) = .ok w ∧ w.length = size ∧ deserializeI64 w false = .ok x) ∧
    (∀ v : List UInt8, v.length ≤ 8 → ∀ k : ℕ,
      0 ≤ decodeFold ((v.getD (v.length - 1) 0 &&& 0x7f).toNat) ((v.take (v.length - 1)).drop k) ∧
        decodeFold ((v.getD (v.length - 1) 0 &&& 0x7f).toNat) ((v.take (v.length - 1)).drop k) <
          2 ^ 63) := by
  refine ⟨fun x hlo hhi => serializeI64_none_spec hlo hhi,
    fun v hlen hcheck => serializeI64_deserializeI64 hlen hcheck,
    fun x v size hv hsize h8 => serializeI64_some_spec hv hsize h8, fun v hlen k => ?_⟩
  apply decodeFold_bounds
  · rw [toNat_and_0x7f]
    omega
  · rw [List.length_drop, List.length_take]
    omega

/-- `-255` is written `ff 80`, the case of the exception in `check_minimal_data_encoding`. -/
theorem scriptNum_round_trip_minus255 :
    (∃ v, serializeI64 (-255) none = .ok v ∧ v.length ≤ 8 ∧ checkMinimalDataEncoding v = .ok () ∧
      deserializeI64 v true = .ok (-255)) ∧
    (∃ x, deserializeI64 [0xff, 0x80] true = .ok x ∧ serializeI64 x none = .ok [0xff, 0x80]) ∧
    (∃ w, serializeI64 (-255) (some 4) = .ok w ∧ w.length = 4 ∧
      deserializeI64 w false = .ok (-255)) ∧
    (0 ≤ decodeFold ((([0xff, 0xff, 0xff, 0xff, 0xff, 0xff, 0xff, 0x7f] : List UInt8).getD 7 0 &&&
        0x7f).toNat) (([0xff, 0xff, 0xff, 0xff, 0xff, 0xff, 0xff, 0x7f] : List UInt8).take 7) ∧
      decodeFold ((([0xff, 0xff, 0xff, 0xff, 0xff, 0xff, 0xff, 0x7f] : List UInt8).getD 7 0 &&&
        0x7f).toNat) (([0xff, 0xff, 0xff, 0xff, 0xff, 0xff, 0xff, 0x7f] : List UInt8).take 7) <
        2 ^ 63) := by
  have hv : serializeI64 (-255) none = .ok [0xff, 0x80] := by
    rw [serializeI64_none]
    simp [magnitudeBytes_of_ne_zero, magnitudeBytes_zero]
    rfl
  exact ⟨scriptNum_round_trip.1 (-255) (by norm_num) (by norm_num),
    scriptNum_round_trip.2.1 [0xff, 0x80] (by decide) rfl,
    scriptNum_round_trip.2.2.1 (-255) [0xff, 0x80] 4 hv (by decide) (by decide),
    scriptNum_round_trip.2.2.2 [0xff, 0xff, 0xff, 0xff, 0xff, 0xff, 0xff, 0x7f] (by decide) 0⟩

end RustyKaspa.Txscript
