import RustyKaspa.Txscript.Opcodes
import Mathlib.Data.List.DropRight

/-!
# The script builder

Model of `ScriptBuilder` (`crypto/txscript/src/script_builder.rs` lines 66–327):
`add_op`, `canonical_data_size`, `add_raw_data`, `add_raw_data_with_data_opcode`,
`validate_data_push`, `add_data`, `add_i64` and `add_u64` behind `add_lock_time`
and `add_sequence`. A builder starts from `with_flags` and reads only
`covenants_enabled` of its flags.

Each call that returns `Ok` appends the bytes of one opcode: `add_op` the
opcode itself, and the others a push that leaves the call's bytes on the stack
when it is executed (`PushesData`, `CallSpec`).

Results:
* `addData_length`: `add_data` grows the script by `canonical_data_size(data)`;
* `pushesData_rawDataOpcode`: the opcode `add_data` writes leaves exactly the
  data on the stack, and passes `check_minimal_data_push` when it is a data push;
* `call_spec`: a call that returns `Ok` appends the bytes of one well-formed
  opcode, the one the call stands for;
* `run_parseScript`: a script built by calls that all return `Ok`, none of them
  an `add_op` of a data-carrying opcode, parses back into the calls' opcodes.

`add_op` takes any byte: `add_op(OpData1)` returns `Ok` with the script `[0x01]`,
which `parse_script` rejects, so `run_parseScript` excludes data-carrying
opcodes from `add_op` (`BuilderCall.Canonical`).
-/

namespace RustyKaspa.Txscript

/-- `max_scripts_size` (`lib.rs` lines 137–139). -/
def maxScriptsSize (covenantsEnabled : Bool) : ℕ :=
  if covenantsEnabled then 1000000 else 10000

/-- `ScriptBuilderError`. -/
inductive ScriptBuilderError where
  | opCodeRejected (opcode : UInt8) (max : ℕ)
  | dataRejected (size max : ℕ)
  | elementExceedsMaxSize (len max : ℕ)
  | integerRejected (val : ℤ) (max : ℕ)
  | serialization (e : SerializationError)
  deriving DecidableEq, Repr

/-- `ScriptBuilder`: the script, and `covenants_enabled` of its flags. -/
structure ScriptBuilder where
  script : List UInt8
  covenantsEnabled : Bool
  deriving DecidableEq, Repr

/-- The pattern `[OP_SMALL_INT_MIN_VAL..=OP_SMALL_INT_MAX_VAL]`. -/
def isSmallIntData : List UInt8 → Bool
  | [b] => 1 ≤ b && b ≤ 16
  | _ => false

/-- `canonical_data_size` (lines 130–148). -/
def canonicalDataSize (data : List UInt8) : ℕ :=
  if data = [] ∨ isSmallIntData data ∨ data = [0x81] then 1
  else
    data.length +
      if data.length ≤ 75 then 1
      else if data.length ≤ 255 then 2
      else if data.length ≤ 65535 then 3
      else 5

/-- `add_raw_data_with_data_opcode` (lines 262–287), on the script. -/
def addRawDataWithDataOpcode (script data : List UInt8) : List UInt8 :=
  let dataLen := data.length
  if dataLen = 0 then script ++ [0x00]
  else
    let script :=
      if dataLen ≤ 75 then script ++ [(0x01 - 1) + UInt8.ofNat dataLen]
      else if dataLen ≤ 255 then script ++ [0x4c, UInt8.ofNat dataLen]
      else if dataLen ≤ 65535 then script ++ 0x4d :: lengthBytes 2 dataLen
      else script ++ 0x4e :: lengthBytes 4 dataLen
    script ++ data

/-- `add_raw_data` (lines 154–170), on the script. -/
def addRawData (script data : List UInt8) : List UInt8 :=
  if data = [0x81] then script ++ [0x4f]
  else if isSmallIntData data then script ++ [(0x51 - 1) + data.headD 0]
  else addRawDataWithDataOpcode script data

namespace ScriptBuilder

/-- `ScriptBuilder::with_flags`. -/
def withFlags (covenantsEnabled : Bool) : ScriptBuilder := ⟨[], covenantsEnabled⟩

/-- `add_op` (lines 104–115). -/
def addOp (builder : ScriptBuilder) (opcode : UInt8) : Except ScriptBuilderError ScriptBuilder :=
  if builder.script.length ≥ maxScriptsSize builder.covenantsEnabled then
    .error (.opCodeRejected opcode (maxScriptsSize builder.covenantsEnabled))
  else .ok { builder with script := builder.script ++ [opcode] }

/-- `validate_data_push` (lines 185–202). -/
def validateDataPush (builder : ScriptBuilder) (data : List UInt8) (dataSize : ℕ) :
    Except ScriptBuilderError Unit :=
  if builder.script.length + dataSize > maxScriptsSize builder.covenantsEnabled then
    .error (.dataRejected dataSize (maxScriptsSize builder.covenantsEnabled))
  else if data.length > maxScriptElementSize builder.covenantsEnabled then
    .error (.elementExceedsMaxSize data.length (maxScriptElementSize builder.covenantsEnabled))
  else .ok ()

/-- `add_data` (lines 213–217). -/
def addData (builder : ScriptBuilder) (data : List UInt8) : Except ScriptBuilderError ScriptBuilder := do
  builder.validateDataPush data (canonicalDataSize data)
  pure { builder with script := addRawData builder.script data }

/-- `add_i64` (lines 289–307). `((Op1 as i64 - 1) + val) as u8` keeps the low
byte of a number between `0x4f` and `0x60`. -/
def addI64 (builder : ScriptBuilder) (val : Int64) : Except ScriptBuilderError ScriptBuilder := do
  if builder.script.length + 1 > maxScriptsSize builder.covenantsEnabled then
    throw (.integerRejected val.toInt (maxScriptsSize builder.covenantsEnabled))
  if val.toInt = 0 then return { builder with script := builder.script ++ [0x00] }
  if val.toInt = -1 ∨ (1 ≤ val.toInt ∧ val.toInt ≤ 16) then
    return { builder with script := builder.script ++ [UInt8.ofNat ((0x51 - 1 + val.toInt) % 256).toNat] }
  let bytes ← (opcodeDataSerializeI64 val.toInt).mapError .serialization
  builder.addData bytes

/-- `add_u64` (lines 321–326): the eight little-endian bytes of `val`, cut
after the last nonzero one. -/
def addU64 (builder : ScriptBuilder) (val : UInt64) : Except ScriptBuilderError ScriptBuilder :=
  let buffer := lengthBytes 8 val.toNat
  let trimmedSize := 8 - (buffer.reverse.findIdx? (· != 0)).getD 8
  builder.addData (buffer.take trimmedSize)

/-- `add_lock_time`. -/
def addLockTime (builder : ScriptBuilder) (lockTime : UInt64) : Except ScriptBuilderError ScriptBuilder :=
  builder.addU64 lockTime

/-- `add_sequence`. -/
def addSequence (builder : ScriptBuilder) (sequence : UInt64) : Except ScriptBuilderError ScriptBuilder :=
  builder.addU64 sequence

end ScriptBuilder

/-- The calls a script is built with: `add_op`, `add_data`, `add_i64`,
`add_lock_time` and `add_sequence`. -/
inductive BuilderCall where
  | addOp (opcode : UInt8)
  | addData (data : List UInt8)
  | addI64 (val : Int64)
  | addLockTime (lockTime : UInt64)
  | addSequence (sequence : UInt64)

namespace ScriptBuilder

/-- One call. -/
def call (builder : ScriptBuilder) : BuilderCall → Except ScriptBuilderError ScriptBuilder
  | .addOp opcode => builder.addOp opcode
  | .addData data => builder.addData data
  | .addI64 val => builder.addI64 val
  | .addLockTime lockTime => builder.addLockTime lockTime
  | .addSequence sequence => builder.addSequence sequence

/-- A sequence of calls, stopping at the first error. -/
def run (builder : ScriptBuilder) (calls : List BuilderCall) : Except ScriptBuilderError ScriptBuilder :=
  calls.foldlM call builder

end ScriptBuilder

/-! ## The opcodes the builder writes -/

/-- The opcode `add_raw_data_with_data_opcode` writes: `Op0` for no data, and
otherwise the shortest push for the data's length. -/
def dataPushOpcode (data : List UInt8) : Opcode :=
  if data.length = 0 then ⟨0x00, []⟩
  else if data.length ≤ 75 then ⟨UInt8.ofNat data.length, data⟩
  else if data.length ≤ 255 then ⟨0x4c, data⟩
  else if data.length ≤ 65535 then ⟨0x4d, data⟩
  else ⟨0x4e, data⟩

/-- The opcode `add_raw_data` writes: `Op1Negate` for `[0x81]`, `OpN` for a
single byte `N` from 1 to 16, and otherwise `dataPushOpcode`. -/
def rawDataOpcode (data : List UInt8) : Opcode :=
  if data = [0x81] then ⟨0x4f, []⟩
  else if isSmallIntData data then ⟨0x50 + data.headD 0, []⟩
  else dataPushOpcode data

/-- The bytes `add_u64` pushes: the eight little-endian bytes without their
trailing zeros. -/
def trimmedLeBytes (val : UInt64) : List UInt8 :=
  (lengthBytes 8 val.toNat).rdropWhile (· == 0)

/-- An opcode that leaves `data` on the stack: it carries the data, or is the
small-integer, `Op1Negate` or `Op0` form of it; and it passes
`check_minimal_data_push` when it is a data push. -/
def PushesData (covenantsEnabled : Bool) (data : List UInt8) (op : Opcode) : Prop :=
  (op.data = data ∨ op.data = [] ∧ data.length = 1) ∧ op.executePush covenantsEnabled = .ok data ∧
    (op.value ≤ 0x4e → op.checkMinimalDataPush = .ok ())

/-- The opcode a call stands for: `add_op` its opcode with no data, `add_data`
and `add_u64` a push of their bytes, `add_i64` a push of an element that
`deserialize_i64` reads back, minimally, as the number. -/
def CallSpec (covenantsEnabled : Bool) : BuilderCall → Opcode → Prop
  | .addOp opcode, op => op = ⟨opcode, []⟩
  | .addData data, op => PushesData covenantsEnabled data op
  | .addI64 val, op => (∃ element, op.executePush covenantsEnabled = .ok element ∧
      deserializeI64 element true = .ok val.toInt) ∧ (op.value ≤ 0x4e → op.checkMinimalDataPush = .ok ())
  | .addLockTime lockTime, op => PushesData covenantsEnabled (trimmedLeBytes lockTime) op
  | .addSequence sequence, op => PushesData covenantsEnabled (trimmedLeBytes sequence) op

/-- The calls of a canonical build: `add_op` is given no data-carrying opcode
(`OpData1`..`OpPushData4`). -/
def BuilderCall.Canonical : BuilderCall → Prop
  | .addOp opcode => ¬(0x01 ≤ opcode ∧ opcode ≤ 0x4e)
  | _ => True

/-! ## Numbers on the stack -/

/-- A number from 1 to 127 is its own byte. -/
theorem opcodeDataSerializeI64_small {d : ℕ} (h1 : 1 ≤ d) (h2 : d < 128) :
    opcodeDataSerializeI64 d = .ok [UInt8.ofNat d] := by
  have hmag : magnitudeBytes d false = [UInt8.ofNat d] := by
    rw [magnitudeBytes_of_ne_zero (by omega), Nat.mod_eq_of_lt (by omega), Nat.div_eq_of_lt (by omega),
      magnitudeBytes_zero, if_neg (by simp; omega)]
  unfold opcodeDataSerializeI64
  rw [serializeI64_none, if_neg (by omega), Int.natAbs_natCast, hmag]
  rfl

theorem opcodeDataSerializeI64_minus_one : opcodeDataSerializeI64 (-1) = .ok [0x81] := by
  simp [opcodeDataSerializeI64, serializeI64_none, magnitudeBytes_of_ne_zero, magnitudeBytes_zero]
  rfl

/-- `i64::MIN` takes nine bytes, one more than `OpcodeData::<i64>` allows. -/
theorem opcodeDataSerializeI64_minValue :
    opcodeDataSerializeI64 (-2 ^ 63) = .error (.numberTooLong (-2 ^ 63) 8) := by
  simp [opcodeDataSerializeI64, serializeI64_none, magnitudeBytes_of_ne_zero, magnitudeBytes_zero]
  decide

/-- Every `i64` but `i64::MIN` is written in at most 8 bytes, read back
minimally as itself. -/
theorem opcodeDataSerializeI64_of_range {x : ℤ} (hlo : -2 ^ 63 < x) (hhi : x < 2 ^ 63) :
    ∃ element, opcodeDataSerializeI64 x = .ok element ∧ deserializeI64 element true = .ok x := by
  obtain ⟨v, hv, hlen, -, hdes⟩ := serializeI64_none_spec hlo hhi
  refine ⟨v, ?_, hdes⟩
  unfold opcodeDataSerializeI64
  rw [hv]
  exact if_neg (by omega)

/-- What `OpcodeData::<i64>::serialize` writes for an `i64` is read back,
minimally, as the number. -/
theorem deserializeI64_of_opcodeDataSerializeI64 {x : Int64} {element : List UInt8}
    (h : opcodeDataSerializeI64 x.toInt = .ok element) : deserializeI64 element true = .ok x.toInt := by
  have hlo : -2 ^ 63 < x.toInt := by
    rcases (Int64.le_toInt x).lt_or_eq with hlt | heq
    · exact hlt
    · rw [← heq, opcodeDataSerializeI64_minValue] at h
      cases h
  obtain ⟨v, hok, hdes⟩ := opcodeDataSerializeI64_of_range hlo (Int64.toInt_lt x)
  rw [hok] at h
  cases h
  exact hdes

/-! ## The bytes `add_data` writes -/

theorem isSmallIntData_iff {data : List UInt8} :
    isSmallIntData data = true ↔ ∃ b : UInt8, data = [b] ∧ 1 ≤ b.toNat ∧ b.toNat ≤ 16 := by
  match data with
  | [] => simp [isSmallIntData]
  | [b] => simp [isSmallIntData, UInt8.le_iff_toNat_le]
  | _ :: _ :: _ => simp [isSmallIntData]

/-- `OpN` is `0x50 + N`, with no carry out of the byte. -/
theorem toNat_smallIntOpcode {b : UInt8} (h : b.toNat ≤ 16) : (0x50 + b).toNat = 80 + b.toNat := by
  rw [UInt8.toNat_add, show (0x50 : UInt8).toNat = 80 from rfl, show (2 : ℕ) ^ 8 = 256 from rfl]
  exact Nat.mod_eq_of_lt (by omega)

/-- `OpN` lies above `OpPushData4`. -/
theorem smallIntOpcode_gt {b : UInt8} (h : b.toNat ≤ 16) : (0x4e : UInt8) < 0x50 + b := by
  rw [UInt8.lt_iff_toNat_lt, toNat_smallIntOpcode h, show (0x4e : UInt8).toNat = 78 from rfl]
  omega

theorem byte_not_le_of_lt {a b : UInt8} (h : b < a) : ¬a ≤ b := fun hle => by
  have h1 := UInt8.lt_iff_toNat_lt.mp h
  have h2 := UInt8.le_iff_toNat_le.mp hle
  omega

theorem byte_ne_of_toNat_ne {a b : UInt8} (h : a.toNat ≠ b.toNat) : a ≠ b :=
  fun he => h (congrArg UInt8.toNat he)

theorem toNat_ofNat_of_lt {n : ℕ} (h : n < 256) : (UInt8.ofNat n).toNat = n := by
  rw [UInt8.toNat_ofNat', show (2 : ℕ) ^ 8 = 256 from rfl, Nat.mod_eq_of_lt h]

/-- `OpDataN` for a length `N` from 1 to 75 carries `N` bytes. -/
theorem opcodeLength_ofNat_length {n : ℕ} (h1 : 1 ≤ n) (h75 : n ≤ 75) :
    opcodeLength (UInt8.ofNat n) = .fixed (n + 1) := by
  have hval := toNat_ofNat_of_lt (show n < 256 by omega)
  rw [opcodeLength_of_le (by rw [hval]; omega) (by rw [hval]; omega), hval]

theorem addRawDataWithDataOpcode_eq (script data : List UInt8) :
    addRawDataWithDataOpcode script data = script ++ (dataPushOpcode data).serialize := by
  unfold addRawDataWithDataOpcode dataPushOpcode
  dsimp only
  by_cases h0 : data.length = 0
  · rw [if_pos h0, if_pos h0, Opcode.serialize_fixed opcodeLength_zero]
  rw [if_neg h0, if_neg h0]
  by_cases h75 : data.length ≤ 75
  · -- `OpDataN`: the length is the opcode
    rw [if_pos h75, if_pos h75, Opcode.serialize_fixed (opcodeLength_ofNat_length (by omega) h75)]
    simp
  rw [if_neg h75, if_neg h75]
  by_cases h255 : data.length ≤ 255
  · rw [if_pos h255, if_pos h255, Opcode.serialize_prefixed (show opcodeLength 0x4c = .prefixed 1 from rfl)]
    simp [lengthBytes, BigEndian.leBytes, UInt8.ofNat_mod_size']
  rw [if_neg h255, if_neg h255]
  by_cases h65535 : data.length ≤ 65535
  · rw [if_pos h65535, if_pos h65535, Opcode.serialize_prefixed (show opcodeLength 0x4d = .prefixed 2 from rfl)]
    simp
  · rw [if_neg h65535, if_neg h65535, Opcode.serialize_prefixed (show opcodeLength 0x4e = .prefixed 4 from rfl)]
    simp

theorem addRawData_eq (script data : List UInt8) :
    addRawData script data = script ++ (rawDataOpcode data).serialize := by
  unfold addRawData rawDataOpcode
  by_cases h81 : data = [0x81]
  · rw [if_pos h81, if_pos h81, Opcode.serialize_fixed (show opcodeLength 0x4f = .fixed 1 from rfl)]
  rw [if_neg h81, if_neg h81]
  by_cases hs : isSmallIntData data = true
  · -- `OpN` for the single byte `N`
    obtain ⟨b, rfl, -, hb16⟩ := isSmallIntData_iff.mp hs
    have hgt : (0x4e : UInt8) < 0x50 + [b].headD 0 := smallIntOpcode_gt hb16
    rw [if_pos hs, if_pos hs, Opcode.serialize_fixed (opcodeLength_of_gt hgt)]
    rfl
  · rw [if_neg hs, if_neg hs, addRawDataWithDataOpcode_eq]

/-! ## The opcode of a data push -/

theorem dataPushOpcode_data (data : List UInt8) : (dataPushOpcode data).data = data := by
  unfold dataPushOpcode
  split_ifs with h0
  · exact (List.length_eq_zero_iff.mp h0).symm
  all_goals rfl

theorem dataPushOpcode_value_le (data : List UInt8) : (dataPushOpcode data).value ≤ 0x4e := by
  unfold dataPushOpcode
  split_ifs with h0 h75
  · decide
  · rw [UInt8.le_iff_toNat_le, toNat_ofNat_of_lt (by omega)]
    simp only [UInt8.toNat_ofNat]
    omega
  all_goals
    dsimp only
    decide

theorem length_serialize_dataPushOpcode {data : List UInt8} (h0 : data.length ≠ 0) :
    (dataPushOpcode data).serialize.length =
      data.length + if data.length ≤ 75 then 1 else if data.length ≤ 255 then 2
        else if data.length ≤ 65535 then 3 else 5 := by
  unfold dataPushOpcode
  rw [if_neg h0]
  by_cases h75 : data.length ≤ 75
  · rw [if_pos h75, if_pos h75, Opcode.serialize_fixed (opcodeLength_ofNat_length (by omega) h75),
      List.length_cons]
  rw [if_neg h75, if_neg h75]
  by_cases h255 : data.length ≤ 255
  · rw [if_pos h255, if_pos h255, Opcode.serialize_prefixed (show opcodeLength 0x4c = .prefixed 1 from rfl)]
    simp only [List.length_cons, List.length_append, length_lengthBytes]
    omega
  rw [if_neg h255, if_neg h255]
  by_cases h65535 : data.length ≤ 65535
  · rw [if_pos h65535, if_pos h65535, Opcode.serialize_prefixed (show opcodeLength 0x4d = .prefixed 2 from rfl)]
    simp only [List.length_cons, List.length_append, length_lengthBytes]
    omega
  · rw [if_neg h65535, if_neg h65535, Opcode.serialize_prefixed (show opcodeLength 0x4e = .prefixed 4 from rfl)]
    simp only [List.length_cons, List.length_append, length_lengthBytes]
    omega

/-- `canonical_data_size` is the length of what `add_raw_data` writes. -/
theorem length_serialize_rawDataOpcode (data : List UInt8) :
    (rawDataOpcode data).serialize.length = canonicalDataSize data := by
  unfold rawDataOpcode canonicalDataSize
  by_cases h81 : data = [0x81]
  · rw [if_pos h81, if_pos (Or.inr (Or.inr h81))]
    rfl
  rw [if_neg h81]
  by_cases hs : isSmallIntData data = true
  · obtain ⟨b, rfl, -, hb16⟩ := isSmallIntData_iff.mp hs
    have hgt : (0x4e : UInt8) < 0x50 + [b].headD 0 := smallIntOpcode_gt hb16
    rw [if_pos hs, if_pos (Or.inr (Or.inl hs)), Opcode.serialize_fixed (opcodeLength_of_gt hgt)]
    rfl
  rw [if_neg hs]
  by_cases h0 : data = []
  · subst h0
    rfl
  rw [if_neg (by simp only [h0, hs, h81, Bool.false_eq_true, or_self, not_false_eq_true]),
    length_serialize_dataPushOpcode (fun h => h0 (List.length_eq_zero_iff.mp h))]

theorem wellFormed_dataPushOpcode {data : List UInt8} (h : data.length < 2 ^ 32) :
    (dataPushOpcode data).WellFormed := by
  unfold dataPushOpcode
  by_cases h0 : data.length = 0
  · rw [if_pos h0]
    rfl
  rw [if_neg h0]
  by_cases h75 : data.length ≤ 75
  · rw [if_pos h75, Opcode.WellFormed, opcodeLength_ofNat_length (by omega) h75]
    show data.length = data.length + 1 - 1
    omega
  rw [if_neg h75]
  by_cases h255 : data.length ≤ 255
  · rw [if_pos h255]
    show data.length < 256 ^ 1
    omega
  rw [if_neg h255]
  by_cases h65535 : data.length ≤ 65535
  · rw [if_pos h65535]
    show data.length < 256 ^ 2
    omega
  · rw [if_neg h65535]
    show data.length < 256 ^ 4
    omega

theorem wellFormed_rawDataOpcode {data : List UInt8} (h : data.length < 2 ^ 32) :
    (rawDataOpcode data).WellFormed := by
  unfold rawDataOpcode
  by_cases h81 : data = [0x81]
  · rw [if_pos h81]
    rfl
  rw [if_neg h81]
  by_cases hs : isSmallIntData data = true
  · obtain ⟨b, rfl, -, hb16⟩ := isSmallIntData_iff.mp hs
    have hgt : (0x4e : UInt8) < 0x50 + [b].headD 0 := smallIntOpcode_gt hb16
    rw [if_pos hs, Opcode.WellFormed, opcodeLength_of_gt hgt]
    rfl
  · rw [if_neg hs]
    exact wellFormed_dataPushOpcode h

/-- A data push of data that is neither a small integer nor `-1` is minimal. -/
theorem checkMinimalDataPush_dataPushOpcode {data : List UInt8} (h81 : data ≠ [0x81])
    (hs : isSmallIntData data = false) : (dataPushOpcode data).checkMinimalDataPush = .ok () := by
  unfold dataPushOpcode
  by_cases h0 : data.length = 0
  · rw [if_pos h0]
    rfl
  rw [if_neg h0]
  -- the tests for a small integer and for `-1` fail on such data
  have hsmall : ¬(data.length = 1 ∧ 1 ≤ data.headD 0 ∧ data.headD 0 ≤ 16) := by
    rintro ⟨h1, hb1, hb16⟩
    obtain ⟨b, rfl⟩ := List.length_eq_one_iff.mp h1
    rw [List.headD_cons] at hb1 hb16
    simp [isSmallIntData, hb1, hb16] at hs
  have hneg : ¬(data.length = 1 ∧ data.headD 0 = 0x81) := by
    rintro ⟨h1, hb⟩
    obtain ⟨b, rfl⟩ := List.length_eq_one_iff.mp h1
    rw [List.headD_cons] at hb
    exact h81 (by rw [hb])
  by_cases h75 : data.length ≤ 75
  · rw [if_pos h75]
    dsimp only [Opcode.checkMinimalDataPush]
    rw [if_neg h0, if_neg hsmall, if_neg hneg, if_pos h75,
      if_neg (by rw [toNat_ofNat_of_lt (by omega)]; exact not_not.mpr rfl)]
  rw [if_neg h75]
  by_cases h255 : data.length ≤ 255
  · rw [if_pos h255]
    dsimp only [Opcode.checkMinimalDataPush]
    rw [if_neg h0, if_neg hsmall, if_neg hneg, if_neg h75, if_pos h255, if_neg (not_not.mpr rfl)]
  rw [if_neg h255]
  by_cases h65535 : data.length ≤ 65535
  · rw [if_pos h65535]
    dsimp only [Opcode.checkMinimalDataPush]
    rw [if_neg h0, if_neg hsmall, if_neg hneg, if_neg h75, if_neg h255, if_neg (fun h => h.2 rfl)]
  · rw [if_neg h65535]
    dsimp only [Opcode.checkMinimalDataPush]
    rw [if_neg h0, if_neg hsmall, if_neg hneg, if_neg h75, if_neg h255, if_neg (fun h => by omega)]

/-- The opcode `add_raw_data` writes leaves exactly the data on the stack, and
passes `check_minimal_data_push` when it is a data push. -/
theorem pushesData_rawDataOpcode {covenantsEnabled : Bool} {data : List UInt8}
    (h : data.length ≤ maxScriptElementSize covenantsEnabled) :
    PushesData covenantsEnabled data (rawDataOpcode data) := by
  unfold rawDataOpcode
  by_cases h81 : data = [0x81]
  · -- `Op1Negate` pushes the number -1, whose byte is `0x81`
    subst h81
    rw [if_pos rfl]
    refine ⟨Or.inr ⟨rfl, rfl⟩, ?_, fun hv => absurd hv (by decide)⟩
    rw [Opcode.executePush_of_gt (by simp) (by decide), Opcode.pushedElement, if_neg (by decide),
      if_neg (by decide), if_pos rfl, opcodeDataSerializeI64_minus_one]
    rfl
  rw [if_neg h81]
  by_cases hs : isSmallIntData data = true
  · -- `OpN` pushes the number `N`, whose byte is `N`
    obtain ⟨b, rfl, hb1, hb16⟩ := isSmallIntData_iff.mp hs
    rw [if_pos hs, List.headD_cons]
    have hval := toNat_smallIntOpcode hb16
    have hgt := smallIntOpcode_gt hb16
    refine ⟨Or.inr ⟨rfl, rfl⟩, ?_, fun hv => absurd hv (byte_not_le_of_lt hgt)⟩
    rw [Opcode.executePush_of_gt (by simp) hgt, Opcode.pushedElement]
    dsimp only
    rw [if_neg (byte_not_le_of_lt hgt),
      if_neg (byte_ne_of_toNat_ne (by rw [hval]; simp only [UInt8.reduceToNat]; omega)),
      if_neg (byte_ne_of_toNat_ne (by rw [hval]; simp only [UInt8.reduceToNat]; omega)),
      hval, show ((80 + b.toNat : ℕ) : ℤ) - 0x50 = ((b.toNat : ℕ) : ℤ) by omega,
      opcodeDataSerializeI64_small hb1 (by omega),
      UInt8.ofNat_toNat]
    rfl
  · rw [if_neg hs]
    have hmin := checkMinimalDataPush_dataPushOpcode h81 (Bool.eq_false_iff.mpr hs)
    refine ⟨Or.inl (dataPushOpcode_data data), ?_, fun _ => hmin⟩
    rw [Opcode.executePush_of_le (by rw [dataPushOpcode_data]; exact h) (dataPushOpcode_value_le data) hmin,
      dataPushOpcode_data]

/-! ## One call -/

theorem maxScriptElementSize_lt (covenantsEnabled : Bool) : maxScriptElementSize covenantsEnabled < 2 ^ 32 := by
  cases covenantsEnabled <;> decide

/-- `add_data` checks the sizes, then writes the opcode of `add_raw_data`. -/
theorem addData_spec {builder builder' : ScriptBuilder} {data : List UInt8}
    (h : builder.addData data = .ok builder') :
    builder'.script = builder.script ++ (rawDataOpcode data).serialize ∧
      builder'.covenantsEnabled = builder.covenantsEnabled ∧
      data.length ≤ maxScriptElementSize builder.covenantsEnabled := by
  unfold ScriptBuilder.addData ScriptBuilder.validateDataPush at h
  by_cases hscript : builder.script.length + canonicalDataSize data > maxScriptsSize builder.covenantsEnabled
  · rw [if_pos hscript] at h
    cases h
  rw [if_neg hscript] at h
  by_cases helement : data.length > maxScriptElementSize builder.covenantsEnabled
  · rw [if_pos helement] at h
    cases h
  rw [if_neg helement] at h
  cases h
  exact ⟨addRawData_eq _ _, rfl, Nat.le_of_not_lt helement⟩

/-- `add_data` grows the script by `canonical_data_size(data)`. -/
theorem addData_length {builder builder' : ScriptBuilder} {data : List UInt8}
    (h : builder.addData data = .ok builder') :
    builder'.script.length = builder.script.length + canonicalDataSize data := by
  rw [(addData_spec h).1, List.length_append, length_serialize_rawDataOpcode]

/-- `add_i64` writes `Op0`, `Op1Negate` or `OpN` for 0, -1 and 1 to 16, and
otherwise the push `add_data` makes of the number's bytes; each leaves an
element that reads back, minimally, as the number. -/
theorem addI64_spec {builder builder' : ScriptBuilder} {val : Int64} (h : builder.addI64 val = .ok builder') :
    ∃ op, builder'.script = builder.script ++ op.serialize ∧
      builder'.covenantsEnabled = builder.covenantsEnabled ∧ op.WellFormed ∧
      CallSpec builder.covenantsEnabled (.addI64 val) op := by
  unfold ScriptBuilder.addI64 at h
  dsimp only at h
  by_cases hscript : builder.script.length + 1 > maxScriptsSize builder.covenantsEnabled
  · rw [if_pos hscript] at h
    cases h
  rw [if_neg hscript] at h
  by_cases h0 : val.toInt = 0
  · -- `Op0` pushes the empty element, which reads as 0
    rw [if_pos h0] at h
    cases h
    refine ⟨⟨0x00, []⟩, rfl, rfl, rfl, ⟨[], ?_, ?_⟩, fun _ => rfl⟩
    · exact Opcode.executePush_of_le (by simp) (by decide) rfl
    · rw [h0]
      rfl
  rw [if_neg h0] at h
  by_cases hsmall : val.toInt = -1 ∨ 1 ≤ val.toInt ∧ val.toInt ≤ 16
  · -- `Op1Negate` or `OpN`: the literal number is pushed
    rw [if_pos hsmall] at h
    cases h
    have hrange : ((0x51 - 1 + val.toInt) % 256).toNat = (80 + val.toInt).toNat ∧
        79 ≤ (80 + val.toInt).toNat ∧ (80 + val.toInt).toNat ≤ 96 := by omega
    have hval : (UInt8.ofNat ((0x51 - 1 + val.toInt) % 256).toNat).toNat = (80 + val.toInt).toNat := by
      rw [hrange.1, toNat_ofNat_of_lt (by omega)]
    have hgt : (0x4e : UInt8) < UInt8.ofNat ((0x51 - 1 + val.toInt) % 256).toNat := by
      rw [UInt8.lt_iff_toNat_lt, hval, show (0x4e : UInt8).toNat = 78 from rfl]
      omega
    obtain ⟨element, hser, hdes⟩ := @opcodeDataSerializeI64_of_range val.toInt (by omega) (by omega)
    refine ⟨⟨UInt8.ofNat ((0x51 - 1 + val.toInt) % 256).toNat, []⟩,
      by rw [Opcode.serialize_fixed (opcodeLength_of_gt hgt)], rfl, ?_, ⟨element, ?_, hdes⟩,
      fun hv => absurd hv (byte_not_le_of_lt hgt)⟩
    · rw [Opcode.WellFormed, opcodeLength_of_gt hgt]
      rfl
    rw [Opcode.executePush_of_gt (by simp) hgt, Opcode.pushedElement]
    dsimp only
    rw [if_neg (byte_not_le_of_lt hgt)]
    rcases hsmall with hneg | hpos
    · -- `Op1Negate` is `0x4f`
      have h4f : UInt8.ofNat ((0x51 - 1 + val.toInt) % 256).toNat = 0x4f :=
        UInt8.toNat_inj.mp (by rw [hval, show (0x4f : UInt8).toNat = 79 from rfl]; omega)
      rw [h4f, if_neg (by decide), if_pos rfl, ← hneg, hser]
      rfl
    · -- `OpN` is `0x50 + N`
      rw [if_neg (byte_ne_of_toNat_ne (by rw [hval]; simp only [UInt8.reduceToNat]; omega)),
        if_neg (byte_ne_of_toNat_ne (by rw [hval]; simp only [UInt8.reduceToNat]; omega)), hval,
        show (((80 + val.toInt).toNat : ℕ) : ℤ) - 0x50 = val.toInt by omega, hser]
      rfl
  rw [if_neg hsmall] at h
  -- otherwise the number's bytes go through `add_data`
  obtain ⟨bytes, hbytes, hadd⟩ :
      ∃ bytes, opcodeDataSerializeI64 val.toInt = .ok bytes ∧ builder.addData bytes = .ok builder' := by
    cases hser : opcodeDataSerializeI64 val.toInt with
    | error e =>
      rw [hser] at h
      cases h
    | ok bytes =>
      rw [hser] at h
      exact ⟨bytes, rfl, h⟩
  obtain ⟨hscript', hcov, hsize⟩ := addData_spec hadd
  obtain ⟨-, hpush, hmin⟩ := pushesData_rawDataOpcode hsize
  exact ⟨rawDataOpcode bytes, hscript', hcov,
    wellFormed_rawDataOpcode (lt_of_le_of_lt hsize (maxScriptElementSize_lt _)),
    ⟨bytes, hpush, deserializeI64_of_opcodeDataSerializeI64 hbytes⟩, hmin⟩

/-- An opcode outside `OpData1`..`OpPushData4` is the single byte. -/
theorem opcodeLength_of_canonical {opcode : UInt8} (h : ¬(0x01 ≤ opcode ∧ opcode ≤ 0x4e)) :
    opcodeLength opcode = .fixed 1 := by
  by_cases h0 : opcode = 0
  · rw [h0, opcodeLength_zero]
  · refine opcodeLength_of_gt (UInt8.lt_iff_toNat_lt.mpr ?_)
    have hne : opcode.toNat ≠ 0 := fun he => h0 (UInt8.toNat_inj.mp he)
    rw [UInt8.le_iff_toNat_le, UInt8.le_iff_toNat_le] at h
    simp only [UInt8.toNat_ofNat] at h ⊢
    omega

theorem addOp_spec {builder builder' : ScriptBuilder} {opcode : UInt8} (h : builder.addOp opcode = .ok builder') :
    builder'.script = builder.script ++ [opcode] ∧ builder'.covenantsEnabled = builder.covenantsEnabled := by
  unfold ScriptBuilder.addOp at h
  split at h
  · cases h
  · cases h
    exact ⟨rfl, rfl⟩

/-- Cutting a list after its last element that passes a test drops the
elements after it. -/
theorem take_findIdx?_reverse {α : Type*} (p : α → Bool) (l : List α) :
    l.take (l.length - (l.reverse.findIdx? p).getD l.length) = l.rdropWhile (fun x => !p x) := by
  induction l using List.reverseRecOn with
  | nil => rfl
  | append_singleton l a ih =>
    rw [List.reverse_append, List.reverse_singleton, List.singleton_append, List.findIdx?_cons,
      List.length_append, List.length_singleton, List.rdropWhile_concat]
    by_cases hp : p a = true
    · rw [if_pos hp, if_neg (by simp [hp]), Option.getD_some, Nat.sub_zero,
        List.take_of_length_le (by simp)]
    · -- the last element fails the test: it goes, and the index moves by one
      have hk : ((l.reverse.findIdx? p).map (· + 1)).getD (l.length + 1) =
          (l.reverse.findIdx? p).getD l.length + 1 := by
        cases l.reverse.findIdx? p <;> rfl
      have hle : (l.reverse.findIdx? p).getD l.length ≤ l.length := by
        cases hidx : l.reverse.findIdx? p with
        | none => exact le_refl _
        | some i =>
          have := List.findIdx?_eq_some_iff_findIdx_eq.mp hidx
          rw [Option.getD_some, ← List.length_reverse]
          exact le_of_lt this.1
      rw [if_neg hp, if_pos (by simpa using hp), hk, Nat.add_sub_add_right,
        List.take_append_of_le_length (by omega), ih]

/-- `add_u64` pushes the eight little-endian bytes without their trailing zeros. -/
theorem addU64_eq (builder : ScriptBuilder) (val : UInt64) :
    builder.addU64 val = builder.addData (trimmedLeBytes val) := by
  have htrim := take_findIdx?_reverse (· != (0 : UInt8)) (lengthBytes 8 val.toNat)
  rw [length_lengthBytes] at htrim
  unfold ScriptBuilder.addU64 trimmedLeBytes
  dsimp only
  rw [htrim]
  congr 2
  funext x
  rw [bne, Bool.not_not]

/-- A call that returns `Ok` appends the bytes of one well-formed opcode, the
one the call stands for. -/
theorem call_spec {builder builder' : ScriptBuilder} {call : BuilderCall} (hcanon : call.Canonical)
    (h : builder.call call = .ok builder') :
    ∃ op, builder'.script = builder.script ++ op.serialize ∧
      builder'.covenantsEnabled = builder.covenantsEnabled ∧ op.WellFormed ∧
      CallSpec builder.covenantsEnabled call op := by
  -- `add_data` and `add_u64` write the opcode of `add_raw_data`
  have hdata : ∀ data, builder.addData data = .ok builder' →
      ∃ op, builder'.script = builder.script ++ op.serialize ∧
        builder'.covenantsEnabled = builder.covenantsEnabled ∧ op.WellFormed ∧
        PushesData builder.covenantsEnabled data op := by
    intro data hadd
    obtain ⟨hscript, hcov, hsize⟩ := addData_spec hadd
    exact ⟨rawDataOpcode data, hscript, hcov,
      wellFormed_rawDataOpcode (lt_of_le_of_lt hsize (maxScriptElementSize_lt _)),
      pushesData_rawDataOpcode hsize⟩
  cases call with
  | addOp opcode =>
    obtain ⟨hscript, hcov⟩ := addOp_spec h
    have hlen := opcodeLength_of_canonical hcanon
    refine ⟨⟨opcode, []⟩, by rw [hscript, Opcode.serialize_fixed hlen], hcov, ?_, rfl⟩
    rw [Opcode.WellFormed, hlen]
    rfl
  | addData data => exact hdata data h
  | addI64 val => exact addI64_spec h
  | addLockTime lockTime =>
    exact hdata _ (by rw [← addU64_eq]; exact h)
  | addSequence sequence =>
    exact hdata _ (by rw [← addU64_eq]; exact h)

/-- A run of calls that all return `Ok` appends, call by call, the bytes of
the opcodes the calls stand for. -/
theorem run_spec {calls : List BuilderCall} (hcalls : ∀ call ∈ calls, call.Canonical)
    {builder builder' : ScriptBuilder} (h : builder.run calls = .ok builder') :
    ∃ ops, builder'.script = builder.script ++ (ops.map Opcode.serialize).flatten ∧
      builder'.covenantsEnabled = builder.covenantsEnabled ∧ (∀ op ∈ ops, op.WellFormed) ∧
      List.Forall₂ (CallSpec builder.covenantsEnabled) calls ops := by
  induction calls generalizing builder with
  | nil =>
    cases h
    exact ⟨[], by simp, rfl, by simp, List.Forall₂.nil⟩
  | cons call calls ih =>
    rw [ScriptBuilder.run, List.foldlM_cons] at h
    cases hcall : builder.call call with
    | error e =>
      rw [hcall] at h
      cases h
    | ok builder₁ =>
      rw [hcall] at h
      obtain ⟨op, hscript₁, hcov₁, hwf₁, hspec₁⟩ := call_spec (hcalls call List.mem_cons_self) hcall
      obtain ⟨ops, hscript, hcov, hwf, hspec⟩ :=
        ih (fun c hc => hcalls c (List.mem_cons_of_mem _ hc)) h
      refine ⟨op :: ops, ?_, hcov.trans hcov₁, ?_, List.Forall₂.cons hspec₁ (hcov₁ ▸ hspec)⟩
      · rw [hscript, hscript₁, List.map_cons, List.flatten_cons, List.append_assoc]
      · intro o ho
        rcases List.mem_cons.mp ho with rfl | ho
        · exact hwf₁
        · exact hwf o ho

/-- A script built from `with_flags` by calls that all return `Ok`, none of
them an `add_op` of a data-carrying opcode, parses back into the opcodes the
calls stand for. -/
theorem run_parseScript {covenantsEnabled : Bool} {calls : List BuilderCall}
    (hcalls : ∀ call ∈ calls, call.Canonical) {builder : ScriptBuilder}
    (h : (ScriptBuilder.withFlags covenantsEnabled).run calls = .ok builder) :
    ∃ ops, parseScript builder.script = ops.map .ok ∧ List.Forall₂ (CallSpec covenantsEnabled) calls ops := by
  obtain ⟨ops, hscript, -, hwf, hspec⟩ := run_spec hcalls h
  refine ⟨ops, ?_, hspec⟩
  rw [hscript, ScriptBuilder.withFlags, List.nil_append]
  exact parseScript_serialize ops hwf

theorem script_bytes_opcodes_round_trip :
    (∀ (s : List UInt8) (ops : List Opcode), parseScript s = ops.map .ok →
      (ops.map Opcode.serialize).flatten = s) ∧
    (∀ (covenantsEnabled : Bool) (calls : List BuilderCall) (builder : ScriptBuilder),
      (∀ call ∈ calls, call.Canonical) →
      (ScriptBuilder.withFlags covenantsEnabled).run calls = .ok builder →
      ∃ ops, parseScript builder.script = ops.map .ok ∧
        List.Forall₂ (CallSpec covenantsEnabled) calls ops) ∧
    (∀ (builder builder' : ScriptBuilder) (data : List UInt8), builder.addData data = .ok builder' →
      builder'.script.length = builder.script.length + canonicalDataSize data) :=
  ⟨serialize_parseScript, fun _ _ _ hcalls h => run_parseScript hcalls h,
    fun _ _ _ h => addData_length h⟩

/-- A small integer, a two-byte push and a signature check, written and read back. -/
theorem script_bytes_opcodes_round_trip_small :
    (parseScript [0x51, 0x01, 0x07] = [⟨0x51, []⟩, ⟨0x01, [0x07]⟩].map .ok ∧
      ([⟨0x51, []⟩, ⟨0x01, [0x07]⟩].map Opcode.serialize).flatten = [0x51, 0x01, 0x07]) ∧
    ((∀ call ∈ [.addI64 5, .addData [1, 2], .addOp 0xac], BuilderCall.Canonical call) ∧
      (ScriptBuilder.withFlags false).run [.addI64 5, .addData [1, 2], .addOp 0xac] =
        .ok ⟨[0x55, 0x02, 0x01, 0x02, 0xac], false⟩ ∧
      ∃ ops, parseScript [0x55, 0x02, 0x01, 0x02, 0xac] = ops.map .ok ∧
        List.Forall₂ (CallSpec false) [.addI64 5, .addData [1, 2], .addOp 0xac] ops) ∧
    ((ScriptBuilder.withFlags false).addData [1, 2] = .ok ⟨[0x02, 0x01, 0x02], false⟩ ∧
      [0x02, 0x01, 0x02].length = ([] : List UInt8).length + canonicalDataSize [1, 2]) := by
  have hparse : parseScript [0x51, 0x01, 0x07] = [⟨0x51, []⟩, ⟨0x01, [0x07]⟩].map .ok := by
    simp [parseScript_cons, deserialize, opcodeLength, parseScript_nil]
  have hcanon : ∀ call ∈ [.addI64 5, .addData [1, 2], .addOp 0xac], BuilderCall.Canonical call := by
    intro call hcall
    simp only [List.mem_cons, List.not_mem_nil, or_false] at hcall
    rcases hcall with rfl | rfl | rfl
    · trivial
    · trivial
    · show ¬((0x01 : UInt8) ≤ 0xac ∧ (0xac : UInt8) ≤ 0x4e)
      decide
  have hadd : (ScriptBuilder.withFlags false).addData [1, 2] = .ok ⟨[0x02, 0x01, 0x02], false⟩ := rfl
  exact ⟨⟨hparse, script_bytes_opcodes_round_trip.1 _ _ hparse⟩,
    ⟨hcanon, rfl, script_bytes_opcodes_round_trip.2.1 false _ _ hcanon rfl⟩,
    ⟨hadd, script_bytes_opcodes_round_trip.2.2 (ScriptBuilder.withFlags false) _ [1, 2] hadd⟩⟩

/-- `add_op` accepts a data-carrying opcode and writes it without its data, so
the script it builds does not parse. -/
theorem addOp_dataOpcode_unparseable :
    (ScriptBuilder.withFlags false).run [.addOp 0x01] = .ok ⟨[0x01], false⟩ ∧
      parseScript [0x01] = [.error (.malformedPush 1 0)] := by
  refine ⟨rfl, ?_⟩
  simp [parseScript_cons, deserialize, opcodeLength, parseScript_nil]

end RustyKaspa.Txscript
