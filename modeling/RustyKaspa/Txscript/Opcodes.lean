import RustyKaspa.Txscript.ScriptNum
import RustyKaspa.Lib.BigEndian

/-!
# Script opcodes as bytes

Model of the byte layout of opcodes (`crypto/txscript/src/opcodes/macros.rs`
lines 1–62 and 125–134, with the `$length` column of the opcode table of
`opcodes/mod.rs`), of `parse_script` (`lib.rs` lines 187–191), of
`check_minimal_data_push` (`opcodes/mod.rs` lines 178–223) and of what executing
a push opcode leaves on the stack (`execute_opcode`, `lib.rs` lines 612–637).

An opcode is its byte and its data. `OpData1`..`OpData75` carry as many data
bytes as their value, `OpPushData1/2/4` a 1-, 2- or 4-byte little-endian length
and then the data, and every other opcode is the single byte. The table is one
fixed-length case and one length-prefixed case (`opcodeLength`), and each is
proved once.

Results:
* `deserialize_serialize`: the bytes of a well-formed opcode, followed by any
  bytes, deserialize to the opcode and use up exactly its bytes;
* `serialize_of_deserialize`: what `deserialize` accepts is the serialization of
  the opcode it returns;
* `parseScript_serialize`: parsing the bytes of well-formed opcodes gives them
  back;
* `serialize_parseScript`: when every item of `parse_script(s)` is `Ok`,
  serializing the opcodes in order gives back `s`.
-/

namespace RustyKaspa.Txscript

/-- The `$length` of an opcode in `opcode_list!`: a literal `length` is the
opcode byte and `length - 1` data bytes; a type `u8`, `u16` or `u32` is the
opcode byte, a little-endian length of `width` bytes and the data. -/
inductive OpcodeLength where
  | fixed (length : ℕ)
  | prefixed (width : ℕ)
  deriving DecidableEq, Repr

/-- The `$length` column of the opcode table (`opcodes/mod.rs` lines 320–...):
`OpDataN<N, N + 1>` for `N` up to 75, `OpPushData1<0x4c, u8>`,
`OpPushData2<0x4d, u16>`, `OpPushData4<0x4e, u32>`, and `1` for the rest. -/
def opcodeLength (value : UInt8) : OpcodeLength :=
  if value = 0x4c then .prefixed 1
  else if value = 0x4d then .prefixed 2
  else if value = 0x4e then .prefixed 4
  else if 0x01 ≤ value ∧ value ≤ 0x4b then .fixed (value.toNat + 1)
  else .fixed 1

/-- An `OpCode<CODE>` with its data. -/
structure Opcode where
  value : UInt8
  data : List UInt8
  deriving DecidableEq, Repr

/-- `(n as uW).to_le_bytes()`: the `width` low bytes of `n`, least significant
first. -/
def lengthBytes (width n : ℕ) : List UInt8 :=
  (BigEndian.leBytes width n).map UInt8.ofNat

/-- `max_script_element_size` (`lib.rs` lines 141–143). -/
def maxScriptElementSize (covenantsEnabled : Bool) : ℕ :=
  if covenantsEnabled then 1000000 else 520

/-- `OpcodeData::<i64>::serialize` (`data_stack.rs` lines 216–219 and 253–260):
`serialize_i64(x, None)`, rejected beyond 8 bytes. -/
def opcodeDataSerializeI64 (x : ℤ) : Except SerializationError (List UInt8) := do
  let bytes ← serializeI64 x none
  if bytes.length > 8 then throw (.numberTooLong x 8) else pure bytes

namespace Opcode

/-- `OpcodeSerialization::serialize` (macros.rs lines 4–7 and 30–33). -/
def serialize (op : Opcode) : List UInt8 :=
  match opcodeLength op.value with
  | .fixed _ => op.value :: op.data
  | .prefixed width => op.value :: (lengthBytes width op.data.length ++ op.data)

/-- The data fits the opcode's layout: the condition of `new` (macros.rs lines
45–61). -/
def WellFormed (op : Opcode) : Prop :=
  match opcodeLength op.value with
  | .fixed length => op.data.length = length - 1
  | .prefixed width => op.data.length < 256 ^ width

/-- `check_minimal_data_push` (`opcodes/mod.rs` lines 178–223). -/
def checkMinimalDataPush (op : Opcode) : Except TxScriptError Unit :=
  let dataLen := op.data.length
  if dataLen = 0 then
    if op.value ≠ 0x00 then .error (.notMinimalPush .insteadOfOpFalse op.value dataLen) else .ok ()
  else if dataLen = 1 ∧ 1 ≤ op.data.headD 0 ∧ op.data.headD 0 ≤ 16 then
    if op.value ≠ 0x51 + op.data.headD 0 - 1 then .error (.notMinimalPush .insteadOfSmallInt op.value dataLen)
    else .ok ()
  else if dataLen = 1 ∧ op.data.headD 0 = 0x81 then
    if op.value ≠ 0x4f then .error (.notMinimalPush .insteadOf1Negate op.value dataLen) else .ok ()
  else if dataLen ≤ 75 then
    if op.value.toNat ≠ dataLen then .error (.notMinimalPush .insteadOfOpData op.value dataLen) else .ok ()
  else if dataLen ≤ 255 then
    if op.value ≠ 0x4c then .error (.notMinimalPush .insteadOfPushData1 op.value dataLen) else .ok ()
  else if dataLen < 65535 ∧ op.value ≠ 0x4d then .error (.notMinimalPush .insteadOfPushData2 op.value dataLen)
  else .ok ()

/-- What `execute` of a push opcode (value at most `NO_COST_OPCODE`, `0x60`)
leaves on the stack: `push_literal_data` of the data for `Op0`..`OpPushData4`,
`push_literal_number(-1)` for `Op1Negate` and `push_literal_number(n)` for
`Op1`..`Op16`; `OpReserved` fails. -/
def pushedElement (op : Opcode) : Except TxScriptError (List UInt8) :=
  if op.value ≤ 0x4e then .ok op.data
  else if op.value = 0x50 then .error (.opcodeReserved op.value)
  else if op.value = 0x4f then (opcodeDataSerializeI64 (-1)).mapError .serialization
  else (opcodeDataSerializeI64 (op.value.toNat - 0x50)).mapError .serialization

/-- `execute_opcode` (`lib.rs` lines 612–637) on a push opcode in an executing
branch, under the engine's `covenants_enabled`: the element size check, the
minimal push rule before covenants, then the push. The stack's own size check in
`push_unmetered` has the same bound after covenants and none before. -/
def executePush (covenantsEnabled : Bool) (op : Opcode) : Except TxScriptError (List UInt8) := do
  if op.data.length > maxScriptElementSize covenantsEnabled then
    throw (.elementTooBig op.data.length (maxScriptElementSize covenantsEnabled))
  if !covenantsEnabled && 0 < op.value && op.value ≤ 0x4e then op.checkMinimalDataPush
  op.pushedElement

end Opcode

/-- `deserialize` of the opcode `value` over the bytes after it (macros.rs lines
9–27, and 35–40 with `new` of lines 55–60): the result, and how many bytes the
iterator gave up to `take`. -/
def deserialize (value : UInt8) (rest : List UInt8) : Except TxScriptError Opcode × ℕ :=
  match opcodeLength value with
  | .fixed length =>
    let data := rest.take (length - 1)
    (if data.length ≠ length - 1 then .error (.malformedPush (length - 1) data.length) else .ok ⟨value, data⟩,
      data.length)
  | .prefixed width =>
    let bytes := rest.take width
    if bytes.length = width then
      let length := leValue bytes
      let data := (rest.drop width).take length
      (if data.length ≠ length then .error (.malformedPush length data.length) else .ok ⟨value, data⟩,
        width + data.length)
    else (.error (.malformedPushSize bytes), bytes.length)

/-- `parse_script`: `deserialize_next_opcode` until the bytes run out, one item
for each opcode byte read. -/
def parseScript : List UInt8 → List (Except TxScriptError Opcode)
  | [] => []
  | value :: rest => (deserialize value rest).1 :: parseScript (rest.drop (deserialize value rest).2)
termination_by s => s.length
decreasing_by
  simp only [List.length_drop, List.length_cons]
  omega

/-! ## Length bytes -/

@[simp] theorem length_lengthBytes (width n : ℕ) : (lengthBytes width n).length = width := by
  simp [lengthBytes]

/-- Bytes read as a little-endian length are written back as themselves. -/
theorem lengthBytes_leValue {bytes : List UInt8} {width : ℕ} (h : bytes.length = width) :
    lengthBytes width (leValue bytes) = bytes := by
  have hdigits := BigEndian.leBytes_ofDigits (bytes.map UInt8.toNat)
    (fun d hd => by
      obtain ⟨b, -, rfl⟩ := List.mem_map.mp hd
      exact b.toNat_lt)
  rw [List.length_map, h] at hdigits
  rw [lengthBytes, leValue, hdigits, List.map_map]
  exact List.map_id'' (fun b => UInt8.ofNat_toNat) bytes

/-- A length below `256 ^ width` is read back from its bytes. -/
theorem leValue_lengthBytes {width n : ℕ} (h : n < 256 ^ width) : leValue (lengthBytes width n) = n := by
  induction width generalizing n with
  | zero =>
    rw [pow_zero] at h
    rw [show n = 0 by omega]
    rfl
  | succ width ih =>
    have hdiv : n / 256 < 256 ^ width := by
      rw [Nat.div_lt_iff_lt_mul (by norm_num), ← pow_succ]
      exact h
    rw [lengthBytes, BigEndian.leBytes, List.map_cons, leValue_cons, ← lengthBytes, ih hdiv,
      UInt8.toNat_ofNat', show (2 : ℕ) ^ 8 = 256 from rfl, Nat.mod_mod]
    omega

/-! ## One opcode -/

theorem opcodeLength_zero : opcodeLength 0 = .fixed 1 := rfl

/-- `OpData1`..`OpData75` carry as many bytes as their value. -/
theorem opcodeLength_of_le {value : UInt8} (h1 : 1 ≤ value.toNat) (h2 : value.toNat ≤ 75) :
    opcodeLength value = .fixed (value.toNat + 1) := by
  unfold opcodeLength
  rw [if_neg (fun he => by subst he; simp at h2), if_neg (fun he => by subst he; simp at h2),
    if_neg (fun he => by subst he; simp at h2),
    if_pos ⟨UInt8.le_iff_toNat_le.mpr (by simpa using h1), UInt8.le_iff_toNat_le.mpr (by simpa using h2)⟩]

/-- Every opcode above `OpPushData4` is the single byte. -/
theorem opcodeLength_of_gt {value : UInt8} (h : 0x4e < value) : opcodeLength value = .fixed 1 := by
  have hv := UInt8.lt_iff_toNat_lt.mp h
  simp only [UInt8.toNat_ofNat] at hv
  unfold opcodeLength
  rw [if_neg (fun he => by subst he; simp at hv), if_neg (fun he => by subst he; simp at hv),
    if_neg (fun he => by subst he; simp at hv),
    if_neg (fun he => by have h2 := UInt8.le_iff_toNat_le.mp he.2; simp at h2; omega)]

namespace Opcode

theorem serialize_fixed {op : Opcode} {length : ℕ} (h : opcodeLength op.value = .fixed length) :
    op.serialize = op.value :: op.data := by
  rw [serialize, h]

theorem serialize_prefixed {op : Opcode} {width : ℕ} (h : opcodeLength op.value = .prefixed width) :
    op.serialize = op.value :: (lengthBytes width op.data.length ++ op.data) := by
  rw [serialize, h]

/-- A data push within the element size that passes the minimal push rule
leaves its data. -/
theorem executePush_of_le {op : Opcode} {covenantsEnabled : Bool}
    (hsize : op.data.length ≤ maxScriptElementSize covenantsEnabled) (hv : op.value ≤ 0x4e)
    (hmin : op.checkMinimalDataPush = .ok ()) : op.executePush covenantsEnabled = .ok op.data := by
  have hpush : op.pushedElement = .ok op.data := by
    rw [pushedElement, if_pos hv]
  unfold executePush
  rw [if_neg (by omega)]
  by_cases hcheck : (!covenantsEnabled && 0 < op.value && op.value ≤ 0x4e) = true
  · rw [if_pos hcheck, hmin]
    exact hpush
  · rw [if_neg hcheck]
    exact hpush

/-- Above `OpPushData4` no minimal push rule applies. -/
theorem executePush_of_gt {op : Opcode} {covenantsEnabled : Bool}
    (hsize : op.data.length ≤ maxScriptElementSize covenantsEnabled) (hv : 0x4e < op.value) :
    op.executePush covenantsEnabled = op.pushedElement := by
  have hcheck : (!covenantsEnabled && 0 < op.value && op.value ≤ 0x4e) = false := by
    simp only [Bool.and_eq_false_iff, decide_eq_false_iff_not]
    refine Or.inr fun hle => ?_
    have h1 := UInt8.le_iff_toNat_le.mp hle
    have h2 := UInt8.lt_iff_toNat_lt.mp hv
    omega
  unfold executePush
  rw [if_neg (by omega), hcheck]
  rfl

end Opcode

/-- The bytes of a well-formed opcode, followed by any bytes, deserialize to the
opcode and use up exactly its bytes. -/
theorem deserialize_serialize {op : Opcode} (hwf : op.WellFormed) (t : List UInt8) :
    deserialize op.value (op.serialize.tail ++ t) = (.ok op, op.serialize.length - 1) := by
  unfold Opcode.WellFormed at hwf
  unfold deserialize
  split
  · -- a fixed-length opcode: the data bytes are the first `length - 1`
    rename_i length hlen
    rw [hlen] at hwf
    have htail : op.serialize.tail = op.data := by
      rw [Opcode.serialize_fixed hlen, List.tail_cons]
    dsimp only
    rw [htail, List.take_left' hwf, if_neg (fun h => h hwf), Opcode.serialize_fixed hlen, List.length_cons,
      Nat.add_sub_cancel]
  · -- a length-prefixed opcode: the width bytes, then the data they count
    rename_i width hlen
    rw [hlen] at hwf
    have htail : op.serialize.tail = lengthBytes width op.data.length ++ op.data := by
      rw [Opcode.serialize_prefixed hlen, List.tail_cons]
    have hbytes : (op.serialize.tail ++ t).take width = lengthBytes width op.data.length := by
      rw [htail, List.append_assoc, List.take_left' (length_lengthBytes _ _)]
    have hdata : ((op.serialize.tail ++ t).drop width).take op.data.length = op.data := by
      rw [htail, List.append_assoc, List.drop_left' (length_lengthBytes _ _), List.take_left' rfl]
    have hcount : op.serialize.length - 1 = width + op.data.length := by
      rw [Opcode.serialize_prefixed hlen, List.length_cons, List.length_append, length_lengthBytes,
        Nat.add_sub_cancel]
    dsimp only
    rw [hbytes, length_lengthBytes, leValue_lengthBytes hwf, hdata, if_pos rfl, if_neg (fun h => h rfl), hcount]

/-- What `deserialize` accepts is the serialization of the opcode it returns,
well formed, and the bytes it gave up lie within the input. -/
theorem serialize_of_deserialize {value : UInt8} {rest : List UInt8} {op : Opcode} {k : ℕ}
    (h : deserialize value rest = (.ok op, k)) :
    op.value = value ∧ op.serialize = value :: rest.take k ∧ k ≤ rest.length ∧ op.WellFormed := by
  unfold deserialize at h
  split at h
  · rename_i length hlen
    dsimp only at h
    split at h
    · simp at h
    · rename_i hdata
      simp only [Prod.mk.injEq, Except.ok.injEq] at h
      obtain ⟨rfl, rfl⟩ := h
      refine ⟨rfl, ?_, List.length_take_le' _ _, ?_⟩
      · rw [Opcode.serialize_fixed hlen, not_not.mp hdata]
      · rw [Opcode.WellFormed, hlen]
        exact not_not.mp hdata
  · rename_i width hlen
    dsimp only at h
    split at h
    · rename_i hbytes
      split at h
      · simp at h
      · rename_i hdata
        simp only [Prod.mk.injEq, Except.ok.injEq] at h
        obtain ⟨rfl, rfl⟩ := h
        have hdata' := not_not.mp hdata
        have hwidth : width ≤ rest.length := by
          rw [← hbytes, List.length_take]
          exact Nat.min_le_right _ _
        refine ⟨rfl, ?_, ?_, ?_⟩
        · -- the width bytes are the bytes of the length, then the data
          rw [Opcode.serialize_prefixed hlen]
          dsimp only
          rw [hdata', lengthBytes_leValue hbytes, List.take_add]
        · have hle := List.length_take_le' (leValue (rest.take width)) (rest.drop width)
          rw [List.length_drop] at hle
          omega
        · rw [Opcode.WellFormed, hlen]
          show _ < 256 ^ width
          rw [hdata']
          calc leValue (rest.take width) < 256 ^ (rest.take width).length := leValue_lt _
            _ = 256 ^ width := by rw [hbytes]
    · simp at h

/-! ## Scripts -/

theorem parseScript_nil : parseScript [] = [] := by
  rw [parseScript]

theorem parseScript_cons (value : UInt8) (rest : List UInt8) :
    parseScript (value :: rest) =
      (deserialize value rest).1 :: parseScript (rest.drop (deserialize value rest).2) := by
  rw [parseScript]

/-- Parsing the bytes of well-formed opcodes gives them back. -/
theorem parseScript_serialize (ops : List Opcode) (hwf : ∀ op ∈ ops, op.WellFormed) :
    parseScript (ops.map Opcode.serialize).flatten = ops.map .ok := by
  induction ops with
  | nil => exact parseScript_nil
  | cons op ops ih =>
    -- the first opcode's bytes are its byte and its tail
    have hcons : op.serialize = op.value :: op.serialize.tail := by
      cases h : opcodeLength op.value with
      | fixed length => rw [Opcode.serialize_fixed h, List.tail_cons]
      | prefixed width => rw [Opcode.serialize_prefixed h, List.tail_cons]
    have hdes := deserialize_serialize (hwf op List.mem_cons_self) (ops.map Opcode.serialize).flatten
    rw [List.map_cons, List.flatten_cons, hcons, List.cons_append, parseScript_cons, hdes]
    dsimp only
    rw [← List.length_tail, List.drop_left, ih (fun o ho => hwf o (List.mem_cons_of_mem _ ho)), List.map_cons]

/-- When every item of `parse_script(s)` is `Ok`, serializing the opcodes in
order gives back `s`. -/
theorem serialize_parseScript (s : List UInt8) (ops : List Opcode) (h : parseScript s = ops.map .ok) :
    (ops.map Opcode.serialize).flatten = s := by
  induction s using parseScript.induct generalizing ops with
  | case1 =>
    rw [parseScript_nil] at h
    cases ops with
    | nil => rfl
    | cons op ops => simp at h
  | case2 value rest ih =>
    rw [parseScript_cons] at h
    cases ops with
    | nil => simp at h
    | cons op ops =>
      rw [List.map_cons, List.cons.injEq] at h
      obtain ⟨hfirst, hrest⟩ := h
      have hdes : deserialize value rest = (.ok op, (deserialize value rest).2) := Prod.ext hfirst rfl
      obtain ⟨-, hser, -, -⟩ := serialize_of_deserialize hdes
      rw [List.map_cons, List.flatten_cons, hser, ih ops hrest, List.cons_append, List.take_append_drop]

end RustyKaspa.Txscript
