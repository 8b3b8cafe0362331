import RustyKaspa.Lib.BitRegroup

/-!
# Address strings

Model of the string form of `Address` (`crypto/addresses/src/bech32.rs` and
`crypto/addresses/src/lib.rs`): the 5-bit regrouping of the version byte and
payload, the 40-bit BCH checksum over the network prefix and the payload, and
the parsers `TryFrom<&str>` and `BorshDeserialize`.

Strings are lists of their UTF-8 bytes, and bytes are natural numbers below
256. A call that panics is `none`. The prefixes `a` and `b` exist only in test
builds (`#[cfg(test)]`) and are left out, so `Address::new` always checks the
payload length.

Results:
* `tryFrom_toString`: every address whose payload has `public_key_len()`
  bytes reads back from its string.
* `tryFrom_borsh_panics_noncanonical`: `Address::try_from` panics on a string
  whose checksum is right but whose payload is empty
  (`payload_u8[0]`) or shorter than its version requires (the assertion in
  `Address::new`). It also accepts a string that is not the encoding of the
  address it returns, because the padding bits are not checked.
  `BorshDeserialize` panics on a short payload too.
-/

namespace RustyKaspa.Addresses

open BitRegroup

/-- The bytes of an ASCII string, which are its UTF-8 bytes. -/
def asciiBytes (s : String) : List ℕ :=
  s.toList.map Char.toNat

/-! ## The alphabet and the checksum -/

/-- `CHARSET` (`bech32.rs` line 5). -/
def CHARSET : List ℕ :=
  asciiBytes "qpzry9x8gf2tvdw0s3jn54khce6mua7l"

/-- `REV_CHARSET` (`bech32.rs` lines 6–12): the index of a byte in `CHARSET`,
or 100. -/
def REV_CHARSET : List ℕ :=
  [100, 100, 100, 100, 100, 100, 100, 100, 100, 100, 100, 100, 100,
  100, 100, 100, 100, 100, 100, 100, 100, 100, 100, 100, 100, 100,
  100, 100, 100, 100, 100, 100, 100, 100, 100, 100, 100, 100, 100,
  100, 100, 100, 100, 100, 100, 100, 100, 100, 15, 100, 10, 17,
  21, 20, 26, 30, 7, 5, 100, 100, 100, 100, 100, 100, 100,
  100, 100, 100, 100, 100, 100, 100, 100, 100, 100, 100, 100, 100,
  100, 100, 100, 100, 100, 100, 100, 100, 100, 100, 100, 100, 100,
  100, 100, 100, 100, 100, 100, 29, 100, 24, 13, 25, 9, 8,
  23, 100, 18, 22, 31, 27, 19, 100, 1, 0, 3, 16, 11,
  28, 12, 14, 6, 4, 2]

/-- `REV_CHARSET` undoes `CHARSET`. -/
theorem REV_CHARSET_CHARSET : ∀ i < 32, REV_CHARSET.getD (CHARSET.getD i 0) 100 = i := by
  decide

/-- One iteration of the loop of `polymod` (`bech32.rs` lines 20–38). The
`u64` arithmetic never overflows: the state stays below `2 ^ 40`
(`polymodStep_lt`). -/
def polymodStep (c d : ℕ) : ℕ :=
  let c0 := c >>> 35
  let c := ((c &&& 0x07ffffffff) <<< 5) ^^^ d
  let c := if c0 &&& 0x01 ≠ 0 then c ^^^ 0x98f2bc8e61 else c
  let c := if c0 &&& 0x02 ≠ 0 then c ^^^ 0x79b76d99e2 else c
  let c := if c0 &&& 0x04 ≠ 0 then c ^^^ 0xf33e5fb3c4 else c
  let c := if c0 &&& 0x08 ≠ 0 then c ^^^ 0xae2eabe2a8 else c
  if c0 &&& 0x10 ≠ 0 then c ^^^ 0x1e4f43e470 else c

/-- `polymod` (`bech32.rs` lines 16–41). -/
def polymod (values : List ℕ) : ℕ :=
  values.foldl polymodStep 1 ^^^ 1

/-- A conditional `c ^= k` keeps the state below `2 ^ 40`. -/
theorem ite_xor_lt {p : Prop} [Decidable p] {c k : ℕ} (hc : c < 2 ^ 40) (hk : k < 2 ^ 40) :
    (if p then c ^^^ k else c) < 2 ^ 40 := by
  split_ifs
  · exact Nat.xor_lt_two_pow hc hk
  · exact hc

/-- The state after a step is below `2 ^ 40`, whatever it was before: only its
low 35 bits are shifted up by five. -/
theorem polymodStep_lt (c : ℕ) {d : ℕ} (hd : d < 2 ^ 40) : polymodStep c d < 2 ^ 40 := by
  have hshift : (c &&& 0x07ffffffff) <<< 5 < 2 ^ 40 := by
    have := Nat.and_le_right (n := c) (m := 0x07ffffffff)
    rw [Nat.shiftLeft_eq]
    omega
  have hx := Nat.xor_lt_two_pow hshift hd
  simp only [polymodStep]
  refine ite_xor_lt (ite_xor_lt (ite_xor_lt (ite_xor_lt (ite_xor_lt hx ?_) ?_) ?_) ?_) ?_ <;>
    norm_num

theorem polymod_lt {values : List ℕ} (h : ∀ d ∈ values, d < 2 ^ 40) : polymod values < 2 ^ 40 := by
  have hfold : ∀ c < 2 ^ 40, values.foldl polymodStep c < 2 ^ 40 := by
    induction values with
    | nil => exact fun c hc => hc
    | cons d ds ih =>
      intro c _
      exact ih (fun x hx => h x (List.mem_cons_of_mem _ hx)) _
        (polymodStep_lt c (h d List.mem_cons_self))
  exact Nat.xor_lt_two_pow (hfold 1 (by norm_num)) (by norm_num)

/-- `checksum` (`bech32.rs` lines 43–48): the prefix, a zero, the payload and
eight zeros. -/
def checksum (payload fivebitPrefix : List ℕ) : ℕ :=
  polymod (fivebitPrefix ++ [0] ++ payload ++ List.replicate 8 0)

/-- `conv8to5` (`bech32.rs` lines 50–76): bytes to 5-bit groups, the last one
padded with zeros on the right. -/
def conv8to5 (payload : List ℕ) : List ℕ :=
  (regroup 8 5 payload).flush 5

/-- `conv5to8` (`bech32.rs` lines 78–96): 5-bit groups to bytes; the bits
left over at the end are dropped. -/
def conv5to8 (payload : List ℕ) : List ℕ :=
  (regroup 5 8 payload).out

section Conv

variable {l : List ℕ}

/-- `conv8to5` emits 5-bit groups and fills the vector it allocates,
`vec![0u8; payload.len() * 8 / 5 + padding]`, exactly. -/
theorem conv8to5_spec (h : ∀ b ∈ l, b < 256) :
    (∀ x ∈ conv8to5 l, x < 32) ∧
      (conv8to5 l).length = l.length * 8 / 5 + if l.length % 5 = 0 then 0 else 1 := by
  obtain ⟨hvalid, -, hsize, hbits⟩ := regroup_spec (v := 5) (by norm_num) (w := 8) h
  obtain ⟨hlt, -, -, -⟩ := Acc.flush_spec hvalid hbits
  refine ⟨hlt, ?_⟩
  simp only [Acc.size] at hsize
  -- one more group exactly when bits are left over, i.e. when `5 ∤ 8 * len`
  by_cases hb : 0 < (regroup 8 5 l).bits
  · simp only [conv8to5, Acc.flush, if_pos hb, List.length_append, List.length_singleton]
    split_ifs <;> omega
  · simp only [conv8to5, Acc.flush, if_neg hb]
    split_ifs <;> omega

/-- `conv5to8` fills the vector it allocates, `vec![0u8; payload.len() * 5 / 8]`,
exactly. -/
theorem length_conv5to8 (h : ∀ x ∈ l, x < 32) : (conv5to8 l).length = l.length * 5 / 8 := by
  obtain ⟨-, -, hsize, hbits⟩ := regroup_spec (v := 8) (by norm_num) (w := 5) h
  simp only [Acc.size] at hsize
  simp only [conv5to8]
  omega

/-- Bytes survive `conv8to5` then `conv5to8`: the padding is dropped again. -/
theorem conv5to8_conv8to5 (h : ∀ b ∈ l, b < 256) : conv5to8 (conv8to5 l) = l :=
  regroup_flush_regroup (by norm_num) (by norm_num) h

end Conv

/-- `u64::to_be_bytes`. -/
def toBeBytes (c : ℕ) : List ℕ :=
  [(c >>> 56) % 256, (c >>> 48) % 256, (c >>> 40) % 256, (c >>> 32) % 256, (c >>> 24) % 256,
    (c >>> 16) % 256, (c >>> 8) % 256, c % 256]

theorem toBeBytes_lt (c : ℕ) : ∀ b ∈ toBeBytes c, b < 256 := by
  simp only [toBeBytes, List.mem_cons, List.not_mem_nil, or_false]
  rintro b (rfl | rfl | rfl | rfl | rfl | rfl | rfl | rfl) <;> exact Nat.mod_lt _ (by norm_num)

/-- A value below `2 ^ 40` is read back from its low five big-endian bytes
behind three zeros, as `decode_payload` reads the checksum. -/
theorem beValue_toBeBytes {c : ℕ} (hc : c < 2 ^ 40) :
    beValue 8 (List.replicate 3 0 ++ (toBeBytes c).drop 3) = c := by
  simp only [toBeBytes, beValue, List.replicate, List.drop, List.cons_append, List.nil_append,
    List.reverse_cons, List.reverse_nil, Nat.ofDigits_cons, Nat.ofDigits_nil,
    Nat.shiftRight_eq_div_pow]
  omega

/-! ## Addresses -/

/-- `AddressError` (`lib.rs` lines 42–66), the variants the parsers return.
Strings are their bytes, and a `char` made from a byte is the byte. -/
inductive AddressError where
  | invalidPrefix (s : List ℕ)
  | missingPrefix
  | invalidVersion (v : ℕ)
  | decodingError (c : ℕ)
  | badChecksumSize
  | badChecksum
  | badPayload
  deriving DecidableEq, Repr

/-- `Prefix` (`lib.rs` lines 69–84), without the test-only variants. -/
inductive Prefix where
  | mainnet
  | testnet
  | simnet
  | devnet
  deriving DecidableEq, Repr

/-- `Prefix::as_str` (`lib.rs` lines 86–97). -/
def Prefix.asStr : Prefix → List ℕ
  | .mainnet => asciiBytes "kaspa"
  | .testnet => asciiBytes "kaspatest"
  | .simnet => asciiBytes "kaspasim"
  | .devnet => asciiBytes "kaspadev"

/-- `TryFrom<&str> for Prefix` (`lib.rs` lines 114–131). -/
def Prefix.tryFrom (s : List ℕ) : Except AddressError Prefix :=
  if s = asciiBytes "kaspa" then .ok .mainnet
  else if s = asciiBytes "kaspatest" then .ok .testnet
  else if s = asciiBytes "kaspasim" then .ok .simnet
  else if s = asciiBytes "kaspadev" then .ok .devnet
  else .error (.invalidPrefix s)

/-- `Version` (`lib.rs` lines 133–148). -/
inductive Version where
  | pubKey
  | pubKeyECDSA
  | scriptHash
  deriving DecidableEq, Repr

/-- `version as u8`: the `repr(u8)` discriminant. -/
def Version.toU8 : Version → ℕ
  | .pubKey => 0
  | .pubKeyECDSA => 1
  | .scriptHash => 8

/-- `Version::public_key_len` (`lib.rs` lines 164–172). -/
def Version.publicKeyLen : Version → ℕ
  | .pubKey => 32
  | .pubKeyECDSA => 33
  | .scriptHash => 32

/-- `TryFrom<u8> for Version` (`lib.rs` lines 175–186). -/
def Version.tryFrom (value : ℕ) : Except AddressError Version :=
  match value with
  | 0 => .ok .pubKey
  | 1 => .ok .pubKeyECDSA
  | 8 => .ok .scriptHash
  | _ => .error (.invalidVersion value)

/-- `Address` (`lib.rs` lines 207–219); the field `prefix` is `addrPrefix`. -/
structure Address where
  addrPrefix : Prefix
  version : Version
  payload : List ℕ
  deriving DecidableEq, Repr

/-- `Address::new` (`lib.rs` lines 229–234): `none` where `assert_eq!` of the
payload length fails. -/
def Address.new (pfx : Prefix) (version : Version) (payload : List ℕ) : Option Address :=
  if payload.length = version.publicKeyLen then some ⟨pfx, version, payload⟩ else none

/-- The prefix in 5-bit form: `c & 0x1f` of every byte. -/
def fivebitPrefix (pfx : Prefix) : List ℕ :=
  pfx.asStr.map (· &&& 0x1f)

/-- `Address::encode_payload` (`bech32.rs` lines 98–110). Every 5-bit group
indexes `CHARSET` in bounds (`conv8to5_lt`). -/
def Address.encodePayload (a : Address) : List ℕ :=
  let fivebitPayload := conv8to5 (a.version.toU8 :: a.payload)
  let c := checksum fivebitPayload (fivebitPrefix a.addrPrefix)
  (fivebitPayload ++ conv8to5 ((toBeBytes c).drop 3)).map (CHARSET.getD · 0)

/-- `From<&Address> for String` (`lib.rs` lines 288–292): `"{prefix}:{payload}"`. -/
def Address.toString (a : Address) : List ℕ :=
  a.addrPrefix.asStr ++ asciiBytes ":" ++ a.encodePayload

/-- The `scan` of `decode_payload`: every byte through `REV_CHARSET`, stopping
with `DecodingError` at the first that is not in the alphabet. -/
def decodeChars : List ℕ → Except AddressError (List ℕ)
  | [] => .ok []
  | b :: bs =>
    match REV_CHARSET.getD b 100 with
    | 100 => .error (.decodingError b)
    | i => (decodeChars bs).map (i :: ·)

/-- `Address::decode_payload` (`bech32.rs` lines 112–144); `none` where it
panics, at `payload_u8[0]` or in `Address::new`. -/
def decodePayload (pfx : Prefix) (address : List ℕ) : Option (Except AddressError Address) :=
  match decodeChars address with
  | .error e => some (.error e)
  | .ok addressU5 =>
    if address.length < 8 then some (.error .badPayload)
    else
      let payloadU5 := addressU5.take (address.length - 8)
      let checksumU5 := addressU5.drop (address.length - 8)
      let checksumBytes := List.replicate 3 0 ++ conv5to8 checksumU5
      if checksumBytes.length ≠ 8 then some (.error .badChecksumSize)
      else if checksum payloadU5 (fivebitPrefix pfx) ≠ beValue 8 checksumBytes then
        some (.error .badChecksum)
      else
        match conv5to8 payloadU5 with
        | [] => none
        | v :: payloadU8 =>
          match Version.tryFrom v with
          | .error e => some (.error e)
          | .ok version => (Address.new pfx version payloadU8).map .ok

/-- `str::split_once` at the first occurrence of a byte. -/
def splitOnce (c : ℕ) : List ℕ → Option (List ℕ × List ℕ)
  | [] => none
  | b :: bs => if b = c then some ([], bs) else (splitOnce c bs).map fun p => (b :: p.1, p.2)

/-- `TryFrom<&str> for Address` (`lib.rs` lines 302–311). -/
def tryFrom (value : List ℕ) : Option (Except AddressError Address) :=
  match splitOnce 58 value with
  | some (p, payload) =>
    match Prefix.tryFrom p with
    | .error e => some (.error e)
    | .ok pfx => decodePayload pfx payload
  | none => some (.error .missingPrefix)

/-! ## Reading an address back from its string -/

section RoundTrip

theorem decodeChars_map_CHARSET {l : List ℕ} (h : ∀ x ∈ l, x < 32) :
    decodeChars (l.map (CHARSET.getD · 0)) = .ok l := by
  induction l with
  | nil => rfl
  | cons x l ih =>
    have hx := h x List.mem_cons_self
    have ih := ih fun y hy => h y (List.mem_cons_of_mem _ hy)
    have hne : x ≠ 100 := by omega
    simp only [List.map_cons, decodeChars, REV_CHARSET_CHARSET x hx, ih]
    rfl

theorem splitOnce_append {c : ℕ} {a : List ℕ} (hc : c ∉ a) (b : List ℕ) :
    splitOnce c (a ++ c :: b) = some (a, b) := by
  induction a with
  | nil => simp [splitOnce]
  | cons x a ih =>
    have hx : x ≠ c := fun hx => hc (hx ▸ List.mem_cons_self)
    simp only [List.cons_append, splitOnce, if_neg hx, ih fun h => hc (List.mem_cons_of_mem _ h),
      Option.map_some]

theorem Prefix.tryFrom_asStr (p : Prefix) : Prefix.tryFrom p.asStr = .ok p := by
  cases p <;> decide

theorem Prefix.colon_notMem_asStr (p : Prefix) : 58 ∉ p.asStr := by
  cases p <;> decide

theorem Version.tryFrom_toU8 (v : Version) : Version.tryFrom v.toU8 = .ok v := by
  cases v <;> rfl

theorem Version.toU8_lt (v : Version) : v.toU8 < 256 := by
  cases v <;> decide

theorem fivebitPrefix_lt (p : Prefix) : ∀ x ∈ fivebitPrefix p, x < 32 := by
  cases p <;> decide

/-- The checksum of 5-bit groups is below `2 ^ 40`. -/
theorem checksum_lt {payload : List ℕ} (h : ∀ x ∈ payload, x < 32) (p : Prefix) :
    checksum payload (fivebitPrefix p) < 2 ^ 40 := by
  apply polymod_lt
  intro d hd
  simp only [List.mem_append, List.mem_singleton, List.mem_replicate] at hd
  rcases hd with ((hd | rfl) | hd) | ⟨-, rfl⟩
  · exact (fivebitPrefix_lt p d hd).trans (by norm_num)
  · norm_num
  · exact (h d hd).trans (by norm_num)
  · norm_num

/-- `decode_payload` reads back what `encode_payload` writes, for a payload of
the length the version requires. -/
theorem decodePayload_encodePayload (a : Address) (hlen : a.payload.length = a.version.publicKeyLen)
    (hbytes : ∀ b ∈ a.payload, b < 256) :
    decodePayload a.addrPrefix a.encodePayload = some (.ok a) := by
  obtain ⟨pfx, version, payload⟩ := a
  have hin : ∀ b ∈ version.toU8 :: payload, b < 256 := by
    intro b hb
    rcases List.mem_cons.mp hb with rfl | hb
    · exact version.toU8_lt
    · exact hbytes b hb
  obtain ⟨hF, -⟩ := conv8to5_spec hin
  set F := conv8to5 (version.toU8 :: payload)
  set c := checksum F (fivebitPrefix pfx)
  have hc : c < 2 ^ 40 := checksum_lt hF pfx
  -- the checksum bytes: five bytes, eight 5-bit groups
  have hfive : ∀ b ∈ (toBeBytes c).drop 3, b < 256 :=
    fun b hb => toBeBytes_lt c b (List.mem_of_mem_drop hb)
  obtain ⟨hG, hGlen⟩ := conv8to5_spec hfive
  set G := conv8to5 ((toBeBytes c).drop 3)
  have hG8 : G.length = 8 := by simpa [toBeBytes] using hGlen
  have hFG : ∀ x ∈ F ++ G, x < 32 := by
    intro x hx
    rcases List.mem_append.mp hx with hx | hx
    · exact hF x hx
    · exact hG x hx
  have hdec : decodeChars (Address.encodePayload ⟨pfx, version, payload⟩) = .ok (F ++ G) :=
    decodeChars_map_CHARSET hFG
  have hlength : (Address.encodePayload ⟨pfx, version, payload⟩).length = F.length + 8 := by
    simp [Address.encodePayload, F, c, G, ← hG8]
  have hsum : beValue 8 (List.replicate 3 0 ++ conv5to8 G) = c := by
    rw [conv5to8_conv8to5 hfive, beValue_toBeBytes hc]
  have hbytes8 : (List.replicate 3 0 ++ conv5to8 G).length = 8 := by
    rw [conv5to8_conv8to5 hfive]
    simp [toBeBytes]
  have hpayload : conv5to8 F = version.toU8 :: payload := conv5to8_conv8to5 hin
  have hcheck : checksum F (fivebitPrefix pfx) = c := rfl
  rw [decodePayload, hdec]
  simp only [hlength, Nat.add_sub_cancel, List.take_left' rfl, List.drop_left' rfl, hbytes8,
    hsum, hcheck, ne_eq, not_true_eq_false, if_false, hpayload, Version.tryFrom_toU8]
  simp [Address.new, hlen]

/-- Every address whose payload has `public_key_len()` bytes reads back from
its string. -/
theorem tryFrom_toString (a : Address) (hlen : a.payload.length = a.version.publicKeyLen)
    (hbytes : ∀ b ∈ a.payload, b < 256) : tryFrom a.toString = some (.ok a) := by
  have hsplit : splitOnce 58 a.toString = some (a.addrPrefix.asStr, a.encodePayload) := by
    rw [Address.toString, show asciiBytes ":" = [58] from rfl, List.append_assoc,
      List.singleton_append]
    exact splitOnce_append a.addrPrefix.colon_notMem_asStr a.encodePayload
  rw [tryFrom, hsplit]
  simp only [Prefix.tryFrom_asStr, decodePayload_encodePayload a hlen hbytes]

end RoundTrip

/-! ## Borsh -/

/-- The errors of the Borsh reader: input ended early, or an enum tag that
names no variant. -/
inductive BorshError where
  | unexpectedEof
  | unexpectedVariantTag (tag : ℕ)
  deriving DecidableEq, Repr

/-- Reading one byte. -/
def readU8 : List ℕ → Except BorshError (ℕ × List ℕ)
  | [] => .error .unexpectedEof
  | b :: r => .ok (b, r)

/-- Reading `n` bytes. -/
def readBytes (n : ℕ) (r : List ℕ) : Except BorshError (List ℕ × List ℕ) :=
  if n ≤ r.length then .ok (r.take n, r.drop n) else .error .unexpectedEof

/-- Reading a little-endian `u32`, the length of a vector. -/
def readU32 (r : List ℕ) : Except BorshError (ℕ × List ℕ) :=
  (readBytes 4 r).map fun p => (beValue 8 p.1.reverse, p.2)

/-- `BorshDeserialize for Prefix`: the `use_discriminant` tag. -/
def Prefix.deserialize (r : List ℕ) : Except BorshError (Prefix × List ℕ) := do
  let (tag, r) ← readU8 r
  match tag with
  | 0 => pure (.mainnet, r)
  | 1 => pure (.testnet, r)
  | 2 => pure (.simnet, r)
  | 3 => pure (.devnet, r)
  | _ => throw (.unexpectedVariantTag tag)

/-- `BorshDeserialize for Version`: the `use_discriminant` tag. -/
def Version.deserialize (r : List ℕ) : Except BorshError (Version × List ℕ) := do
  let (tag, r) ← readU8 r
  match tag with
  | 0 => pure (.pubKey, r)
  | 1 => pure (.pubKeyECDSA, r)
  | 8 => pure (.scriptHash, r)
  | _ => throw (.unexpectedVariantTag tag)

/-- `BorshDeserialize for Address` (`lib.rs` lines 266–274): prefix, version,
then the payload as a `Vec<u8>` (its `u32` length, then the bytes), given to
`Address::new`; `none` where its assertion panics. -/
def Address.deserializeReader (r : List ℕ) : Option (Except BorshError (Address × List ℕ)) :=
  match Prefix.deserialize r with
  | .error e => some (.error e)
  | .ok (pfx, r) =>
    match Version.deserialize r with
    | .error e => some (.error e)
    | .ok (version, r) =>
      match readU32 r >>= fun p => readBytes p.1 p.2 with
      | .error e => some (.error e)
      | .ok (payload, r) => (Address.new pfx version payload).map fun a => .ok (a, r)

/-! ## Strings that make the parsers panic or that are not canonical -/

/-- The `PubKey` address of the all-zero key on mainnet. -/
def zeroAddress : Address :=
  ⟨.mainnet, .pubKey, List.replicate 32 0⟩

/-- Four inputs the parsers mishandle. -/
theorem tryFrom_borsh_panics_noncanonical :
    -- the right checksum over an empty payload: `payload_u8[0]` panics
    tryFrom (asciiBytes "kaspa:3xjng3c9") = none ∧
    -- a version byte and no key: the assertion of `Address::new` panics
    tryFrom (asciiBytes "kaspa:qq675gp8rh") = none ∧
    -- the string of `zeroAddress` with the padding bit of its last payload
    -- group set and the checksum recomputed: accepted, and not its string
    tryFrom (asciiBytes "kaspa:qqqqqqqqqqqqqqqqqqqqqqqqqqqqqqqqqqqqqqqqqqqqqqqqqqqqp99ukhzxc") = some (.ok zeroAddress) ∧
    asciiBytes "kaspa:qqqqqqqqqqqqqqqqqqqqqqqqqqqqqqqqqqqqqqqqqqqqqqqqqqqqp99ukhzxc" ≠ zeroAddress.toString ∧
    -- prefix 0, version 0 and an empty payload: the assertion panics
    Address.deserializeReader [0, 0, 0, 0, 0, 0] = none :=
  ⟨by decide +kernel, by decide +kernel, by decide +kernel, by decide +kernel, by decide⟩

end RustyKaspa.Addresses
