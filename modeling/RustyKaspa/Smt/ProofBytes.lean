import RustyKaspa.Smt.Proof
import RustyKaspa.Lib.BigEndian

/-!
# The wire format of SMT proofs

Model of `OwnedSmtProof::from_bytes` and `OwnedSmtProof::to_bytes`
(`crypto/smt/src/proof.rs` lines 292–370): the bytes
`bitmap[32] || terminal_tag[1] || terminal_payload || siblings[N * 32]`, the
payload empty for `Full`, the depth byte for `Collapsed`, and the depth byte,
lane key and leaf hash for `CollapsedOther`. The decoder takes the siblings as
the whole 32-byte chunks of the rest and rejects a partial chunk and any count
other than `bitmap_clear_count_before(bitmap, terminal)`.

Results:
* `fromBytes_toBytes`: a proof whose sibling count is the number of clear bitmap
  bits below its terminal depth decodes from its bytes.
* `toBytes_fromBytes`: what the decoder accepts is the encoding of what it
  returns, so it accepts no trailing bytes, no partial sibling and no other
  sibling count.
* `ownedSmtProof_wire_round_trip`: the two together.
-/

namespace RustyKaspa.Smt

open BigEndian

/-- `Hash::as_bytes`: the 32 bytes, most significant first. -/
def hashAsBytes (h : Hash) : List UInt8 := (beBytes 32 h.toNat).map Nat.toUInt8

/-- `Hash::from_bytes` of 32 bytes. -/
def hashFromBytes (bytes : List UInt8) : Hash := BitVec.ofNat 256 (ofBytes (bytes.map UInt8.toNat))

/-- `ProofTerminal::FULL_TAG`. -/
def ProofTerminal.FULL_TAG : UInt8 := 0

/-- `ProofTerminal::COLLAPSED_TAG`. -/
def ProofTerminal.COLLAPSED_TAG : UInt8 := 1

/-- `ProofTerminal::COLLAPSED_OTHER_TAG`. -/
def ProofTerminal.COLLAPSED_OTHER_TAG : UInt8 := 2

/-- `u8::count_ones`. -/
def countOnes (b : UInt8) : ℕ := ((List.range 8).filter fun i => b.toNat.testBit i).length

/-- `bitmap_clear_count` (`proof.rs` lines 62–64): the clear bits of the whole
bitmap, the count the decoder reports before it knows the terminal. -/
def bitmapClearCount (bitmap : Vector UInt8 32) : ℕ := DEPTH - (bitmap.toList.map countOnes).sum

/-- `<[u8]>::as_chunks::<32>`: the whole 32-byte chunks, and the fewer than 32
bytes left. -/
def asChunks (bytes : List UInt8) : List (List UInt8) × List UInt8 :=
  if bytes.length < 32 then ([], bytes)
  else
    let rest := asChunks (bytes.drop 32)
    (bytes.take 32 :: rest.1, rest.2)
termination_by bytes.length
decreasing_by simp only [List.length_drop]; omega

/-- The terminal tag and payload (`proof.rs` lines 298–323), the bytes after them
as the sibling bytes. -/
def parseTerminal (bitmap : Vector UInt8 32) (tag : UInt8) (rem : List UInt8) :
    Except SmtProofError (ProofTerminal × List UInt8) :=
  if tag = ProofTerminal.FULL_TAG then .ok (.full, rem)
  else if tag = ProofTerminal.COLLAPSED_TAG then
    match rem with
    | [] => .error (.siblingCountMismatch 0 0)
    | depth :: rem => .ok (.collapsed depth, rem)
  else if tag = ProofTerminal.COLLAPSED_OTHER_TAG then
    match rem with
    | [] => .error (.siblingCountMismatch 0 0)
    | depth :: rem =>
      if rem.length < 32 then .error (.siblingCountMismatch 0 0)
      else if (rem.drop 32).length < 32 then .error (.siblingCountMismatch 0 0)
      else .ok (.collapsedOther depth ⟨hashFromBytes (rem.take 32), hashFromBytes ((rem.drop 32).take 32)⟩,
        (rem.drop 32).drop 32)
  else .error (.siblingCountMismatch (bitmapClearCount bitmap) (rem.length / 32))

/-- The sibling bytes (`proof.rs` lines 325–341): their whole 32-byte chunks,
with no bytes left and as many as the bitmap's clear bits above the terminal. -/
def decodeSiblings (bitmap : Vector UInt8 32) (terminal : ProofTerminal) (siblingBytes : List UInt8) :
    Except SmtProofError OwnedSmtProof := do
  let (siblings, rem) := asChunks siblingBytes
  if !rem.isEmpty then
    throw (.siblingCountMismatch (bitmapClearCountBefore bitmap terminal) (siblingBytes.length / 32))
  let expected := bitmapClearCountBefore bitmap terminal
  if siblings.length ≠ expected then throw (.siblingCountMismatch expected siblings.length)
  pure ⟨bitmap, siblings.map hashFromBytes, terminal⟩

/-- `OwnedSmtProof::from_bytes` (lines 292–342). -/
def OwnedSmtProof.fromBytes (data : List UInt8) : Except SmtProofError OwnedSmtProof :=
  if h : data.length < 32 then .error (.siblingCountMismatch 0 0)
  else
    let bitmap : Vector UInt8 32 := ⟨(data.take 32).toArray, by simp; omega⟩
    match data.drop 32 with
    | [] => .error (.siblingCountMismatch (bitmapClearCount bitmap) 0)
    | tag :: rem => do
      let (terminal, siblingBytes) ← parseTerminal bitmap tag rem
      decodeSiblings bitmap terminal siblingBytes

/-- The terminal tag and payload `to_bytes` writes (lines 356–365). -/
def ProofTerminal.toBytes : ProofTerminal → List UInt8
  | .full => [ProofTerminal.FULL_TAG]
  | .collapsed depth => [ProofTerminal.COLLAPSED_TAG, depth]
  | .collapsedOther depth leaf =>
    [ProofTerminal.COLLAPSED_OTHER_TAG, depth] ++ hashAsBytes leaf.laneKey ++ hashAsBytes leaf.leafHash

/-- `OwnedSmtProof::to_bytes` (lines 345–370). -/
def OwnedSmtProof.toBytes (p : OwnedSmtProof) : List UInt8 :=
  p.bitmap.toList ++ p.terminal.toBytes ++ (p.siblings.map hashAsBytes).flatten

/-! ## Hashes as bytes -/

@[simp] theorem length_hashAsBytes (h : Hash) : (hashAsBytes h).length = 32 := by
  rw [hashAsBytes, List.length_map, length_beBytes]

theorem map_toNat_hashAsBytes (h : Hash) : (hashAsBytes h).map UInt8.toNat = beBytes 32 h.toNat := by
  rw [hashAsBytes, List.map_map]
  refine (List.map_congr_left fun b hb => ?_).trans (List.map_id _)
  show (UInt8.ofNat b).toNat = b
  rw [UInt8.toNat_ofNat', Nat.mod_eq_of_lt (lt_of_mem_beBytes hb)]

theorem hashFromBytes_hashAsBytes (h : Hash) : hashFromBytes (hashAsBytes h) = h := by
  have hlt : h.toNat < 256 ^ 32 := by
    have h32 : (256 : ℕ) ^ 32 = 2 ^ 256 := by norm_num
    rw [h32]
    exact h.isLt
  rw [hashFromBytes, map_toNat_hashAsBytes, ofBytes_beBytes, Nat.mod_eq_of_lt hlt, BitVec.ofNat_toNat,
    BitVec.setWidth_eq]

theorem hashAsBytes_hashFromBytes {bytes : List UInt8} (hlen : bytes.length = 32) :
    hashAsBytes (hashFromBytes bytes) = bytes := by
  have hbytes : ∀ b ∈ bytes.map UInt8.toNat, b < 256 := by
    intro b hb
    obtain ⟨c, -, rfl⟩ := List.mem_map.mp hb
    exact c.toNat_lt
  have hlt := ofBytes_lt _ hbytes
  rw [List.length_map, hlen, show (256 : ℕ) ^ 32 = 2 ^ 256 by norm_num] at hlt
  have hdigits := beBytes_ofBytes _ hbytes
  rw [List.length_map, hlen] at hdigits
  rw [hashAsBytes, hashFromBytes, BitVec.toNat_ofNat, Nat.mod_eq_of_lt hlt, hdigits, List.map_map]
  exact List.map_id'' (fun _ => UInt8.ofNat_toNat) bytes

/-! ## Chunks -/

theorem asChunks_of_lt {bytes : List UInt8} (h : bytes.length < 32) : asChunks bytes = ([], bytes) := by
  rw [asChunks, if_pos h]

theorem asChunks_of_le {bytes : List UInt8} (h : 32 ≤ bytes.length) :
    asChunks bytes = (bytes.take 32 :: (asChunks (bytes.drop 32)).1, (asChunks (bytes.drop 32)).2) := by
  rw [asChunks, if_neg (by omega)]

/-- Whole chunks are read back as they were, with nothing left. -/
theorem asChunks_flatten (chunks : List (List UInt8)) (h : ∀ c ∈ chunks, c.length = 32) :
    asChunks chunks.flatten = (chunks, []) := by
  induction chunks with
  | nil => rw [List.flatten_nil, asChunks_of_lt (by simp)]
  | cons c cs ih =>
    have hc := h c List.mem_cons_self
    rw [List.flatten_cons, asChunks_of_le (by rw [List.length_append]; omega), List.take_left' hc,
      List.drop_left' hc, ih (fun c' hc' => h c' (List.mem_cons_of_mem _ hc'))]

/-- The chunks have 32 bytes each and, with the bytes left, make up the input. -/
theorem asChunks_spec (bytes : List UInt8) :
    (∀ c ∈ (asChunks bytes).1, c.length = 32) ∧ (asChunks bytes).1.flatten ++ (asChunks bytes).2 = bytes := by
  induction hn : bytes.length using Nat.strong_induction_on generalizing bytes with
  | _ n ih =>
    by_cases hlt : bytes.length < 32
    · rw [asChunks_of_lt hlt]
      simp
    · obtain ⟨hchunks, hflat⟩ := ih (bytes.drop 32).length (by rw [List.length_drop]; omega) _ rfl
      rw [asChunks_of_le (by omega)]
      refine ⟨fun c hc => ?_, ?_⟩
      · rcases List.mem_cons.mp hc with rfl | hc
        · rw [List.length_take]
          omega
        · exact hchunks c hc
      · rw [List.flatten_cons, List.append_assoc, hflat, List.take_append_drop]

/-! ## The terminal -/

/-- The terminal's bytes are read back, the bytes after them left as the sibling
bytes. -/
theorem parseTerminal_toBytes (bitmap : Vector UInt8 32) (terminal : ProofTerminal) (rest : List UInt8) :
    ∃ tag rem, terminal.toBytes ++ rest = tag :: rem ∧
      parseTerminal bitmap tag rem = .ok (terminal, rest) := by
  cases terminal with
  | full => exact ⟨ProofTerminal.FULL_TAG, rest, rfl, by unfold parseTerminal; rw [if_pos rfl]⟩
  | collapsed depth =>
    exact ⟨ProofTerminal.COLLAPSED_TAG, depth :: rest, rfl,
      by unfold parseTerminal; rw [if_neg (by decide), if_pos rfl]⟩
  | collapsedOther depth leaf =>
    refine ⟨ProofTerminal.COLLAPSED_OTHER_TAG,
      depth :: (hashAsBytes leaf.laneKey ++ (hashAsBytes leaf.leafHash ++ rest)),
      by simp [ProofTerminal.toBytes], ?_⟩
    -- the lane key and the leaf hash are the next two 32-byte chunks
    have hkey := length_hashAsBytes leaf.laneKey
    have hleaf := length_hashAsBytes leaf.leafHash
    unfold parseTerminal
    rw [if_neg (by decide), if_neg (by decide), if_pos rfl]
    simp only
    rw [if_neg (by rw [List.length_append, List.length_append]; omega), List.drop_left' hkey,
      if_neg (by rw [List.length_append]; omega), List.take_left' hkey, List.take_left' hleaf,
      List.drop_left' hleaf, hashFromBytes_hashAsBytes, hashFromBytes_hashAsBytes]

/-- What the terminal parser accepts is a terminal's bytes followed by the
sibling bytes it returns. -/
theorem parseTerminal_eq_ok {bitmap : Vector UInt8 32} {tag : UInt8} {rem : List UInt8}
    {terminal : ProofTerminal} {siblingBytes : List UInt8}
    (h : parseTerminal bitmap tag rem = .ok (terminal, siblingBytes)) :
    tag :: rem = terminal.toBytes ++ siblingBytes := by
  unfold parseTerminal at h
  split_ifs at h with hfull hcollapsed hother
  · -- `Full`: no payload
    simp only [Except.ok.injEq, Prod.mk.injEq] at h
    obtain ⟨rfl, rfl⟩ := h
    rw [hfull]
    rfl
  · -- `Collapsed`: the depth byte
    match rem, h with
    | depth :: rem, h =>
      simp only [Except.ok.injEq, Prod.mk.injEq] at h
      obtain ⟨rfl, rfl⟩ := h
      rw [hcollapsed]
      rfl
  · -- `CollapsedOther`: the depth byte, the lane key and the leaf hash
    match rem, h with
    | depth :: rem, h =>
      simp only at h
      split_ifs at h with hkey hleaf
      simp only [Except.ok.injEq, Prod.mk.injEq] at h
      obtain ⟨rfl, rfl⟩ := h
      rw [hother, ProofTerminal.toBytes, hashAsBytes_hashFromBytes (by rw [List.length_take]; omega),
        hashAsBytes_hashFromBytes (by rw [List.length_take]; omega)]
      simp only [List.cons_append, List.nil_append, List.append_assoc, List.take_append_drop]

/-! ## The siblings -/

/-- Siblings as many as the bitmap's clear bits above the terminal are read back. -/
theorem decodeSiblings_flatten (bitmap : Vector UInt8 32) (terminal : ProofTerminal) (siblings : List Hash)
    (h : siblings.length = bitmapClearCountBefore bitmap terminal) :
    decodeSiblings bitmap terminal (siblings.map hashAsBytes).flatten = .ok ⟨bitmap, siblings, terminal⟩ := by
  have hchunks : ∀ c ∈ siblings.map hashAsBytes, c.length = 32 := by
    intro c hc
    obtain ⟨s, -, rfl⟩ := List.mem_map.mp hc
    exact length_hashAsBytes s
  unfold decodeSiblings
  rw [asChunks_flatten _ hchunks]
  simp [h, List.map_map, Function.comp_def, hashFromBytes_hashAsBytes]
  rfl

/-- What the sibling decoder accepts is the bytes of the siblings it returns. -/
theorem decodeSiblings_eq_ok {bitmap : Vector UInt8 32} {terminal : ProofTerminal}
    {siblingBytes : List UInt8} {q : OwnedSmtProof} (h : decodeSiblings bitmap terminal siblingBytes = .ok q) :
    q = ⟨bitmap, q.siblings, terminal⟩ ∧ (q.siblings.map hashAsBytes).flatten = siblingBytes := by
  obtain ⟨hchunks, hflat⟩ := asChunks_spec siblingBytes
  unfold decodeSiblings at h
  split at h
  rename_i chunks rem hsplit
  rw [hsplit] at hchunks hflat
  by_cases hrem : rem = []
  · by_cases hcount : chunks.length = bitmapClearCountBefore bitmap terminal
    · simp only [hrem, List.isEmpty_nil, Bool.not_true, Bool.false_eq_true, if_false, hcount,
        ne_eq, not_true_eq_false] at h
      cases h
      refine ⟨rfl, ?_⟩
      -- every chunk is the bytes of the hash read from it
      have hmap : (chunks.map hashFromBytes).map hashAsBytes = chunks := by
        rw [List.map_map]
        exact (List.map_congr_left fun c hc => hashAsBytes_hashFromBytes (hchunks c hc)).trans
          (List.map_id _)
      rw [hmap, ← hflat, hrem, List.append_nil]
    · -- another sibling count
      simp [hrem, hcount] at h
      cases h
  · -- bytes left after the last chunk
    simp [hrem] at h
    cases h

/-! ## Round trips -/

/-- The decoder on a bitmap and a tag: the terminal, then the siblings. -/
theorem fromBytes_append (bitmap : Vector UInt8 32) (tag : UInt8) (rem : List UInt8) :
    OwnedSmtProof.fromBytes (bitmap.toList ++ tag :: rem) =
      (parseTerminal bitmap tag rem).bind fun r => decodeSiblings bitmap r.1 r.2 := by
  have hlen : bitmap.toList.length = 32 := Vector.length_toList
  have hbitmap : (⟨((bitmap.toList ++ tag :: rem).take 32).toArray, by simp⟩ : Vector UInt8 32) = bitmap := by
    apply Vector.toList_inj.mp
    rw [Vector.toList_mk, List.toList_toArray, List.take_left' hlen]
  unfold OwnedSmtProof.fromBytes
  rw [dif_neg (by rw [List.length_append]; omega)]
  simp only [List.drop_left' hlen, hbitmap]
  rfl

/-- Every accepted byte string is a bitmap followed by a tag. -/
theorem eq_append_of_fromBytes_eq_ok {data : List UInt8} {q : OwnedSmtProof}
    (h : OwnedSmtProof.fromBytes data = .ok q) :
    ∃ (bitmap : Vector UInt8 32) (tag : UInt8) (rem : List UInt8), data = bitmap.toList ++ tag :: rem := by
  unfold OwnedSmtProof.fromBytes at h
  split_ifs at h with hshort
  split at h
  · cases h
  · rename_i tag rem hdrop
    refine ⟨⟨(data.take 32).toArray, by simp; omega⟩, tag, rem, ?_⟩
    rw [Vector.toList_mk, List.toList_toArray, ← hdrop, List.take_append_drop]

/-- A proof whose sibling count is the number of clear bitmap bits below its
terminal depth decodes from its bytes. -/
theorem fromBytes_toBytes (p : OwnedSmtProof)
    (h : p.siblings.length = bitmapClearCountBefore p.bitmap p.terminal) :
    OwnedSmtProof.fromBytes p.toBytes = .ok p := by
  obtain ⟨tag, rem, hterm, hparse⟩ :=
    parseTerminal_toBytes p.bitmap p.terminal (p.siblings.map hashAsBytes).flatten
  rw [OwnedSmtProof.toBytes, List.append_assoc, hterm, fromBytes_append, hparse]
  exact decodeSiblings_flatten _ _ _ h

/-- What the decoder accepts is the encoding of what it returns. -/
theorem toBytes_fromBytes {data : List UInt8} {q : OwnedSmtProof}
    (h : OwnedSmtProof.fromBytes data = .ok q) : q.toBytes = data := by
  obtain ⟨bitmap, tag, rem, rfl⟩ := eq_append_of_fromBytes_eq_ok h
  rw [fromBytes_append] at h
  cases hp : parseTerminal bitmap tag rem with
  | error e =>
    rw [hp] at h
    cases h
  | ok r =>
    rw [hp] at h
    obtain ⟨hq, hsiblings⟩ := decodeSiblings_eq_ok h
    rw [hq, OwnedSmtProof.toBytes]
    simp only
    rw [List.append_assoc, hsiblings, ← parseTerminal_eq_ok hp]

/-- The wire format round-trips: a proof whose sibling count is the number of
clear bitmap bits below its terminal depth decodes from its bytes, and what the
decoder accepts is the encoding of what it returns. -/
theorem ownedSmtProof_wire_round_trip :
    (∀ p : OwnedSmtProof, p.siblings.length = bitmapClearCountBefore p.bitmap p.terminal →
      OwnedSmtProof.fromBytes p.toBytes = .ok p) ∧
    (∀ (data : List UInt8) (q : OwnedSmtProof), OwnedSmtProof.fromBytes data = .ok q → q.toBytes = data) :=
  ⟨fun p h => fromBytes_toBytes p h, fun _ _ h => toBytes_fromBytes h⟩

/-- The proof of a two-leaf tree, stopped at a collapsed node at depth 1 with one
sibling, goes through its bytes and back. -/
theorem ownedSmtProof_wire_round_trip_twoLeaf :
    OwnedSmtProof.fromBytes (twoLeafProof 5#256).toBytes = .ok (twoLeafProof 5#256) ∧
      (twoLeafProof 5#256).toBytes = (twoLeafProof 5#256).toBytes :=
  have hdecode := ownedSmtProof_wire_round_trip.1 (twoLeafProof 5#256) (by decide)
  ⟨hdecode, ownedSmtProof_wire_round_trip.2 _ _ hdecode⟩

end RustyKaspa.Smt
