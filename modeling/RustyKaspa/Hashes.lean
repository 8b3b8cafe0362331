import Mathlib.Data.List.Sort

/-!
# Hashes

Model of `kaspa_hashes::Hash` (`crypto/hashes/src/lib.rs` lines 37–46, 240): 32 bytes. Hashes
are compared with the `Ord` derived on `[u8; 32]`, the lexicographic order of
the bytes, so a hash is modelled as the big-endian number `BitVec 256`, whose
order is that one.
-/

namespace RustyKaspa

/-- `kaspa_hashes::Hash`, read as a big-endian 256-bit number. -/
abbrev Hash := BitVec 256

/-- `ZERO_HASH`: the all-zero hash. -/
def ZERO_HASH : Hash := 0#256

end RustyKaspa
