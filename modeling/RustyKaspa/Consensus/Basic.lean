import RustyKaspa.Hashes

/-!
# Block hashes

The special block hashes of `consensus/core/src/blockhash.rs`.
-/

namespace RustyKaspa.Consensus

/-- `blockhash::NONE` (`consensus/core/src/blockhash.rs` line 8): 32 zero bytes,
the parent of the reachability tree's root. -/
def NONE : Hash := 0#256

/-- `blockhash::ORIGIN` (`consensus/core/src/blockhash.rs` line 13): 32 bytes
`0xfe`, the virtual genesis. -/
def ORIGIN : Hash :=
  BitVec.ofNat 256 0xfefefefefefefefefefefefefefefefefefefefefefefefefefefefefefefefe

end RustyKaspa.Consensus
