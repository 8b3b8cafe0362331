import RustyKaspa.Hashes
import RustyKaspa.Lib.MerklePath
import RustyKaspa.Lib.ChainWalk
import RustyKaspa.Lib.SortedList
import RustyKaspa.Lib.BitRegroup
import RustyKaspa.Lib.AListFold
import RustyKaspa.Lib.Limbs
import RustyKaspa.Lib.PaddedTree
import RustyKaspa.Lib.UnstableSort
import RustyKaspa.Lib.UnstableSort.Partition
import RustyKaspa.Lib.UnstableSort.Heapsort
import RustyKaspa.Lib.UnstableSort.Quicksort
import RustyKaspa.Lib.DedupBy
import RustyKaspa.Merkle.Root
import RustyKaspa.Merkle.Streaming
import RustyKaspa.Math.Uint
import RustyKaspa.Math.CompactTarget
import RustyKaspa.Txscript.ScriptNum
import RustyKaspa.Txscript.Opcodes
import RustyKaspa.Txscript.ScriptBuilder
import RustyKaspa.Smt.Basic
import RustyKaspa.Smt.Tree
import RustyKaspa.Smt.Proof
import RustyKaspa.Smt.Binding
import RustyKaspa.Smt.Cache
import RustyKaspa.Smt.SparseMerkleTree
import RustyKaspa.Smt.Subtree
import RustyKaspa.Smt.ProofBytes
import RustyKaspa.Smt.FromUnsorted
import RustyKaspa.Consensus.BlockDepth
import RustyKaspa.Consensus.Header
import RustyKaspa.Lib.Maxima
import RustyKaspa.Consensus.ParentsBuilder
import RustyKaspa.Consensus.LevelTips
import RustyKaspa.Consensus.LevelParents
import RustyKaspa.SmtStore.VersionedCache
import RustyKaspa.Addresses.Bech32
import RustyKaspa.Utxo.UtxoCollection
import RustyKaspa.Utxo.UtxoDiff
import RustyKaspa.Lib.BigEndian
import RustyKaspa.SmtStore.LaneVersionKey
import RustyKaspa.SmtStore.LaneVersionStore
import RustyKaspa.Mempool.TransactionsPool
import RustyKaspa.Lib.Worklist
import RustyKaspa.Consensus.Difficulty
import RustyKaspa.Consensus.Ghostdag.Protocol
import RustyKaspa.Consensus.Ghostdag.Coloring
import RustyKaspa.Consensus.Ghostdag.Mergeset
import RustyKaspa.Consensus.Ghostdag.Dag
import RustyKaspa.Lib.NestedIntervals
import RustyKaspa.Consensus.Reachability.Interval
import RustyKaspa.Lib.SortedIntervals
import RustyKaspa.Consensus.Reachability.Store
import RustyKaspa.Consensus.Reachability.Inquirer
import RustyKaspa.Consensus.Reachability.Reindex
import RustyKaspa.Consensus.Reachability.Tree
