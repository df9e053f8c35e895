import GoEntropy.Chain.TxPool
import GoEntropy.Chain.SstoreSafety
import GoEntropy.Chain.ForkId
import GoEntropy.Chain.Isolation
import GoEntropy.Chain.Processor
import GoEntropy.Container.Heap
import GoEntropy.Execution.MemoryAccess
import GoEntropy.Execution.CallRule
import GoEntropy.State.CopyFidelity
import GoEntropy.Execution.StaticCalls
import GoEntropy.Execution.StipendWrites
import GoEntropy.Execution.RefundCounter
import GoEntropy.Execution.LiveContracts
import GoEntropy.Snapshot.Iteration
import GoEntropy.Snapshot.History
import GoEntropy.Rlp.Iterator
import GoEntropy.Rlp.Limits
import GoEntropy.Rlp.Reader
import GoEntropy.Model.TxSize
import GoEntropy.Merkle.Embedded
import GoEntropy.Merkle.SingleProof
import GoEntropy.Merkle.DeriveSha
import GoEntropy.Consensus.Seals
import GoEntropy.Consensus.Uncles
import GoEntropy.Consensus.Beacon
import GoEntropy.Chain.HeaderRange
import GoEntropy.Chain.BlockHashes
import GoEntropy.Fetcher.TxFetcher
