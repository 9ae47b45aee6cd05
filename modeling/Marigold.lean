import Marigold.Smt.Wire
import Marigold.Smt.ProofCache
import Marigold.NotePool.Payload
import Marigold.NotePool.SigningPreimage
import Marigold.Consensus.Emission
import Marigold.Consensus.Order
import Marigold.Signer.Aggregation
import Marigold.Consensus.BlockDepth
import Marigold.Consensus.PoolState
import Marigold.Consensus.PoolImport
import Marigold.Consensus.SinkSearch
import Marigold.Wallet.Detection
import Marigold.Wallet.Honest
import Marigold.Wallet.Cover
import Marigold.Wallet.OneTime
import Marigold.Mining.NewBlocks
import Marigold.Mining.Eviction
import Marigold.Script.MultiSig
import Marigold.Consensus.Multiset
import Marigold.Consensus.Lineage
import Marigold.Consensus.PruningPoint
import Marigold.Consensus.CoinbasePayload
import Marigold.Mining.UnspentOutputs
import Marigold.Finality.Accountability
