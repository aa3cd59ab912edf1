import SimplifiedPrism.FiniteMap
import SimplifiedPrism.TransitionSystem
import SimplifiedPrism.Merkle
import SimplifiedPrism.Blockchain
import SimplifiedPrism.Ledger
import SimplifiedPrism.Node
import SimplifiedPrism.Worker
import SimplifiedPrism.Miner
import SimplifiedPrism.Generator
import SimplifiedPrism.System
import SimplifiedPrism.AcceptedChains
import SimplifiedPrism.BlockPath
import SimplifiedPrism.DeliveryOrder
import SimplifiedPrism.Lookups
import SimplifiedPrism.MinerAcceptance
import SimplifiedPrism.BlockTree
import SimplifiedPrism.LostTransactions
import SimplifiedPrism.PackedTransactions
import SimplifiedPrism.ReferenceLists
import SimplifiedPrism.SpendableMempool
import SimplifiedPrism.Peer
import SimplifiedPrism.AddressGossip
import SimplifiedPrism.BlockGossip
import SimplifiedPrism.PublicationOrder
import SimplifiedPrism.StrandedOrphans
import SimplifiedPrism.Uninterrupted
import SimplifiedPrism.PeerRegistry
import SimplifiedPrism.PartialUpdate
import SimplifiedPrism.Admission
import SimplifiedPrism.VectorBounds
import SimplifiedPrism.Sortition
import SimplifiedPrism.MinedEntries
import SimplifiedPrism.LongestChain
import SimplifiedPrism.ExactReferences
import SimplifiedPrism.OrphanRelease
import SimplifiedPrism.GeneratorAcceptance
import SimplifiedPrism.MerkleBinding
import SimplifiedPrism.FrameReader
import SimplifiedPrism.Balances
import SimplifiedPrism.ContentBinding
import SimplifiedPrism.ConcurrentLedgers
import SimplifiedPrism.Stoppages
import SimplifiedPrism.Draining
import SimplifiedPrism.Transport
import SimplifiedPrism.Confirmations
import SimplifiedPrism.ClosedLocks
import SimplifiedPrism.Gossip
import SimplifiedPrism.Dissemination
import SimplifiedPrism.Spreading
import SimplifiedPrism.Convergence
import SimplifiedPrism.History
import SimplifiedPrism.Requests
import SimplifiedPrism.Control
import SimplifiedPrism.StartOrder
