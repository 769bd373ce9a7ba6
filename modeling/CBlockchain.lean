import CBlockchain.Heap
import CBlockchain.Release
import CBlockchain.Traced
import CBlockchain.Copying
import CBlockchain.PerfectTree
import CBlockchain.Automaton
import CBlockchain.Amortized
import CBlockchain.WireFormat
import CBlockchain.Bytes
import CBlockchain.Hashing
import CBlockchain.Layering
import CBlockchain.MerkleTree
import CBlockchain.CalcMerkleTree
import CBlockchain.MerkleTeardown
import CBlockchain.TreeWalk
import CBlockchain.MerkleProcess
import CBlockchain.MerkleVerdict
import CBlockchain.VerifierDomain
import CBlockchain.Tampering
import CBlockchain.VerifyMessages
import CBlockchain.MerkleTests
import CBlockchain.BlockData
import CBlockchain.PuzzleSolvers
import CBlockchain.BlockProcess
import CBlockchain.BlockChain
import CBlockchain.IpcMessage
import CBlockchain.Serdes
import CBlockchain.DataHandlers
import CBlockchain.BufferHistory
import CBlockchain.BufferLedger
import CBlockchain.RequestData
import CBlockchain.ConnectionHandlers
import CBlockchain.EventLoop
import CBlockchain.ServerRuns
import CBlockchain.ServerClosing
import CBlockchain.BufferRuns
import CBlockchain.ServerMemory
import CBlockchain.MessageService
import CBlockchain.ClientIsolation
import CBlockchain.ClientRegions
import CBlockchain.ReceiveLoop
import CBlockchain.Transfer
import CBlockchain.RingTransfer
import CBlockchain.TransferInvariant
import CBlockchain.TransferSteps
import CBlockchain.TransferServer
import CBlockchain.TransferProgress
import CBlockchain.TransferCosts
import CBlockchain.TransferWork
import CBlockchain.TransferBound
import CBlockchain.RingMirror
import CBlockchain.RingSimulation
import CBlockchain.RingRuns
import CBlockchain.LockStep
import CBlockchain.RingLockStep
import CBlockchain.Agreement
import CBlockchain.Delivery
import CBlockchain.RingDelivery
import CBlockchain.RingAgreement
import CBlockchain.RingCompletion
import CBlockchain.P2pMessage
import CBlockchain.P2pSerdes
import CBlockchain.StatusFrames
import CBlockchain.Decoders
import CBlockchain.BlockDecoder
import CBlockchain.ClientLoop
import CBlockchain.RingAccounting
import CBlockchain.Ingestion
import CBlockchain.SlotDecoder
import CBlockchain.SignedBlocks
import CBlockchain.P2pEventLoop
import CBlockchain.P2pRuns
import CBlockchain.BlockReady
import CBlockchain.BlockOffers
import CBlockchain.P2pListen
import CBlockchain.RequestTags
import CBlockchain.MalformedInput
import CBlockchain.P2pExchange
import CBlockchain.P2pDelivery
import CBlockchain.P2pReceipt
import CBlockchain.P2pConversation
import CBlockchain.P2pProgress
