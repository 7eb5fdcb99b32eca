import CcRpc.Lib.Framing
import CcRpc.Lib.Runs
import CcRpc.Grammar
import CcRpc.Services
import CcRpc.LongFields
import CcRpc.CrossHost
import CcRpc.Reasm
import CcRpc.OnData
import CcRpc.LostChunks
import CcRpc.FrameLoop
import CcRpc.Lib.Chain
import CcRpc.Lib.Tiling
import CcRpc.Heap
import CcRpc.HeapBlocks
import CcRpc.HeapRefine
import CcRpc.HeapRelease
import CcRpc.HeapRuns
import CcRpc.HeapSafety
import CcRpc.HeapCanonical
import CcRpc.Lib.Assoc
import CcRpc.Lib.Blocks
import CcRpc.Hashmap
import CcRpc.HashmapRuns
import CcRpc.Node
import CcRpc.NodeFrames
import CcRpc.Matching
import CcRpc.Peers
import CcRpc.Answering
import CcRpc.SendStream
import CcRpc.PortCalls
import CcRpc.LockBalance
import CcRpc.CleanUp
import CcRpc.Timeout
import CcRpc.FieldBuffers
import CcRpc.BufferRelease
import CcRpc.ReceivedStream
import CcRpc.Serving
import CcRpc.Acceptance
import CcRpc.StubBuffer
import CcRpc.Sequence
import CcRpc.Requests
import CcRpc.Names
import CcRpc.Truncation
import CcRpc.FailedReads
import CcRpc.OptionalCallbacks
import CcRpc.RequestTable
import CcRpc.RbtreeRuns
import CcRpc.Lib.Ring
import CcRpc.MemAlloc
import CcRpc.MemAllocBlocks
import CcRpc.MemAllocCalls
import CcRpc.MemAllocRuns
import CcRpc.RbtreeOrder
import CcRpc.RbtreeQueries
import CcRpc.RbtreeReplace
import CcRpc.MemAllocFit
import CcRpc.HeapRequests
import CcRpc.MemAllocRequests
import CcRpc.Lib.Prefixes
import CcRpc.Radix
import CcRpc.RadixShape
import CcRpc.RadixHeap
import CcRpc.RadixSearch
import CcRpc.RadixUpdate
import CcRpc.RadixInsert
import CcRpc.RadixDelete
import CcRpc.RadixRuns
import CcRpc.RadixMap
import CcRpc.RadixBound
import CcRpc.RadixFailure
import CcRpc.Payload
import CcRpc.Membit
import CcRpc.MembitRuns
import CcRpc.LinkList
import CcRpc.MemPool
import CcRpc.MemPoolShape
import CcRpc.MemPoolCalls
import CcRpc.MemPoolRuns
import CcRpc.MgAlloc
import CcRpc.BumpRegion
import CcRpc.PoolRegion
import CcRpc.RegionBlocks
import CcRpc.Lib.Spill
import CcRpc.RegionSteady
import CcRpc.ReasmList
import CcRpc.NodeSteps
import CcRpc.Dispatching
import CcRpc.Awaiting
import CcRpc.Lib.Pipe
import CcRpc.Sending
import CcRpc.Pair
import CcRpc.PairStreams
import CcRpc.Ledger
import CcRpc.Agreement
import CcRpc.TameMethods
import CcRpc.NodeSafety
import CcRpc.Drain
import CcRpc.RemoteCall
import CcRpc.StubCalls
import CcRpc.Lib.HeapPrograms
import CcRpc.HeapUsers
import CcRpc.RegionHeap
import CcRpc.MemorySharing
import CcRpc.HeapStats
import CcRpc.Lib.Rings
import CcRpc.LinkRings
import CcRpc.Queues
import CcRpc.HashmapMemory
import CcRpc.HashmapUsers
import CcRpc.Lib.Monitor
import CcRpc.Waiter
