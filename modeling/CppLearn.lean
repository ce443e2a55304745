import CppLearn.Lib.BoundedLoop
import CppLearn.Lib.RedBlackShape
import CppLearn.RedBlackTree.Defs
import CppLearn.RedBlackTree.Represents
import CppLearn.RedBlackTree.InsertFixup
import CppLearn.RedBlackTree.EraseFixup
import CppLearn.RedBlackTree.Unlink
import CppLearn.RedBlackTree.Correctness
import CppLearn.RedBlackTree.Height
import CppLearn.RedBlackTree.Fixups
import CppLearn.Lib.ByteMemory
import CppLearn.Lib.Unsigned
import CppLearn.RingBuffer.Correctness
import CppLearn.RingBuffer.Reads
import CppLearn.Buddy.Correctness
import CppLearn.Buddy.Refusals
import CppLearn.Buddy.Histories
import CppLearn.Buddy.Uneven
import CppLearn.Buddy.Termination
import CppLearn.Lib.LinkedList
import CppLearn.ShmMsgQueue.ChunkList
import CppLearn.ShmMsgQueue.Custody
import CppLearn.ShmMsgQueue.Shutdown
import CppLearn.ShmMsgQueue.Closing
import CppLearn.ShmMsgQueue.Delivery
import CppLearn.ShmMsgQueue.Leaks
import CppLearn.ShmMsgQueue.Idle
import CppLearn.Lib.BoundaryTags
import CppLearn.Lib.BlockRuns
import CppLearn.MallocLab.Coalesce
import CppLearn.MallocLab.Frame
import CppLearn.MallocLab.Correctness
import CppLearn.MallocLab.Calls
import CppLearn.MallocLab.Merging
import CppLearn.MallocLab.Unchecked
import CppLearn.MallocLab.Bookkeeping
import CppLearn.MallocLab.DriverChecks
import CppLearn.MallocLab.DriverSoundness
import CppLearn.MallocLab.Utilization
import CppLearn.SegmentTree.Correctness
import CppLearn.Lib.ObservedRuns
import CppLearn.SegmentTree.Sets
import CppLearn.SegmentTree.Beyond
import CppLearn.SegmentTree.Root
import CppLearn.SegmentTree.Reinit
import CppLearn.SegmentTree.Indices
import CppLearn.BinaryIndexTree.Correctness
import CppLearn.BinaryIndexTree.Reinit
import CppLearn.BinaryIndexTree.Narrow
import CppLearn.Lib.CountedLoop
import CppLearn.Lib.RangeFold
import CppLearn.SparseTable.Correctness
import CppLearn.UFS.Correctness
import CppLearn.UFS.Depth
import CppLearn.Graph.Spfa
import CppLearn.Graph.Sentinel
import CppLearn.Lib.PriorityQueue
import CppLearn.Graph.Dijkstra
import CppLearn.Graph.DijkstraForce
import CppLearn.Lib.AllPairs
import CppLearn.Graph.Floyd
import CppLearn.Graph.FloydGraph
import CppLearn.Lib.TopologicalOrder
import CppLearn.Graph.TopologicalSort
import CppLearn.ThreadPool.Correctness
import CppLearn.BlockingQueue.Wakeups
import CppLearn.BlockingQueue.ClearAndDelete
import CppLearn.Reactor.Counter
import CppLearn.Reactor.Descriptors
import CppLearn.Reactor.Responses
import CppLearn.Reactor.Simulation
import CppLearn.ObjectBuilder.Correctness
import CppLearn.Lib.HeapArray
import CppLearn.Heap.Correctness
import CppLearn.Lib.SiblingForest
import CppLearn.PairTree.Correctness
import CppLearn.PairTree.Reachable
import CppLearn.PairTree.Merges
import CppLearn.Trie.Correctness
import CppLearn.Lib.Rearrangement
import CppLearn.Sorting.MergeSort
import CppLearn.Sorting.HeapSort
import CppLearn.Sorting.QuickSort
import CppLearn.Sorting.ShellConditions
import CppLearn.Sorting.ShellSort
import CppLearn.Lib.StableSort
import CppLearn.Sorting.Exchange
import CppLearn.Sorting.Bucket
import CppLearn.Sorting.Counting
import CppLearn.Sorting.Radix
import CppLearn.Lib.BlockFold
import CppLearn.Md5.Correctness
import CppLearn.Md5.Streaming
import CppLearn.MurmurHash.Collisions
import CppLearn.BloomFilter.Correctness
import CppLearn.BloomFilter.Overcount
import CppLearn.Lib.Borders
import CppLearn.Kmp.Automaton
import CppLearn.Lib.RollingHash
import CppLearn.StringHash.Start
import CppLearn.Lib.ReflectedCrc
import CppLearn.Crc32.Correctness
import CppLearn.Crc32.Errors
import CppLearn.Lib.IndexedZip
import CppLearn.SimdSum.Correctness
import CppLearn.CombineNumber.Permutation
import CppLearn.SpinLock.Correctness
import CppLearn.Singleton.Correctness
import CppLearn.Tarjan.Correctness
import CppLearn.Md5.Extension
import CppLearn.DataLab.Puzzles
import CppLearn.Fcyc.Correctness
import CppLearn.SpadesThree.Client
import CppLearn.Reactor.ReadLoop
import CppLearn.MallocLab.AcceptedTraces
import CppLearn.RedBlackTree.Destructor
import CppLearn.LinkedStack.Correctness
import CppLearn.MonotonicStack.Correctness
import CppLearn.BinPow.Correctness
