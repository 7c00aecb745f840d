import NvHashMap.Lib.PowTwo
import NvHashMap.Lib.Coverage
import NvHashMap.Lib.Buffer
import NvHashMap.Lib.SlotCount
import NvHashMap.Lib.TopK
import NvHashMap.Lib.Transition
import NvHashMap.Lib.BitScan
import NvHashMap.Lib.Lanes
import NvHashMap.Lib.Cursor
import NvHashMap.Lib.Sweep
import NvHashMap.Lib.Fifo
import NvHashMap.Lib.ByteSum
import NvHashMap.Lib.SlotSet
import NvHashMap.Lib.Histogram
import NvHashMap.Lib.Arena
import NvHashMap.Common
import NvHashMap.Hash
import NvHashMap.ProbeSeq
import NvHashMap.Conf
import NvHashMap.Bits
import NvHashMap.Mask
import NvHashMap.Mask.Sets
import NvHashMap.Bucket
import NvHashMap.Kernel.ArrayKernel
import NvHashMap.Kernel.UintKernel
import NvHashMap.Kernel.Functions
import NvHashMap.Kernel.ArrayFunctions
import NvHashMap.Kernel.UintFunctions
import NvHashMap.Map
import NvHashMap.Map.Invariant
import NvHashMap.Map.Update
import NvHashMap.Map.Search
import NvHashMap.Map.Resize
import NvHashMap.Map.Insert
import NvHashMap.Map.Erase
import NvHashMap.Map.Transport
import NvHashMap.Map.Run
import NvHashMap.Map.Refinement
import NvHashMap.Map.Values
import NvHashMap.Map.Calls
import NvHashMap.Map.Ledger
import NvHashMap.Map.Scrub
import NvHashMap.Map.Prune
import NvHashMap.Map.Change
import NvHashMap.Map.Still
import NvHashMap.Map.Contents
import NvHashMap.Kernel.Collisions
import NvHashMap.Map.Passes
import NvHashMap.Map.Fixpoint
import NvHashMap.Map.Capacity
import NvHashMap.Map.Duplicates
import NvHashMap.Map.Order
import NvHashMap.Map.Equality
import NvHashMap.Map.Index
import NvHashMap.Map.Positions
import NvHashMap.Map.Objects
import NvHashMap.Map.Exceptions
import NvHashMap.Cache
import NvHashMap.Cache.Table
import NvHashMap.Cache.Invariant
import NvHashMap.Cache.Insert
import NvHashMap.Cache.Resize
import NvHashMap.Cache.Run
import NvHashMap.Cache.Lru
import NvHashMap.Cache.Scrub
import NvHashMap.Cache.Survivors
import NvHashMap.Kernel.Choice
import NvHashMap.Iterator
import NvHashMap.Iteration
import NvHashMap.StdMapShim
import NvHashMap.StdMapShim.EraseRange
import NvHashMap.StdMapShim.EqualRange
import NvHashMap.Cache.Traversal
import NvHashMap.Assertions
import NvHashMap.EraseIf
import NvHashMap.Sharded
import NvHashMap.Sharded.Iteration
import NvHashMap.Sharded.Calls
import NvHashMap.Sharded.Refinement
import NvHashMap.Prefetch
import NvHashMap.Lib.Simd
import NvHashMap.Lib.X86
import NvHashMap.Kernel.X86.Parts
import NvHashMap.Kernel.X86.Sse
import NvHashMap.Kernel.X86.Avx
import NvHashMap.Kernel.X86.Avx512
import NvHashMap.Mutex
import NvHashMap.Mutex.Safety
import NvHashMap.Mutex.Wakeup
import NvHashMap.Mutex.Locks
import NvHashMap.Mutex.Ownership
import NvHashMap.Lib.Neon
import NvHashMap.Kernel.Neon.Parts
import NvHashMap.Kernel.Neon.Packing
