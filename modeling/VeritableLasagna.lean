import VeritableLasagna.Algo.BitCount
import VeritableLasagna.Algo.Gcd
import VeritableLasagna.Algo.Lcm
import VeritableLasagna.Algo.PowerOfTwo
import VeritableLasagna.Algo.Rand
import VeritableLasagna.Arena.Alloc
import VeritableLasagna.Arena.Basic
import VeritableLasagna.Arena.Capacity
import VeritableLasagna.Arena.Coalesce
import VeritableLasagna.Arena.Concat
import VeritableLasagna.Arena.Invariant
import VeritableLasagna.Arena.Realloc
import VeritableLasagna.Arena.Runs
import VeritableLasagna.AsyncPool.Accounting
import VeritableLasagna.AsyncPool.Basic
import VeritableLasagna.AsyncPool.Blocks
import VeritableLasagna.AsyncPool.Client
import VeritableLasagna.AsyncPool.Exclusive
import VeritableLasagna.AsyncPool.Geometry
import VeritableLasagna.AsyncPool.Sequential
import VeritableLasagna.AsyncPool.Walks
import VeritableLasagna.AsyncQueue.Basic
import VeritableLasagna.AsyncQueue.Delivery
import VeritableLasagna.AsyncQueue.Ledger
import VeritableLasagna.AsyncQueue.Order
import VeritableLasagna.AsyncQueue.Runs
import VeritableLasagna.AsyncQueue.Sound
import VeritableLasagna.AsyncQueue.Steps
import VeritableLasagna.Deque.Basic
import VeritableLasagna.Deque.Discard
import VeritableLasagna.Deque.Runs
import VeritableLasagna.Dom.Around
import VeritableLasagna.Dom.Array
import VeritableLasagna.Dom.Basic
import VeritableLasagna.Dom.Canonical
import VeritableLasagna.Dom.Child
import VeritableLasagna.Dom.Client
import VeritableLasagna.Dom.Codec
import VeritableLasagna.Dom.Decoding
import VeritableLasagna.Dom.Document
import VeritableLasagna.Dom.Edit
import VeritableLasagna.Dom.Edits
import VeritableLasagna.Dom.Free
import VeritableLasagna.Dom.Indexed
import VeritableLasagna.Dom.Insert
import VeritableLasagna.Dom.Insertion
import VeritableLasagna.Dom.Isolated
import VeritableLasagna.Dom.Items
import VeritableLasagna.Dom.Parsing
import VeritableLasagna.Dom.Place
import VeritableLasagna.Dom.Reading
import VeritableLasagna.Dom.Remove
import VeritableLasagna.Dom.Rollback
import VeritableLasagna.Dom.RoundTrip
import VeritableLasagna.Dom.Saved
import VeritableLasagna.Dom.Shown
import VeritableLasagna.Dom.Storage
import VeritableLasagna.Dom.Tree
import VeritableLasagna.Dom.Writing
import VeritableLasagna.Filesys.Basic
import VeritableLasagna.Filesys.Confined
import VeritableLasagna.Filesys.FileName
import VeritableLasagna.Filesys.Normalize
import VeritableLasagna.Filesys.Objects
import VeritableLasagna.Filesys.Path
import VeritableLasagna.Filesys.Refine
import VeritableLasagna.Filesys.Rewrite
import VeritableLasagna.Filesys.Strings
import VeritableLasagna.Filesys.Traversal
import VeritableLasagna.Filesys.Tree
import VeritableLasagna.Half.FromFloat
import VeritableLasagna.Half.ToFloat
import VeritableLasagna.Hash.Fnv
import VeritableLasagna.HashTable.Absent
import VeritableLasagna.HashTable.Basic
import VeritableLasagna.HashTable.Chains
import VeritableLasagna.HashTable.Client
import VeritableLasagna.HashTable.Copy
import VeritableLasagna.HashTable.Grow
import VeritableLasagna.HashTable.Insert
import VeritableLasagna.HashTable.Map
import VeritableLasagna.HashTable.Nodes
import VeritableLasagna.HashTable.Remove
import VeritableLasagna.HashTable.Reserve
import VeritableLasagna.HashTable.Resize
import VeritableLasagna.HashTable.Runs
import VeritableLasagna.HashTable.Walk
import VeritableLasagna.Lib.Bits
import VeritableLasagna.Lib.Bytes
import VeritableLasagna.Lib.Chain
import VeritableLasagna.Lib.Chunks
import VeritableLasagna.Lib.ColorTree
import VeritableLasagna.Lib.Comparator
import VeritableLasagna.Lib.Forest
import VeritableLasagna.Lib.ForwardList
import VeritableLasagna.Lib.Frames
import VeritableLasagna.Lib.Ledger
import VeritableLasagna.Lib.LinkedList
import VeritableLasagna.Lib.LinkedTree
import VeritableLasagna.Lib.Machine
import VeritableLasagna.Lib.MergeSort
import VeritableLasagna.Lib.QuickSort
import VeritableLasagna.Lib.Ranking
import VeritableLasagna.Lib.Rounding
import VeritableLasagna.Lib.Simulation
import VeritableLasagna.Lib.Split
import VeritableLasagna.Lib.Store
import VeritableLasagna.Lib.Threads
import VeritableLasagna.Lib.Tiling
import VeritableLasagna.Lib.Traced
import VeritableLasagna.Lib.Words
import VeritableLasagna.LinkedList.Basic
import VeritableLasagna.LinkedList.Copy
import VeritableLasagna.LinkedList.Layout
import VeritableLasagna.LinkedList.Mutators
import VeritableLasagna.LinkedList.Runs
import VeritableLasagna.LinkedList.Sort
import VeritableLasagna.LinkedList.Sorted
import VeritableLasagna.Log.Basic
import VeritableLasagna.Log.Drain
import VeritableLasagna.Log.Flush
import VeritableLasagna.Memory.Aligned
import VeritableLasagna.Memory.Basic
import VeritableLasagna.Memory.Buffer
import VeritableLasagna.Memory.BufferCopy
import VeritableLasagna.Memory.Header
import VeritableLasagna.Memory.Realloc
import VeritableLasagna.Memory.Reverse
import VeritableLasagna.Memory.Sort
import VeritableLasagna.Memory.Sorted
import VeritableLasagna.Memory.Vector
import VeritableLasagna.MsgPack.Accepts
import VeritableLasagna.MsgPack.Bounds
import VeritableLasagna.MsgPack.Containers
import VeritableLasagna.MsgPack.Decoder
import VeritableLasagna.MsgPack.Encoder
import VeritableLasagna.MsgPack.Ext
import VeritableLasagna.MsgPack.Format
import VeritableLasagna.MsgPack.Grammar
import VeritableLasagna.MsgPack.Lengths
import VeritableLasagna.MsgPack.Misuse
import VeritableLasagna.MsgPack.RoundTrip
import VeritableLasagna.MsgPack.Scalars
import VeritableLasagna.MsgPack.Serial
import VeritableLasagna.MsgPack.Shortest
import VeritableLasagna.MsgPack.StaleTail
import VeritableLasagna.MsgPack.Texts
import VeritableLasagna.Pool.Basic
import VeritableLasagna.Pool.Clone
import VeritableLasagna.Pool.Copies
import VeritableLasagna.Pool.Geometry
import VeritableLasagna.Pool.Invariant
import VeritableLasagna.Pool.Nodes
import VeritableLasagna.Pool.Reserve
import VeritableLasagna.Pool.Runs
import VeritableLasagna.Pool.Table
import VeritableLasagna.Queue.Basic
import VeritableLasagna.Queue.Runs
import VeritableLasagna.Queue.Size
import VeritableLasagna.Set.Algebra
import VeritableLasagna.Set.Basic
import VeritableLasagna.Set.Entries
import VeritableLasagna.Set.Insert
import VeritableLasagna.Set.InsertFixup
import VeritableLasagna.Set.Layout
import VeritableLasagna.Set.Remove
import VeritableLasagna.Set.RemoveFixup
import VeritableLasagna.Set.Runs
import VeritableLasagna.Set.Traversal
import VeritableLasagna.Socket.Address
import VeritableLasagna.Stack.Basic
import VeritableLasagna.Stack.Runs
import VeritableLasagna.Stream.Basic
import VeritableLasagna.Stream.Buffer
import VeritableLasagna.Stream.Memory
import VeritableLasagna.Stream.RefCount
import VeritableLasagna.Sync.Semaphore
import VeritableLasagna.ThreadPool.Accounts
import VeritableLasagna.ThreadPool.Basic
import VeritableLasagna.ThreadPool.Shutdown
import VeritableLasagna.ThreadPool.Wait
import VeritableLasagna.ThreadPool.Wakeup
