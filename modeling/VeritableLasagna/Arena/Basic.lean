import VeritableLasagna.Memory.Basic
import VeritableLasagna.Set.Basic
import VeritableLasagna.Lib.Tiling

/-!
# The arena allocator

`vl_arena` hands out pieces of one growing memory block. The free pieces are the elements of a
`vl_set`, ordered by their offset; a live piece starts with a header of 8 bytes
(`sizeof(vl_memsize_t)`) that holds its size, header included, and its handle is the offset behind
that header.

* Sizes are natural numbers. Where the source adds the header to a requested size, the sum wraps
  at 64 bits as it does there; a growth that leaves 64 bits is a fault.
* Node pointers into the free set are named by their iterators and read when the source reads them.
-/

namespace VeritableLasagna

/-- `vl_arena_node`. -/
abbrev VlArenaNode := Block

/-- `vl_ArenaNodeCompare`. -/
def vlArenaNodeCompare (a b : VlArenaNode) : ℤ :=
  (if a.offset > b.offset then 1 else 0) - (if b.offset > a.offset then 1 else 0)

/-- `sizeof(vl_arena_node)`. -/
def vlArenaNodeSize : ℕ := 16

/-- `vl_arena`. -/
structure VlArena where
  data : VlMemory
  freeSet : VlSet VlArenaNode

/-- `vlArenaInit`, when the heap holds the bytes `contents`. -/
def vlArenaInit (contents : ByteMem) (initialSize : ℕ) : Except Fault VlArena := do
  let (_, freeSet) ← vlSetInsert (vlSetInit vlArenaNodeSize vlArenaNodeCompare) ⟨0, initialSize⟩
  return { data := vlMemAlloc contents initialSize, freeSet }

/-- `vlArenaClear`. -/
def vlArenaClear (arena : VlArena) : Except Fault VlArena := do
  let freeSet ← vlSetClear arena.freeSet
  let (_, freeSet) ← vlSetInsert freeSet ⟨0, vlMemSize arena.data⟩
  return { arena with freeSet }

/-- `vlArenaTotalCapacity`. -/
def vlArenaTotalCapacity (arena : VlArena) : ℕ := vlMemSize arena.data

/-- `vlArenaTotalFree`. -/
def vlArenaTotalFree (arena : VlArena) : Except Fault ℕ := do
  let iters ← vlSetForeach .left arena.freeSet
  iters.foldlM (fun sum iter => do
    let node ← deref (vlSetSample arena.freeSet (some iter))
    return (sum + node.size) % 2 ^ 64) 0

/-! ### Coalescing -/

/-- Phase 1 of `vl_HeapCoalesce`: scan right as long as the blocks are adjacent. -/
def vlHeapCoalesceRight (freeSet : VlSet VlArenaNode) :
    ℕ → Option VlPoolIdx → Option VlPoolIdx → Except Fault (Option VlPoolIdx)
  | _, rightIter, none => .ok rightIter
  | 0, _, some _ => .error .noReturn
  | fuel + 1, rightIter, some tempIter =>
    match vlSetSample freeSet (some tempIter) with
    | none => .ok rightIter
    | some node => do
      let rightNode ← deref (vlSetSample freeSet rightIter)
      if rightNode.offset + rightNode.size ≠ node.offset then return rightIter
      else do
        let next ← vlSetNext freeSet (some tempIter)
        vlHeapCoalesceRight freeSet fuel (some tempIter) next

/-- Phase 2 of `vl_HeapCoalesce`: scan left and merge adjacent blocks. -/
def vlHeapCoalesceLeft :
    ℕ → VlSet VlArenaNode → Option VlPoolIdx → Option VlPoolIdx → Except Fault (VlSet VlArenaNode)
  | _, freeSet, _, none => .ok freeSet
  | 0, _, _, some _ => .error .noReturn
  | fuel + 1, freeSet, rightIter, some leftIter =>
    match vlSetSample freeSet (some leftIter) with
    | none => .ok freeSet
    | some leftNode => do
      let rightNode ← deref (vlSetSample freeSet rightIter)
      if leftNode.offset + leftNode.size ≠ rightNode.offset then return freeSet
      else do
        let freeSet ← freeSet.write (some leftIter)
          { leftNode with size := leftNode.size + rightNode.size }
        let nextLeftIter ← vlSetPrev freeSet (some leftIter)
        let freeSet ← vlSetRemove freeSet rightIter
        vlHeapCoalesceLeft fuel freeSet (some leftIter) nextLeftIter

/-- `vl_HeapCoalesce`. -/
def vlHeapCoalesce (freeSet : VlSet VlArenaNode) (rightIter : Option VlPoolIdx) :
    Except Fault (VlSet VlArenaNode) :=
  if rightIter.isNone ∨ (vlSetSample freeSet rightIter).isNone then .ok freeSet
  else do
    let tempIter ← vlSetNext freeSet rightIter
    let rightIter ← vlHeapCoalesceRight freeSet freeSet.totalElements rightIter tempIter
    let leftIter ← vlSetPrev freeSet rightIter
    vlHeapCoalesceLeft freeSet.totalElements freeSet rightIter leftIter

/-- Insert a free node and coalesce around it, as the source does wherever memory becomes free. -/
def VlArena.addFree (arena : VlArena) (newNode : VlArenaNode) : Except Fault VlArena := do
  let (iter, freeSet) ← vlSetInsert arena.freeSet newNode
  let freeSet ← vlHeapCoalesce freeSet (some iter)
  return { arena with freeSet }

/-- `vlArenaReserve`. -/
def vlArenaReserve (arena : VlArena) (numBytes : ℕ) : Except Fault VlArena := do
  let freeMem ← vlArenaTotalFree arena
  let initSize := vlMemSize arena.data
  let numBytes := numBytes - (if numBytes ≤ freeMem then 0 else freeMem)
  let newSize ← vlMemDouble (numBytes + initSize) 65 initSize
  let data := vlMemGrow arena.data newSize
  let growth := vlMemSize data - initSize
  VlArena.addFree { arena with data } ⟨initSize, growth⟩

/-! ### Allocation -/

/-- The search of `vlArenaMemAlloc` for the first free node of at least `size` bytes. -/
def vlArenaMemAllocLoop (arena : VlArena) (size : ℕ) :
    ℕ → Option VlPoolIdx → Except Fault (Option (ℕ × VlArena))
  | _, none => .ok none
  | 0, some _ => .error .noReturn
  | fuel + 1, some freeIter => do
    let arenaNode ← deref (vlSetSample arena.freeSet (some freeIter))
    if arenaNode.size = size then do
      -- a perfect match leaves the free set
      let freeSet ← vlSetRemove arena.freeSet (some freeIter)
      let data ← arena.data.storeNumber arenaNode.offset 8 size
      return some (arenaNode.offset + 8, { data, freeSet })
    else if arenaNode.size > size then do
      -- a larger node loses its end
      let rest := arenaNode.size - size
      let freeSet ← arena.freeSet.write (some freeIter) { arenaNode with size := rest }
      let data ← arena.data.storeNumber (arenaNode.offset + rest) 8 size
      return some (arenaNode.offset + rest + 8, { data, freeSet })
    else do
      let freeIter ← vlSetNext arena.freeSet (some freeIter)
      vlArenaMemAllocLoop arena size fuel freeIter

/-- The end of `vlArenaMemAlloc`: grow the memory and take its last `size` bytes. -/
def vlArenaMemAllocGrow (arena : VlArena) (size : ℕ) : Except Fault (ℕ × VlArena) := do
  let initSize := vlMemSize arena.data
  let newSize ← vlMemDouble (size + initSize) 65 initSize
  let data := vlMemGrow arena.data newSize
  let growth := vlMemSize data - initSize
  let arena ← VlArena.addFree { arena with data } ⟨initSize, growth - size⟩
  let sizePtr := initSize + (growth - size)
  let data ← arena.data.storeNumber sizePtr 8 size
  return (sizePtr + 8, { arena with data })

/-- `vlArenaMemAlloc`. Returns the handle, or 0 for an empty request. -/
def vlArenaMemAlloc (arena : VlArena) (size : ℕ) : Except Fault (ℕ × VlArena) :=
  if size = 0 then .ok (0, arena)
  else do
    let freeIter ← vlSetFront arena.freeSet
    let size := (size + 8) % 2 ^ 64
    let found ← vlArenaMemAllocLoop arena size arena.freeSet.totalElements freeIter
    match found with
    | some r => return r
    | none => vlArenaMemAllocGrow arena size

/-- The offset of the header of a handle: `ptr -= sizeof(vl_memsize_t)`. -/
def vlArenaMemHeader (ptr : ℕ) : Except Fault ℕ :=
  if 8 ≤ ptr then .ok (ptr - 8) else .error .outOfBounds

/-- `vlArenaMemSize`. -/
def vlArenaMemSize (arena : VlArena) (ptr : ℕ) : Except Fault ℕ := do
  let ptr ← vlArenaMemHeader ptr
  let size ← arena.data.loadNumber ptr 8
  return (size + (2 ^ 64 - 8)) % 2 ^ 64

/-- `vlArenaMemFree`. -/
def vlArenaMemFree (arena : VlArena) (ptr : ℕ) : Except Fault VlArena := do
  let ptr ← vlArenaMemHeader ptr
  let size ← arena.data.loadNumber ptr 8
  if size = 0 then return arena else arena.addFree ⟨ptr, size⟩

/-! ### Reallocation -/

/-- The path of `vlArenaMemRealloc` that cuts the end off the block at `ptr`. -/
def vlArenaMemShrink (arena : VlArena) (ptr size origSize : ℕ) : Except Fault (ℕ × VlArena) := do
  let arena ← arena.addFree ⟨ptr + size, origSize - size⟩
  let data ← arena.data.storeNumber ptr 8 size
  return (ptr + 8, { arena with data })

/-- The path of `vlArenaMemRealloc` that takes memory from the free node `rightIter` behind the
block at `ptr`. -/
def vlArenaMemExtend (arena : VlArena) (ptr size origSize : ℕ) (rightIter : Option VlPoolIdx)
    (rightNode : VlArenaNode) : Except Fault (ℕ × VlArena) := do
  let freeSet ← vlSetRemove arena.freeSet rightIter
  let rest : VlArenaNode := ⟨ptr + size, origSize + rightNode.size - size⟩
  let freeSet ←
    if rightNode.size + origSize ≠ size then Prod.snd <$> vlSetInsert freeSet rest
    else .ok freeSet
  let data ← arena.data.storeNumber ptr 8 size
  return (ptr + 8, { data, freeSet })

/-- The path of `vlArenaMemRealloc` that moves the block at `ptr`. Both `ptr` and `size` already
account for the header. -/
def vlArenaMemMove (arena : VlArena) (ptr size origSize : ℕ) : Except Fault (ℕ × VlArena) := do
  let (result, arena) ← vlArenaMemAlloc arena size
  let bytes ← arena.data.load ptr origSize
  let data ← arena.data.store result bytes
  let arena ← vlArenaMemFree { arena with data } (ptr + 8)
  return (result, arena)

/-- `vlArenaMemRealloc`. Returns the new handle. -/
def vlArenaMemRealloc (arena : VlArena) (ptr size : ℕ) : Except Fault (ℕ × VlArena) := do
  let ptr ← vlArenaMemHeader ptr
  let size := (size + 8) % 2 ^ 64
  let origSize ← arena.data.loadNumber ptr 8
  if size = origSize then return (ptr, arena)
  else if origSize > size then vlArenaMemShrink arena ptr size origSize
  else do
    let searchOffset := ptr + origSize
    let rightIter ← vlSetFind arena.freeSet ⟨searchOffset, 0⟩
    match rightIter with
    | none => vlArenaMemMove arena ptr size origSize
    | some i => do
      let rightNode ← deref (vlSetSample arena.freeSet (some i))
      if rightNode.size + origSize ≥ size then
        vlArenaMemExtend arena ptr size origSize (some i) rightNode
      else vlArenaMemMove arena ptr size origSize

end VeritableLasagna
