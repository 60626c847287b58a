import VeritableLasagna.Memory.Aligned
import VeritableLasagna.Memory.Basic

/-!
# Memory in its block

What `vl_memory.c` hands out lies in a block of `malloc`, behind a header that says how long it is,
how it is aligned, and how far the header is from the start of the block. Here the addresses count:
the block lies wherever `malloc` and `realloc` chose to put it, arithmetic is that of `uintptr_t`, and
a header is the sixteen bytes in front of the memory.

The model has one block, with the bytes that were asked for. An access outside of it is a fault, and
so is giving `realloc` or `free` an address that is not where the block starts. A null pointer of
`malloc` or `realloc` is the fault `outOfMemory`.
-/

namespace VeritableLasagna

/-- A block of `malloc`, in the bytes of the heap. -/
structure HeapBlock where
  bytes : ByteMem
  origin : ℕ
  length : ℕ

/-- `vl_memory_header`. -/
structure VlMemoryHeader where
  length : ℕ
  headOffset : ℕ
  alignment : ℕ

namespace VlMemoryHeader

/-- The header in memory. -/
def toBytes (header : VlMemoryHeader) : List UInt8 :=
  natToLE 8 header.length ++ (natToLE 4 header.headOffset ++ natToLE 4 header.alignment)

/-- The header that lies in memory at an address. -/
def read (m : ByteMem) (p : ℕ) : VlMemoryHeader :=
  ⟨natOfLE (m.slice p 8), natOfLE (m.slice (p + 8) 4), natOfLE (m.slice (p + 12) 4)⟩

end VlMemoryHeader

/-- An address at which `malloc` or `realloc` may put a block: it is not null, it is aligned for every
type of the library, and the end of the block is an address as well. -/
def Returnable (origin length : ℕ) : Prop :=
  0 < origin ∧ vlDefaultMemoryAlign ∣ origin ∧ origin + length < 2 ^ 64

instance (origin length : ℕ) : Decidable (Returnable origin length) := instDecidableAnd

namespace HeapBlock

/-- `malloc` of a number of bytes, at an address the heap chose, with whatever the heap holds
there. -/
def malloc (contents : ByteMem) (origin length : ℕ) : Except Fault HeapBlock :=
  if Returnable origin length then .ok ⟨contents, origin, length⟩ else .error .outOfMemory

/-- `realloc` of the block at address `p`: the bytes the old and the new block have both are copied,
the others are whatever the heap holds there. -/
def realloc (block : HeapBlock) (contents : ByteMem) (moved p length : ℕ) :
    Except Fault HeapBlock :=
  if p = block.origin then
    if Returnable moved length then
      .ok ⟨contents.write moved (block.bytes.slice block.origin (min block.length length)), moved,
        length⟩
    else .error .outOfMemory
  else .error .nullDeref

/-- `free` of the block at address `p`. -/
def free (block : HeapBlock) (p : ℕ) : Except Fault Unit :=
  if p = block.origin then .ok () else .error .nullDeref

/-- Read `n` bytes from address `p` on. -/
def load (block : HeapBlock) (p n : ℕ) : Except Fault (List UInt8) :=
  if block.origin ≤ p ∧ p + n ≤ block.origin + block.length then .ok (block.bytes.slice p n)
  else .error .outOfBounds

/-- Overwrite the bytes from address `p` on. -/
def store (block : HeapBlock) (p : ℕ) (bs : List UInt8) : Except Fault HeapBlock :=
  if block.origin ≤ p ∧ p + bs.length ≤ block.origin + block.length then
    .ok { block with bytes := block.bytes.write p bs }
  else .error .outOfBounds

/-- Read the header at address `p`. -/
def loadHeader (block : HeapBlock) (p : ℕ) : Except Fault VlMemoryHeader := do
  let _ ← block.load p vlMemoryHeaderSize
  return VlMemoryHeader.read block.bytes p

/-- Write the header at address `p`. -/
def storeHeader (block : HeapBlock) (p : ℕ) (header : VlMemoryHeader) : Except Fault HeapBlock :=
  block.store p header.toBytes

/-- `memmove`. -/
def memmove (block : HeapBlock) (dest src n : ℕ) : Except Fault HeapBlock := do
  let bs ← block.load src n
  block.store dest bs

/-- `vlMemAlloc`, with the block. -/
def vlMemAlloc (contents : ByteMem) (origin allocSize : ℕ) : Except Fault (ℕ × HeapBlock) := do
  let block ← malloc contents origin ((allocSize + vlMemoryHeaderSize) % 2 ^ 64)
  let block ← block.storeHeader origin ⟨allocSize, 0, vlDefaultMemoryAlign⟩
  return ((origin + vlMemoryHeaderSize) % 2 ^ 64, block)

/-- `vlMemAllocAligned`, with the block. -/
def vlMemAllocAligned (contents : ByteMem) (origin size align : ℕ) :
    Except Fault (ℕ × HeapBlock) :=
  if align ≤ vlDefaultMemoryAlign then vlMemAlloc contents origin size
  else do
    let block ← malloc contents origin ((size + align + vlMemoryHeaderSize) % 2 ^ 64)
    let userOffset := (origin + align + vlMemoryHeaderSize) % 2 ^ 64
    let user := userOffset - userOffset % align
    let header := user - vlMemoryHeaderSize
    let block ← block.storeHeader header ⟨size, (header - origin) % 2 ^ 32, align⟩
    return (user, block)

/-- `vlMemRealloc` of memory that is there, with the block. The alignment in the header is read as a
number of 16 bits. -/
def vlMemRealloc (block : HeapBlock) (contents : ByteMem) (moved mem allocSize : ℕ) :
    Except Fault (ℕ × HeapBlock) := do
  let oldHeader ← block.loadHeader (mem - vlMemoryHeaderSize)
  let align := oldHeader.alignment % 2 ^ 16
  if align ≤ vlDefaultMemoryAlign then
    let origin := mem - vlMemoryHeaderSize
    let block ← block.realloc contents moved origin ((allocSize + vlMemoryHeaderSize) % 2 ^ 64)
    let block ← block.store block.origin (natToLE 8 allocSize)
    return ((block.origin + vlMemoryHeaderSize) % 2 ^ 64, block)
  else
    let oldSize := (oldHeader.length + vlMemoryHeaderSize) % 2 ^ 64
    let newSize := (allocSize + vlMemoryHeaderSize) % 2 ^ 64
    let block ← block.realloc contents moved (mem - vlMemoryHeaderSize - oldHeader.headOffset)
      ((newSize + oldHeader.alignment) % 2 ^ 64)
    let origin := block.origin
    let userOffset := (origin + align + vlMemoryHeaderSize) % 2 ^ 64
    let user := userOffset - userOffset % align
    let headOffset := (user - vlMemoryHeaderSize - origin) % 2 ^ 32
    let block ← (if headOffset ≠ oldHeader.headOffset then
        block.memmove (origin + headOffset) (origin + oldHeader.headOffset)
          (if oldSize > newSize then newSize else oldSize)
      else .ok block)
    let block ← block.storeHeader (user - vlMemoryHeaderSize)
      ⟨allocSize, headOffset, oldHeader.alignment⟩
    return (user, block)

/-- `vlMemSize`. -/
def vlMemSize (block : HeapBlock) (mem : ℕ) : Except Fault ℕ := do
  let header ← block.loadHeader (mem - vlMemoryHeaderSize)
  return header.length

/-- `vlMemAlignment`. -/
def vlMemAlignment (block : HeapBlock) (mem : ℕ) : Except Fault ℕ := do
  let header ← block.loadHeader (mem - vlMemoryHeaderSize)
  return header.alignment

/-- `vlMemFree`. -/
def vlMemFree (block : HeapBlock) (mem : ℕ) : Except Fault Unit := do
  let header ← block.loadHeader (mem - vlMemoryHeaderSize)
  block.free (mem - vlMemoryHeaderSize - header.headOffset)

end HeapBlock

end VeritableLasagna
