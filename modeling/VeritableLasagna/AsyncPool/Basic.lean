import VeritableLasagna.Lib.Machine
import VeritableLasagna.Pool.Basic

/-!
# The asynchronous pool

`vl_async_pool` hands out fixed-size elements to any number of threads. Returned elements go onto a
Treiber stack whose top is a tagged pointer; fresh ones come from the primary block, whose `taken`
counter is raised by a compare-and-swap; a thread that finds the primary block used up allocates
another one while it holds `allocatingFlag`. Every atomic access and every access to a node's `next`
field is a step of its own, and any thread may take the next one.

Addresses are natural numbers and zero is the null pointer. A weak compare-and-swap may fail for no
reason. The address of a new block is the choice of the allocator, which only promises that the
memory asked for is free. `allocated` lists the addresses of the blocks, and `held` records which
elements a thread holds; an element may be passed to another thread.
-/

namespace VeritableLasagna

/-- `vl_tagged_ptr`; the tag is assumed not to wrap. -/
@[ext]
structure TaggedPtr where
  ptr : ℕ
  tag : ℕ
  deriving DecidableEq

/-- The pointer that a tagged store or compare-and-swap leaves: the new address, the tag raised. -/
def TaggedPtr.next (p : TaggedPtr) (ptr : ℕ) : TaggedPtr := ⟨ptr, p.tag + 1⟩

/-- The three sizes that `vlAsyncPoolInitAligned` computes, each kept in 16 bits. -/
structure AsyncPoolLayout where
  elementSize : ℕ
  elementAlign : ℕ
  nodeSize : ℕ

namespace AsyncPoolLayout

/-- `sizeof(vl_async_pool_header)`. -/
def headerBytes : ℕ := 8

/-- `sizeof(vl_async_block)`. -/
def blockBytes : ℕ := 32

/-- The sizes for elements of a given size and alignment. -/
def init (elementSize elementAlign : ℕ) : AsyncPoolLayout where
  elementSize := vlMemoryPadUp elementSize elementAlign % 2 ^ 16
  elementAlign := elementAlign
  nodeSize :=
    (vlMemoryPadUp headerBytes elementAlign + vlMemoryPadUp elementSize elementAlign % 2 ^ 16) %
      2 ^ 16

/-- The distance from a node to its element. -/
def headerOffset (l : AsyncPoolLayout) : ℕ := vlMemoryPadUp headerBytes l.elementAlign

/-- `headerSize`: the distance from a block to its first node. -/
def headerSize (l : AsyncPoolLayout) : ℕ := vlMemoryPadUp blockBytes l.elementAlign

/-- The bytes asked for a block: the product is one of 32-bit integers. -/
def blockSize (l : AsyncPoolLayout) (elements : ℕ) : ℕ :=
  l.headerSize + elements * l.nodeSize % 2 ^ 32

/-- The address of a node; the product is again one of 32-bit integers. -/
def node (l : AsyncPoolLayout) (block index : ℕ) : ℕ :=
  block + l.headerSize + l.nodeSize * index % 2 ^ 32

end AsyncPoolLayout

/-- The number of elements of the block with the given ordinal. Shifts take their count modulo 32, as
the processor does; from ordinal 31 on the language leaves them undefined. -/
def asyncBlockElements (ordinal : ℕ) : ℕ :=
  let bit := ordinal % 32
  let shift := if 16 ≤ bit ∧ bit < 31 then 16 else if 0 < ordinal then ordinal - 1 else ordinal
  16 * 2 ^ (shift % 32) % 2 ^ 32

/-- `vl_async_block`; `value` is the address of the first node. -/
structure AsyncBlock where
  next : ℕ
  prev : ℕ
  elements : ℕ
  taken : ℕ

/-- Where a thread stands in `vlAsyncPoolTake` (`takeTop` to `takeBump`), in `vlAsyncPoolAllocate`
(`allocFlag` to `allocRelease`) or in `vlAsyncPoolReturn` (`returnTop` to `returnCount`). -/
inductive AsyncPoolPc
  | idle
  /-- before the load of `freeStack` -/
  | takeTop
  /-- before the read of the top node's `next` -/
  | takeNext (top : TaggedPtr)
  /-- before the compare-and-swap of `freeStack` -/
  | takeSwap (top : TaggedPtr) (next : ℕ)
  /-- before the decrement of `freeLength`, with the node just popped -/
  | takeCount (node : ℕ)
  /-- before the load of `primaryBlock` -/
  | takeBlock
  /-- before the load of the block's `taken` -/
  | takeTaken (block : ℕ)
  /-- before the compare-and-swap of the block's `taken` -/
  | takeBump (block : ℕ) (taken : ℕ)
  /-- before the compare-and-swap of `allocatingFlag` -/
  | allocFlag
  /-- before the load of `primaryBlock` -/
  | allocPrimary
  /-- before the read of the primary block's `next` -/
  | allocNext (primary : ℕ)
  /-- before the load of `totalBlocks` -/
  | allocOrdinal (primary : ℕ)
  /-- before the allocation and initialisation of a block -/
  | allocBlock (primary ordinal : ℕ)
  /-- before the increment of `totalBlocks` -/
  | allocTotal (primary block : ℕ)
  /-- before the load in `vlAtomicPtrStore`; then `link`, if there is one, gets its `next` set -/
  | allocLoad (link : Option ℕ) (block : ℕ)
  /-- before the store in `vlAtomicPtrStore` -/
  | allocStore (link : Option ℕ) (block : ℕ) (old : TaggedPtr)
  /-- before the store of the former primary block's `next` -/
  | allocLink (link block : ℕ)
  /-- before the store of `allocatingFlag` -/
  | allocRelease
  /-- before the load of `freeStack` -/
  | returnTop (node : ℕ)
  /-- before the write of the node's `next` -/
  | returnNext (node : ℕ) (top : TaggedPtr)
  /-- before the compare-and-swap of `freeStack` -/
  | returnSwap (node : ℕ) (top : TaggedPtr)
  /-- before the increment of `freeLength` -/
  | returnCount
  deriving DecidableEq

/-- A pool, the `next` fields of its nodes, and its threads. -/
structure AsyncPool (T : Type) where
  freeStack : TaggedPtr
  freeLength : ℕ
  primaryBlock : TaggedPtr
  allocatingFlag : Bool
  totalBlocks : ℕ
  blocks : ℕ → Option AsyncBlock
  allocated : List ℕ
  nodeNext : ℕ → ℕ
  pc : T → AsyncPoolPc
  held : T → List ℕ

/-- The calls, the passing of an element, the next access of a thread, a spurious failure of its
compare-and-swap, and the allocation of a block at an address. -/
inductive AsyncPoolOp (T : Type)
  | take (t : T)
  | ret (t : T) (element : ℕ)
  | pass (t u : T) (element : ℕ)
  | advance (t : T)
  | fail (t : T)
  | allocate (t : T) (address : ℕ)

variable {T : Type} [DecidableEq T]

namespace AsyncPool

/-- The pool after `vlAsyncPoolInitAligned`, with its first block at `address`. -/
def init (address : ℕ) : AsyncPool T where
  freeStack := ⟨0, 0⟩
  freeLength := 0
  primaryBlock := ⟨address, 1⟩
  allocatingFlag := false
  totalBlocks := 1
  blocks := Function.update (fun _ => none) address (some ⟨0, 0, asyncBlockElements 0, 0⟩)
  allocated := [address]
  nodeNext := fun _ => 0
  pc := fun _ => .idle
  held := fun _ => []

def setPc (s : AsyncPool T) (t : T) (pc : AsyncPoolPc) : AsyncPool T :=
  { s with pc := Function.update s.pc t pc }

def setHeld (s : AsyncPool T) (t : T) (elements : List ℕ) : AsyncPool T :=
  { s with held := Function.update s.held t elements }

def setBlock (s : AsyncPool T) (address : ℕ) (block : AsyncBlock) : AsyncPool T :=
  { s with blocks := Function.update s.blocks address (some block) }

end AsyncPool

/-- The next access of a thread, apart from the allocation of a block. -/
def asyncPoolAdvance (l : AsyncPoolLayout) (s : AsyncPool T) (t : T) : Except Fault (AsyncPool T) :=
  match s.pc t with
  | .idle | .allocBlock _ _ => .ok s
  | .takeTop =>
    .ok (s.setPc t (if s.freeStack.ptr = 0 then .takeBlock else .takeNext s.freeStack))
  | .takeNext top => .ok (s.setPc t (.takeSwap top (s.nodeNext top.ptr)))
  | .takeSwap top next =>
    if s.freeStack = top then
      .ok { s.setPc t (.takeCount top.ptr) with freeStack := top.next next }
    else .ok (s.setPc t .takeTop)
  | .takeCount node =>
    .ok { (s.setPc t .idle).setHeld t (s.held t ++ [node + l.headerOffset]) with
      freeLength := (s.freeLength + (2 ^ 32 - 1)) % 2 ^ 32 }
  | .takeBlock => .ok (s.setPc t (.takeTaken s.primaryBlock.ptr))
  | .takeTaken address => do
    let block ← deref (s.blocks address)
    return s.setPc t
      (if block.elements ≤ block.taken then .allocFlag else .takeBump address block.taken)
  | .takeBump address taken => do
    let block ← deref (s.blocks address)
    if block.taken = taken then
      return ((s.setPc t .idle).setBlock address { block with taken := taken + 1 }).setHeld t
        (s.held t ++ [l.node address taken + l.headerOffset])
    else return s.setPc t .takeTop
  | .allocFlag =>
    if s.allocatingFlag then .ok (s.setPc t .takeTop)
    else .ok { s.setPc t .allocPrimary with allocatingFlag := true }
  | .allocPrimary =>
    .ok (s.setPc t
      (if s.primaryBlock.ptr = 0 then .allocOrdinal 0 else .allocNext s.primaryBlock.ptr))
  | .allocNext primary => do
    let block ← deref (s.blocks primary)
    return s.setPc t (if block.next = 0 then .allocOrdinal primary else .allocLoad none block.next)
  | .allocOrdinal primary => .ok (s.setPc t (.allocBlock primary s.totalBlocks))
  | .allocTotal primary block =>
    .ok { s.setPc t (.allocLoad (if primary = 0 then none else some primary) block) with
      totalBlocks := (s.totalBlocks + 1) % 2 ^ 16 }
  | .allocLoad link block => .ok (s.setPc t (.allocStore link block s.primaryBlock))
  | .allocStore link block old =>
    let s := { s with primaryBlock := old.next block }
    match link with
    | some link => .ok (s.setPc t (.allocLink link block))
    | none => .ok (s.setPc t .allocRelease)
  | .allocLink link address => do
    let block ← deref (s.blocks link)
    return (s.setPc t .allocRelease).setBlock link { block with next := address }
  | .allocRelease => .ok { s.setPc t .takeTop with allocatingFlag := false }
  | .returnTop node => .ok (s.setPc t (.returnNext node s.freeStack))
  | .returnNext node top =>
    .ok { s.setPc t (.returnSwap node top) with
      nodeNext := Function.update s.nodeNext node top.ptr }
  | .returnSwap node top =>
    if s.freeStack = top then .ok { s.setPc t .returnCount with freeStack := top.next node }
    else .ok (s.setPc t (.returnTop node))
  | .returnCount => .ok { s.setPc t .idle with freeLength := (s.freeLength + 1) % 2 ^ 32 }

/-- The allocation of a block at an address. -/
def asyncPoolAllocateBlock (s : AsyncPool T) (t : T) (address : ℕ) : AsyncPool T :=
  match s.pc t with
  | .allocBlock primary ordinal =>
    { (s.setPc t (.allocTotal primary address)).setBlock address
        ⟨0, primary, asyncBlockElements ordinal, 0⟩ with
      allocated := address :: s.allocated }
  | _ => s

namespace AsyncPoolPc

/-- What a thread does after a spurious failure: it starts its loop again. -/
def failed : AsyncPoolPc → Option AsyncPoolPc
  | .takeSwap _ _ | .takeBump _ _ | .allocFlag => some .takeTop
  | .returnSwap node _ => some (.returnTop node)
  | _ => none

/-- The ordinal of the block about to be allocated. -/
def allocating : AsyncPoolPc → Option ℕ
  | .allocBlock _ ordinal => some ordinal
  | _ => none

end AsyncPoolPc

/-- One step. -/
def asyncPoolStep (l : AsyncPoolLayout) (s : AsyncPool T) :
    AsyncPoolOp T → Except Fault (AsyncPool T)
  | .take t => .ok (s.setPc t .takeTop)
  | .ret t element =>
    .ok ((s.setHeld t ((s.held t).erase element)).setPc t (.returnTop (element - l.headerOffset)))
  | .pass t u element =>
    let s := s.setHeld t ((s.held t).erase element)
    .ok (s.setHeld u (s.held u ++ [element]))
  | .advance t => asyncPoolAdvance l s t
  | .fail t => .ok (s.setPc t ((s.pc t).failed.getD (s.pc t)))
  | .allocate t address => .ok (asyncPoolAllocateBlock s t address)

/-- The memory of a block asked for does not meet that of the others. -/
def AsyncPool.Free (l : AsyncPoolLayout) (s : AsyncPool T) (address elements : ℕ) : Prop :=
  address ≠ 0 ∧ ∀ a ∈ s.allocated, ∀ b ∈ s.blocks a,
    address + l.blockSize elements ≤ a ∨ a + l.blockSize b.elements ≤ address

instance (l : AsyncPoolLayout) (s : AsyncPool T) (address elements : ℕ) :
    Decidable (s.Free l address elements) :=
  inferInstanceAs (Decidable (address ≠ 0 ∧ ∀ a ∈ s.allocated, ∀ b ∈ s.blocks a,
    address + l.blockSize elements ≤ a ∨ a + l.blockSize b.elements ≤ address))

/-- The pool under any interleaving: a thread calls when it is idle, returns and passes on only what
it holds, and the allocator finds free memory. -/
def asyncPoolMachine (l : AsyncPoolLayout) (T : Type) [DecidableEq T] :
    Machine (AsyncPool T) (AsyncPoolOp T) where
  guard s
    | .take t => s.pc t = .idle
    | .ret t element => s.pc t = .idle ∧ element ∈ s.held t
    | .pass t _ element => element ∈ s.held t
    | .advance t => s.pc t ≠ .idle ∧ (s.pc t).allocating = none
    | .fail t => (s.pc t).failed.isSome
    | .allocate t address =>
      (s.pc t).allocating.isSome ∧
        ∀ ordinal ∈ (s.pc t).allocating, s.Free l address (asyncBlockElements ordinal)
  step := asyncPoolStep l

instance (l : AsyncPoolLayout) (s : AsyncPool T) :
    ∀ o, Decidable ((asyncPoolMachine l T).guard s o)
  | .take t => inferInstanceAs (Decidable (s.pc t = .idle))
  | .ret t element => inferInstanceAs (Decidable (s.pc t = .idle ∧ element ∈ s.held t))
  | .pass t _ element => inferInstanceAs (Decidable (element ∈ s.held t))
  | .advance t => inferInstanceAs (Decidable (s.pc t ≠ .idle ∧ (s.pc t).allocating = none))
  | .fail t => inferInstanceAs (Decidable ((s.pc t).failed.isSome = true))
  | .allocate t address => inferInstanceAs (Decidable ((s.pc t).allocating.isSome = true ∧
      ∀ ordinal ∈ (s.pc t).allocating, s.Free l address (asyncBlockElements ordinal)))

end VeritableLasagna
