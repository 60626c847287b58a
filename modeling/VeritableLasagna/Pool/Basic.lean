import VeritableLasagna.Lib.Machine

/-!
# The fixed pool

`vl_pool` hands out fixed-size elements from blocks that double in size. An index is a block
ordinal paired with an element ordinal; a **lookup table** maps block ordinals to blocks, and the
blocks are also chained from the newest to the oldest. Returned indices wait on a **free stack**
that `vlPoolTake` drains before it hands out a fresh ordinal.

The model keeps every field that the operations read. Three points of the embedding:

* block pointers (`lookupHead`, `nextLookup`) are held as the block's place in the lookup table,
  which is where the source stores every block it can reach;
* `elements` names the element memory of a block by an allocation number, so that two blocks
  never share memory and a block allocated after a reset is not the block it replaces;
* allocations succeed and the 32-bit counters do not wrap, so counters are natural numbers. The
  one truncation kept is that of the element size to 16 bits, since it happens on the first call.

A dereference of a missing block is a `Fault`.
-/

namespace VeritableLasagna

/-- `VL_POOL_DEFAULT_SIZE`. -/
def vlPoolDefaultSize : ℕ := 16

/-- `VL_DEFAULT_MEMORY_ALIGN`, the alignment of a 64-bit word. -/
def vlDefaultMemoryAlign : ℕ := 8

/-- `VL_MEMORY_PAD_UP`: the least multiple of `pad` (a power of two in the source) that is at
least `len`. -/
def vlMemoryPadUp (len pad : ℕ) : ℕ := (len + pad - 1) / pad * pad

/-- Padding does not shrink. -/
theorem le_vlMemoryPadUp {len pad : ℕ} (hpad : 0 < pad) : len ≤ vlMemoryPadUp len pad := by
  have hdiv := Nat.div_add_mod (len + pad - 1) pad
  have hmod := Nat.mod_lt (len + pad - 1) hpad
  rw [vlMemoryPadUp, Nat.mul_comm]
  omega

/-- `vl_pool_ordinal`, the two halves of a `vl_pool_idx`. -/
@[ext]
structure VlPoolIdx where
  nodeIndex : ℕ
  elementIndex : ℕ
  deriving DecidableEq, Repr

/-- `vl_pool_node`, the header of a block. -/
structure VlPoolNode where
  totalTaken : ℕ
  blockSize : ℕ
  blockOrdinal : ℕ
  nextLookup : Option ℕ
  elements : ℕ
  deriving DecidableEq, Repr

/-- `vl_pool`. The free stack is kept top first; `allocated` counts the blocks allocated so far
and names the memory of the next one. -/
structure VlPool where
  elementSize : ℕ
  elementAlign : ℕ
  growthIncrement : ℕ
  lookupTotal : ℕ
  lookupCapacity : ℕ
  lookupTable : ℕ → Option VlPoolNode
  lookupHead : Option ℕ
  freeCapacity : ℕ
  freeStack : List VlPoolIdx
  allocated : ℕ

/-- What `vlPoolSample` points at: a byte offset in the element memory of a block. -/
@[ext]
structure Slot where
  block : ℕ
  offset : ℕ
  deriving DecidableEq, Repr

/-- `vl_PoolNodeNew`: allocate a block, chain it in front and store it in the lookup table, which
doubles when it is full. Returns the new block. -/
def vlPoolNodeNew (pool : VlPool) : ℕ × VlPool :=
  let node : VlPoolNode :=
    { totalTaken := 0
      blockSize := pool.growthIncrement
      blockOrdinal := pool.lookupTotal
      nextLookup := pool.lookupHead
      elements := pool.allocated }
  (pool.lookupTotal,
    { pool with
      lookupHead := some pool.lookupTotal
      growthIncrement := pool.growthIncrement * 2
      lookupCapacity :=
        if pool.lookupTotal ≥ pool.lookupCapacity then pool.lookupCapacity * 2
        else pool.lookupCapacity
      lookupTable := Function.update pool.lookupTable pool.lookupTotal (some node)
      lookupTotal := pool.lookupTotal + 1
      allocated := pool.allocated + 1 })

/-- `vlPoolInitAligned`. The padded element size is stored in a 16-bit field. -/
def vlPoolInitAligned (elementSize alignment : ℕ) : VlPool :=
  let pool : VlPool :=
    { elementSize := vlMemoryPadUp elementSize alignment % 2 ^ 16
      elementAlign := alignment
      growthIncrement := vlPoolDefaultSize
      lookupTotal := 0
      lookupCapacity := vlPoolDefaultSize
      lookupTable := fun _ => none
      lookupHead := none
      freeCapacity := vlPoolDefaultSize
      freeStack := []
      allocated := 0 }
  { (vlPoolNodeNew pool).2 with growthIncrement := vlPoolDefaultSize }

/-- `vlPoolInit`: the default alignment. -/
def vlPoolInit (elementSize : ℕ) : VlPool := vlPoolInitAligned elementSize vlDefaultMemoryAlign

/-- Store a block's new `totalTaken`. -/
def VlPool.setTaken (pool : VlPool) (ordinal : ℕ) (node : VlPoolNode) (n : ℕ) : VlPool :=
  { pool with
    lookupTable := Function.update pool.lookupTable ordinal (some { node with totalTaken := n }) }

theorem VlPool.setTaken_self (pool : VlPool) {ordinal n : ℕ} {node : VlPoolNode} :
    (pool.setTaken ordinal node n).lookupTable ordinal = some { node with totalTaken := n } :=
  Function.update_self _ _ _

/-- The loop of `vlPoolTake` over the chain of blocks, which skips expended ones: the first block
with a fresh ordinal left, if there is one. Cut off after `fuel` blocks. -/
def vlPoolFindFresh (pool : VlPool) : ℕ → Option ℕ → Except Fault (Option (ℕ × VlPoolNode))
  | _, none => .ok none
  | 0, some _ => .error .noReturn
  | fuel + 1, some cur => do
    let node ← deref (pool.lookupTable cur)
    if node.totalTaken ≥ node.blockSize then
      vlPoolFindFresh pool fuel node.nextLookup
    else
      return some (cur, node)

/-- `vlPoolTake`: the top of the free stack, else the next fresh ordinal of a block that has one,
else ordinal `0` of a new block. -/
def vlPoolTake (pool : VlPool) : Except Fault (VlPoolIdx × VlPool) :=
  match pool.freeStack with
  | idx :: rest => do
    let node ← deref (pool.lookupTable idx.nodeIndex)
    return (idx, { pool.setTaken idx.nodeIndex node (node.totalTaken + 1) with freeStack := rest })
  | [] => do
    match ← vlPoolFindFresh pool pool.lookupTotal pool.lookupHead with
    | some (cur, node) =>
      return (⟨node.blockOrdinal, node.totalTaken⟩, pool.setTaken cur node (node.totalTaken + 1))
    | none =>
      let (cur, pool) := vlPoolNodeNew pool
      let node ← deref (pool.lookupTable cur)
      return (⟨node.blockOrdinal, 0⟩, pool.setTaken cur node (node.totalTaken + 1))

/-- `vlPoolReturn`: push the index on the free stack, which doubles when it is full. -/
def vlPoolReturn (pool : VlPool) (idx : VlPoolIdx) : Except Fault VlPool := do
  let node ← deref (pool.lookupTable idx.nodeIndex)
  return { pool.setTaken idx.nodeIndex node (node.totalTaken - 1) with
    freeCapacity :=
      if pool.freeStack.length ≥ pool.freeCapacity then pool.freeCapacity * 2
      else pool.freeCapacity
    freeStack := idx :: pool.freeStack }

/-- `vlPoolSample`: the slot of an index, `none` when there is no such block. -/
def vlPoolSample (pool : VlPool) (idx : VlPoolIdx) : Option Slot :=
  (pool.lookupTable idx.nodeIndex).map fun node =>
    ⟨node.elements, idx.elementIndex * pool.elementSize⟩

/-- The loop of `vlPoolClear` along the chain of blocks. -/
def vlPoolClearLoop : ℕ → VlPool → Option ℕ → Except Fault VlPool
  | _, pool, none => .ok pool
  | 0, _, some _ => .error .noReturn
  | fuel + 1, pool, some cur => do
    let node ← deref (pool.lookupTable cur)
    vlPoolClearLoop fuel (pool.setTaken cur node 0) node.nextLookup

/-- `vlPoolClear`. -/
def vlPoolClear (pool : VlPool) : Except Fault VlPool := do
  let pool ← vlPoolClearLoop pool.lookupTotal pool pool.lookupHead
  return { pool with freeStack := [] }

/-- The loop of `vlPoolReset`: free every block but the last of the chain, and return that one. -/
def vlPoolResetLoop : ℕ → VlPool → ℕ → Except Fault (ℕ × VlPool)
  | 0, _, _ => .error .noReturn
  | fuel + 1, pool, cur => do
    let node ← deref (pool.lookupTable cur)
    let pool := pool.setTaken cur node 0
    match node.nextLookup with
    | none => return (cur, pool)
    | some temp =>
      vlPoolResetLoop fuel
        { pool with
          lookupTable := Function.update pool.lookupTable node.blockOrdinal none
          lookupTotal := pool.lookupTotal - 1 } temp

/-- `vlPoolReset`. -/
def vlPoolReset (pool : VlPool) : Except Fault VlPool := do
  let head ← deref pool.lookupHead
  let (cur, pool) ← vlPoolResetLoop pool.lookupTotal pool head
  let node ← deref (pool.lookupTable cur)
  return { pool with
    growthIncrement := node.blockSize
    lookupHead := some cur
    freeStack := [] }

/-- The count `vlPoolReserve` makes of the elements that no block has handed out. -/
def vlPoolAvailable (pool : VlPool) : ℕ :=
  ((List.range pool.lookupTotal).map fun i =>
    match pool.lookupTable i with
    | some node => node.blockSize - node.totalTaken
    | none => 0).sum

/-- The loop of `vlPoolReserve`: allocate blocks until `n` elements are available. Cut off after
`fuel` blocks. -/
def vlPoolReserveLoop (n : ℕ) : ℕ → VlPool → ℕ → Except Fault VlPool
  | 0, pool, available => if available < n then .error .noReturn else .ok pool
  | fuel + 1, pool, available =>
    if available < n then do
      let (cur, pool) := vlPoolNodeNew pool
      let node ← deref (pool.lookupTable cur)
      vlPoolReserveLoop n fuel pool (available + node.blockSize)
    else
      .ok pool

/-- `vlPoolReserve`. -/
def vlPoolReserve (pool : VlPool) (n : ℕ) : Except Fault VlPool :=
  if n = 0 then .ok pool else vlPoolReserveLoop n n pool (vlPoolAvailable pool)

end VeritableLasagna
