import VeritableLasagna.Arena.Basic

/-!
# The hash table

`vl_hashtable` keeps its elements in an arena. An element is a header of 24 bytes
(`vl_hashtable_header`), the bytes of its key, and room for its value; its iterator is the handle of
that block. The mapping table holds, for every bucket, the iterator of the first element of a chain
that goes on through the `next` fields of the headers. Zero is no iterator
(`VL_HASHTABLE_ITER_INVALID`).

* The mapping table is a list of iterators. `tableSize` is a `vl_dsidx_t`, the length modulo
  `2 ^ 32`, and a remainder by zero is a fault.
* `keySize` and `valSize` are stored in two bytes each.
* The growth test compares `totalElements + 1` with `tableSize * 0.8` in floating point. The length
  is a power of two, so the product is exact up to the rounding of `0.8`, and the test is the one on
  integers below.
* Every loop is given the rounds that a well-formed table allows, one for each element.
-/

namespace VeritableLasagna

/-- `sizeof(vl_hashtable_header)`. -/
def vlHashTableHeaderSize : ℕ := 24

/-- `vl_hashtable`. -/
structure VlHashTable where
  table : List ℕ
  data : VlArena
  hashFunc : List UInt8 → UInt64
  totalElements : ℕ

namespace VlHashTable

/-! ### Headers and buckets -/

/-- `header->keySize`. -/
def keySize (table : VlHashTable) (iter : ℕ) : Except Fault ℕ := table.data.data.loadNumber iter 2

/-- `header->valSize`. -/
def valSize (table : VlHashTable) (iter : ℕ) : Except Fault ℕ :=
  table.data.data.loadNumber (iter + 2) 2

/-- `header->keyHash`. -/
def keyHash (table : VlHashTable) (iter : ℕ) : Except Fault ℕ :=
  table.data.data.loadNumber (iter + 8) 8

/-- `header->next`. -/
def next (table : VlHashTable) (iter : ℕ) : Except Fault ℕ :=
  table.data.data.loadNumber (iter + 16) 8

/-- Write bytes into the arena. -/
def store (table : VlHashTable) (p : ℕ) (bs : List UInt8) : Except Fault VlHashTable := do
  let data ← table.data.data.store p bs
  return { table with data := { table.data with data } }

def setKeySize (table : VlHashTable) (iter n : ℕ) : Except Fault VlHashTable :=
  table.store iter (natToLE 2 n)

def setValSize (table : VlHashTable) (iter n : ℕ) : Except Fault VlHashTable :=
  table.store (iter + 2) (natToLE 2 n)

def setKeyHash (table : VlHashTable) (iter hash : ℕ) : Except Fault VlHashTable :=
  table.store (iter + 8) (natToLE 8 hash)

def setNext (table : VlHashTable) (iter next : ℕ) : Except Fault VlHashTable :=
  table.store (iter + 16) (natToLE 8 next)

/-- `mapping[tableIndex]`. -/
def bucket (table : VlHashTable) (tableIndex : ℕ) : Except Fault ℕ :=
  match table.table[tableIndex]? with
  | some iter => .ok iter
  | none => .error .outOfBounds

def setBucket (table : VlHashTable) (tableIndex iter : ℕ) : Except Fault VlHashTable :=
  if tableIndex < table.table.length then
    .ok { table with table := table.table.set tableIndex iter }
  else .error .outOfBounds

/-- `(vl_dsidx_t)(vlMemSize(table->table) / sizeof(vl_hash_iter))`. -/
def tableSize (table : VlHashTable) : ℕ := table.table.length % 2 ^ 32

end VlHashTable

/-- `hash % tableSize`. -/
def vlHashTableIndex (hash tableSize : ℕ) : Except Fault ℕ :=
  if tableSize = 0 then .error .divideByZero else .ok (hash % tableSize)

/-- `vl_HashTableBinCompare`, of the bytes at an offset with a key. -/
def vlHashTableBinCompare (mem : VlMemory) (a aSize : ℕ) (b : List UInt8) : Except Fault Bool :=
  if aSize ≠ b.length then .ok false
  else do
    let bs ← mem.load a aSize
    return bs == b

/-- `vlHashTableInit`, when the heap holds the bytes `contents`. -/
def vlHashTableInit (contents : ByteMem) (hashFunc : List UInt8 → UInt64) :
    Except Fault VlHashTable := do
  let data ← vlArenaInit contents 128
  return { data, hashFunc, totalElements := 0, table := List.replicate 16 0 }

/-- `vlHashTableClear`. -/
def vlHashTableClear (table : VlHashTable) : Except Fault VlHashTable := do
  let data ← vlArenaClear table.data
  return { table with data, totalElements := 0, table := List.replicate table.table.length 0 }

/-- `vlHashTableSampleKey`: where the key is, and the size that is reported. -/
def vlHashTableSampleKey (table : VlHashTable) (iter : ℕ) : Except Fault (ℕ × ℕ) := do
  let keySize ← table.keySize iter
  return (iter + vlHashTableHeaderSize, keySize)

/-- `vlHashTableSampleValue`: where the value is, and the size that is reported. -/
def vlHashTableSampleValue (table : VlHashTable) (iter : ℕ) : Except Fault (ℕ × ℕ) := do
  let valSize ← table.valSize iter
  let keySize ← table.keySize iter
  return (iter + vlHashTableHeaderSize + keySize, valSize)

/-! ### Enumeration -/

/-- `vlHashTableFront`. -/
def vlHashTableFront (table : VlHashTable) : Except Fault ℕ := do
  let firstFree ← vlSetFront table.data.freeSet
  match firstFree with
  | none => return 8
  | some iter => do
    let freeNode ← deref (vlSetSample table.data.freeSet (some iter))
    if freeNode.offset ≠ 0 then return 8
    else do
      let nodeEnd := (freeNode.size + freeNode.offset) % 2 ^ 64
      return if vlMemSize table.data.data = nodeEnd then 0 else (nodeEnd + 8) % 2 ^ 64

/-- `vlHashTableNext`. -/
def vlHashTableNext (table : VlHashTable) (iter : ℕ) : Except Fault ℕ := do
  let size ← vlArenaMemSize table.data iter
  let nextIter := (iter + size) % 2 ^ 64
  let nextFree ← vlSetFind table.data.freeSet ⟨nextIter, 0⟩
  let nextIter ← match nextFree with
    | none => .ok nextIter
    | some i => do
      let freeNode ← deref (vlSetSample table.data.freeSet (some i))
      pure ((freeNode.offset + freeNode.size) % 2 ^ 64)
  return if nextIter = vlMemSize table.data.data then 0 else (nextIter + 8) % 2 ^ 64

/-- The iterators `VL_HASHTABLE_FOREACH` passes from an iterator on, in so many rounds. -/
def vlHashTableForeachFrom (table : VlHashTable) : ℕ → ℕ → Except Fault (List ℕ)
  | 0, iter => if iter = 0 then .ok [] else .error .noReturn
  | rounds + 1, iter =>
    if iter = 0 then .ok []
    else do
      let next ← vlHashTableNext table iter
      let iters ← vlHashTableForeachFrom table rounds next
      return iter :: iters

/-- `VL_HASHTABLE_FOREACH`: from `vlHashTableFront` by `vlHashTableNext` until
`VL_HASHTABLE_ITER_INVALID`. -/
def vlHashTableForeach (table : VlHashTable) (rounds : ℕ) : Except Fault (List ℕ) := do
  let front ← vlHashTableFront table
  vlHashTableForeachFrom table rounds front

/-! ### Growth -/

/-- The loop of `vl_HashTableGrow`. An element of an empty bucket gets the `next` field zero, which is
what the bucket holds. -/
def vlHashTableGrowLoop (newSize : ℕ) : ℕ → ℕ → VlHashTable → Except Fault VlHashTable
  | 0, curIter, table => if curIter = 0 then .ok table else .error .noReturn
  | rounds + 1, curIter, table =>
    if curIter = 0 then .ok table
    else do
      let keyHash ← table.keyHash curIter
      let tableIndex ← vlHashTableIndex keyHash newSize
      let mappedNext ← table.bucket tableIndex
      let table ← table.setNext curIter mappedNext
      let table ← table.setBucket tableIndex curIter
      let curIter ← vlHashTableNext table curIter
      vlHashTableGrowLoop newSize rounds curIter table

/-- `vl_HashTableGrow`. Returns the new number of buckets. -/
def vlHashTableGrow (table : VlHashTable) : Except Fault (ℕ × VlHashTable) :=
  let newSize := 8 * table.table.length * 2
  if 2 ^ 63 ≤ newSize then .error .outOfMemory
  else do
    let newSize := newSize / 8
    let table := { table with table := List.replicate newSize 0 }
    let front ← vlHashTableFront table
    let table ← vlHashTableGrowLoop newSize table.totalElements front table
    return (newSize, table)

/-- `vlHashTableReserve`. The number of buckets that the elements are distributed to is divided by the
size of an iterator twice. -/
def vlHashTableReserve (table : VlHashTable) (buckets heapSize : ℕ) : Except Fault VlHashTable := do
  let data ← vlArenaReserve table.data heapSize
  let size := 8 * table.table.length
  -- the loop goes on while `newSize < size + buckets * 8`
  let newSize ← vlMemDouble (size + 8 * buckets - 1) 65 size
  let newSize := newSize / 8
  let table := { table with data, table := List.replicate newSize 0 }
  let totalBuckets := newSize / 8
  let front ← vlHashTableFront table
  vlHashTableGrowLoop totalBuckets table.totalElements front table

/-! ### Insertion -/

/-- The test of `vlHashTableInsert`: the hashes are the same, and then the keys. -/
def vlHashTableMatches (table : VlHashTable) (iter hash : ℕ) (key : List UInt8) :
    Except Fault Bool := do
  let keyHash ← table.keyHash iter
  if hash = keyHash then do
    let keySize ← table.keySize iter
    vlHashTableBinCompare table.data.data (iter + vlHashTableHeaderSize) keySize key
  else return false

/-- The search of `vlHashTableInsert`: the element with the key, or else the last of the chain. -/
def vlHashTableInsertLoop (table : VlHashTable) (hash : ℕ) (key : List UInt8) :
    ℕ → ℕ → Except Fault (Bool × ℕ)
  | 0, tailIter => if tailIter = 0 then .ok (false, 0) else .error .noReturn
  | rounds + 1, tailIter =>
    if tailIter = 0 then .ok (false, 0)
    else do
      let found ← vlHashTableMatches table tailIter hash key
      if found then return (true, tailIter)
      else do
        let next ← table.next tailIter
        if next = 0 then return (false, tailIter)
        else vlHashTableInsertLoop table hash key rounds next

/-- The end of `vlHashTableInsert` for a key that is there. -/
def vlHashTableInsertOld (table : VlHashTable) (tableIndex rootIter tailIter nodeSize dataSize : ℕ) :
    Except Fault (ℕ × VlHashTable) := do
  let valSize ← table.valSize tailIter
  if valSize ≠ dataSize then do
    let table ← table.setValSize tailIter dataSize
    let (newTailIter, data) ← vlArenaMemRealloc table.data tailIter nodeSize
    let table ← VlHashTable.setValSize { table with data } newTailIter dataSize
    let table ← if tailIter = rootIter then table.setBucket tableIndex newTailIter else .ok table
    return (newTailIter, table)
  else do
    let table ← if tailIter = rootIter then table.setBucket tableIndex tailIter else .ok table
    return (tailIter, table)

/-- The new node of `vlHashTableInsert`: its header and its key. -/
def vlHashTableNewNode (table : VlHashTable) (hash nodeSize : ℕ) (key : List UInt8)
    (dataSize : ℕ) : Except Fault (ℕ × VlHashTable) := do
  let (newNode, data) ← vlArenaMemAlloc table.data nodeSize
  let table ← VlHashTable.setNext { table with data } newNode 0
  let table ← table.setKeySize newNode key.length
  let table ← table.setValSize newNode dataSize
  let table ← table.setKeyHash newNode hash
  let table ← table.store (newNode + vlHashTableHeaderSize) key
  return (newNode, table)

/-- The end of `vlHashTableInsert` for a new key: a new node, linked behind the element `tailIter`. -/
def vlHashTableInsertNew (table : VlHashTable) (tableIndex tailIter hash nodeSize : ℕ)
    (key : List UInt8) (dataSize : ℕ) : Except Fault (ℕ × VlHashTable) := do
  let (newNode, table) ← vlHashTableNewNode table hash nodeSize key dataSize
  let table := { table with totalElements := (table.totalElements + 1) % 2 ^ 32 }
  let table ← if tailIter ≠ 0 then table.setNext tailIter newNode
    else table.setBucket tableIndex newNode
  return (newNode, table)

/-- The first lines of `vlHashTableInsert`: grow the table when it is four fifths full. -/
def vlHashTableEnsure (table : VlHashTable) : Except Fault (ℕ × VlHashTable) :=
  if 4 * table.tableSize ≤ 5 * ((table.totalElements + 1) % 2 ^ 32) then do
    let (newSize, table) ← vlHashTableGrow table
    return (newSize % 2 ^ 32, table)
  else .ok (table.tableSize, table)

/-- `vlHashTableInsert`. Returns the iterator of the element. -/
def vlHashTableInsert (table : VlHashTable) (key : List UInt8) (dataSize : ℕ) :
    Except Fault (ℕ × VlHashTable) := do
  let hash := (table.hashFunc key).toNat
  let (tableSize, table) ← vlHashTableEnsure table
  let nodeSize := (vlHashTableHeaderSize + key.length + dataSize) % 2 ^ 64
  let tableIndex ← vlHashTableIndex hash tableSize
  let rootIter ← table.bucket tableIndex
  let (found, tailIter) ← vlHashTableInsertLoop table hash key table.totalElements rootIter
  if found then vlHashTableInsertOld table tableIndex rootIter tailIter nodeSize dataSize
  else vlHashTableInsertNew table tableIndex tailIter hash nodeSize key dataSize

/-! ### Search and removal -/

/-- The loop of `vlHashTableFind`. -/
def vlHashTableFindLoop (table : VlHashTable) (key : List UInt8) : ℕ → ℕ → Except Fault ℕ
  | 0, curIter => if curIter = 0 then .ok 0 else .error .noReturn
  | rounds + 1, curIter =>
    if curIter = 0 then .ok 0
    else do
      let keySize ← table.keySize curIter
      let found ←
        vlHashTableBinCompare table.data.data (curIter + vlHashTableHeaderSize) keySize key
      if found then return curIter
      else do
        let curIter ← table.next curIter
        vlHashTableFindLoop table key rounds curIter

/-- `vlHashTableFind`. -/
def vlHashTableFind (table : VlHashTable) (key : List UInt8) : Except Fault ℕ := do
  let hash := (table.hashFunc key).toNat
  let tableIndex ← vlHashTableIndex hash table.tableSize
  let curIter ← table.bucket tableIndex
  vlHashTableFindLoop table key table.totalElements curIter

/-- The loop of `vlHashTableRemoveIter`: find the element before `iter`, and link it past `iter`. -/
def vlHashTableUnlink (table : VlHashTable) (iter : ℕ) : ℕ → ℕ → Except Fault VlHashTable
  | 0, _ => .error .noReturn
  | rounds + 1, curIter => do
    let curNext ← table.next curIter
    if curNext = iter then do
      let next ← table.next iter
      table.setNext curIter next
    else vlHashTableUnlink table iter rounds curNext

/-- The last lines of `vlHashTableRemoveIter`. -/
def vlHashTableRelease (table : VlHashTable) (iter : ℕ) : Except Fault VlHashTable := do
  let data ← vlArenaMemFree table.data iter
  return { table with data, totalElements := (table.totalElements + (2 ^ 32 - 1)) % 2 ^ 32 }

/-- `vlHashTableRemoveIter`. -/
def vlHashTableRemoveIter (table : VlHashTable) (iter : ℕ) : Except Fault VlHashTable := do
  let keyHash ← table.keyHash iter
  let tableIndex ← vlHashTableIndex keyHash table.tableSize
  let rootIter ← table.bucket tableIndex
  if rootIter = 0 then return table
  else if rootIter = iter then do
    let next ← table.next iter
    let table ← table.setBucket tableIndex next
    vlHashTableRelease table iter
  else do
    let curNext ← table.next rootIter
    let table ← if curNext = 0 then table.setBucket tableIndex 0
      else vlHashTableUnlink table iter table.totalElements rootIter
    vlHashTableRelease table iter

/-- `vlHashTableRemoveKey`. -/
def vlHashTableRemoveKey (table : VlHashTable) (key : List UInt8) : Except Fault VlHashTable := do
  let iter ← vlHashTableFind table key
  vlHashTableRemoveIter table iter

/-! ### Copies -/

/-- The lines that `vlHashTableCopyElement` and the loop of `vlHashTableCopy` share: insert the key of
an element of another table, and copy its value. -/
def vlHashTableCopyNode (src : VlHashTable) (iter : ℕ) (dest : VlHashTable) :
    Except Fault (ℕ × VlHashTable) := do
  let (keyPtr, keySize) ← vlHashTableSampleKey src iter
  let (dataPtr, dataSize) ← vlHashTableSampleValue src iter
  let key ← src.data.data.load keyPtr keySize
  let (destIter, dest) ← vlHashTableInsert dest key dataSize
  let (valuePtr, _) ← vlHashTableSampleValue dest destIter
  let value ← src.data.data.load dataPtr dataSize
  let dest ← dest.store valuePtr value
  return (destIter, dest)

/-- `vlHashTableCopyElement`. -/
def vlHashTableCopyElement (src : VlHashTable) (iter : ℕ) (dest : VlHashTable)
    [Decidable (src.hashFunc = dest.hashFunc)] : Except Fault (ℕ × VlHashTable) :=
  if src.hashFunc ≠ dest.hashFunc then .ok (0, dest) else vlHashTableCopyNode src iter dest

/-- The loop of `vlHashTableCopy`. The number of copies is an `int`. -/
def vlHashTableCopyLoop (src : VlHashTable) :
    ℕ → ℕ → VlHashTable → ℕ → Except Fault (ℕ × VlHashTable)
  | 0, srcIter, dest, totalCopied =>
    if srcIter = 0 then .ok (totalCopied, dest) else .error .noReturn
  | rounds + 1, srcIter, dest, totalCopied =>
    if srcIter = 0 then .ok (totalCopied, dest)
    else do
      let (_, dest) ← vlHashTableCopyNode src srcIter dest
      if 2 ^ 31 ≤ totalCopied + 1 then .error .signedOverflow
      else do
        let srcIter ← vlHashTableNext src srcIter
        vlHashTableCopyLoop src rounds srcIter dest (totalCopied + 1)

/-- `vlHashTableCopy`. Returns the number of elements that were copied. -/
def vlHashTableCopy (src dest : VlHashTable) [Decidable (src.hashFunc = dest.hashFunc)] :
    Except Fault (ℕ × VlHashTable) :=
  if src.hashFunc ≠ dest.hashFunc then .ok (0, dest)
  else do
    let front ← vlHashTableFront src
    vlHashTableCopyLoop src src.totalElements front dest 0

end VeritableLasagna
