import VeritableLasagna.Hash.Fnv
import VeritableLasagna.Lib.Machine
import VeritableLasagna.Lib.Store
import VeritableLasagna.MsgPack.Decoder

/-!
# What the document object model is stored in

`vl_msgpack` keeps its nodes in a `vl_hashtable` and their values in a `vl_arena`. Both appear here as
what they are to their client, a `Store` whose handles are placed by the memory:

* The table finds the iterator of a key in the bucket of the key. It keeps the size of a key in 16
  bits, so it knows a longer key by its first bytes only, and it doubles its buckets until their
  number leaves 32 bits, which is a division by zero.
* The arena hands out blocks. A block that is not live is freed by mistake: the memory behind its
  handle is then no header, and the free set holds a piece that is none (`broken`).
-/

namespace VeritableLasagna

/-! ### Hashes of keys -/

/-- `vl_HashMsgPackKey`: the hash of the parent, combined with the hash of the key behind it. -/
def vlHashMsgPackKey (data : List UInt8) : UInt64 :=
  vlHashCombine (UInt64.ofNat (natOfLE (data.take 8))) (vlHashString (data.drop 8))

/-! ### Nodes -/

/-- `vl_msgpack_element`. The members of the union overlap: `first` is `mapBranch.firstChild`,
`arrayBranch.array` or `leaf.value`, and `second` is `mapBranch.lastChild` or
`arrayBranch.arrayLength`. -/
structure VlMsgPackElement where
  parent : ℕ
  type : VlMsgPackType
  nextSibling : ℕ
  prevSibling : ℕ
  extType : ℤ
  first : ℕ
  second : ℕ
  totalChildren : ℕ
  deriving Inhabited

/-- A node of the table: its hierarchical key, and the element that is its value. -/
structure VlMsgPackNode where
  key : List UInt8
  element : VlMsgPackElement

/-- The key as the table reads it. The hash in the header is that of the whole key, but `keySize` has
16 bits, and the element starts behind so many bytes of the key. -/
def VlMsgPackNode.stored (node : VlMsgPackNode) : List UInt8 :=
  node.key.take (node.key.length % 2 ^ 16)

/-- The first lines of `vlHashTableInsert`: a table that is four fifths full grows to twice as many
buckets, whose number is a `vl_dsidx_t`. -/
def vlNodeTableEnsure (tableSize totalElements : ℕ) : ℕ :=
  if 4 * tableSize ≤ 5 * (totalElements + 1) then 2 * tableSize % 2 ^ 32 else tableSize

/-- The number of buckets is a power of two, and less than four fifths of them are used. -/
structure VlNodeTableSized (tableSize totalElements : ℕ) : Prop where
  pow : ∃ k, 4 ≤ k ∧ k < 32 ∧ tableSize = 2 ^ k
  load : 5 * totalElements < 4 * tableSize

/-- The `vl_hashtable` of the nodes. -/
structure VlNodeTable where
  place : Placement
  inserts : ℕ
  store : Store VlMsgPackNode
  tableSize : ℕ
  sized : VlNodeTableSized tableSize store.live.length

/-! ### Growth -/

/-- A table with so many elements has `2 ^ 31` buckets, and grows out of `vl_dsidx_t`. -/
def VlNodeTable.limit : ℕ := 1717986918

namespace VlNodeTableSized

variable {tableSize totalElements : ℕ}

theorem le (h : VlNodeTableSized tableSize totalElements) : tableSize ≤ 2 ^ 31 := by
  obtain ⟨k, -, hk, rfl⟩ := h.pow
  exact Nat.pow_le_pow_right (by norm_num) (by omega)

/-- The table never has more elements. -/
theorem le_limit (h : VlNodeTableSized tableSize totalElements) :
    totalElements ≤ VlNodeTable.limit := by
  have hle := h.le
  have hload := h.load
  rw [VlNodeTable.limit]
  omega

theorem mono (h : VlNodeTableSized tableSize totalElements) {n : ℕ} (hn : n ≤ totalElements) :
    VlNodeTableSized tableSize n :=
  ⟨h.pow, (Nat.mul_le_mul_left 5 hn).trans_lt h.load⟩

/-- **The table grows out of its number of buckets** exactly at the limit. -/
theorem ensure_eq_zero (h : VlNodeTableSized tableSize totalElements) :
    vlNodeTableEnsure tableSize totalElements = 0 ↔ VlNodeTable.limit ≤ totalElements := by
  obtain ⟨⟨k, hlo, hhi, rfl⟩, hload⟩ := h
  have hpos : 0 < 2 ^ k := Nat.two_pow_pos k
  rw [vlNodeTableEnsure, VlNodeTable.limit]
  rcases Nat.lt_or_ge k 31 with hk | hk
  · have hle : 2 ^ k ≤ 2 ^ 30 := Nat.pow_le_pow_right (by norm_num) (by omega)
    split_ifs <;> omega
  · obtain rfl : k = 31 := by omega
    split_ifs with hfull
    · omega
    · exact iff_of_false (by norm_num) (by omega)

/-- A table that has grown is sized again. -/
theorem ensure (h : VlNodeTableSized tableSize totalElements)
    (hne : vlNodeTableEnsure tableSize totalElements ≠ 0) :
    VlNodeTableSized (vlNodeTableEnsure tableSize totalElements) (totalElements + 1) := by
  rw [Ne, h.ensure_eq_zero, VlNodeTable.limit] at hne
  obtain ⟨⟨k, hlo, hhi, rfl⟩, hload⟩ := h
  have hge : 2 ^ 4 ≤ 2 ^ k := Nat.pow_le_pow_right (by norm_num) hlo
  rw [vlNodeTableEnsure]
  split_ifs with hfull
  · have hk : k < 31 := by
      by_contra hge
      obtain rfl : k = 31 := by omega
      omega
    have hle : 2 ^ k ≤ 2 ^ 30 := Nat.pow_le_pow_right (by norm_num) (by omega)
    have hmod : 2 * 2 ^ k % 2 ^ 32 = 2 * 2 ^ k := Nat.mod_eq_of_lt (by omega)
    rw [hmod]
    exact ⟨⟨k + 1, by omega, by omega, (Nat.pow_succ').symm⟩, by omega⟩
  · exact ⟨⟨k, hlo, hhi, rfl⟩, by omega⟩

end VlNodeTableSized

namespace VlNodeTable

/-- `vlHashTableInit`. -/
def init (place : Placement) : VlNodeTable := ⟨place, 0, .empty, 16, ⟨⟨4, by norm_num⟩, by decide⟩⟩

/-- `hash % tableSize`, of a key. -/
def bucket (nodes : VlNodeTable) (key : List UInt8) : ℕ :=
  (vlHashMsgPackKey key).toNat % nodes.tableSize

/-- `vlHashTableFind`: the iterator of the key, or `VL_HASHTABLE_ITER_INVALID`. The nodes in the
bucket of the key are compared with it. -/
def find (nodes : VlNodeTable) (key : List UInt8) : ℕ :=
  (nodes.store.find fun node =>
    nodes.bucket node.key = nodes.bucket key ∧ node.stored = key).getD 0

/-- The table with a new node. The members of its element that are never set are never read either. -/
def add (nodes : VlNodeTable) (iter : ℕ) (hiter : iter ≠ 0) (hfresh : iter ∉ nodes.store.live)
    (key : List UInt8) (hsize : vlNodeTableEnsure nodes.tableSize nodes.store.live.length ≠ 0) :
    VlNodeTable where
  place := nodes.place
  inserts := nodes.inserts + 1
  store := nodes.store.put iter hiter ⟨key, default⟩
  tableSize := vlNodeTableEnsure nodes.tableSize nodes.store.live.length
  sized := by
    rw [Store.live_put (Store.not_mem_live.mp hfresh)]
    exact nodes.sized.ensure hsize

/-- `vlHashTableInsert`, of a key that is not present. -/
def insert (nodes : VlNodeTable) (key : List UInt8) : Except Fault (ℕ × VlNodeTable) :=
  if hsize : vlNodeTableEnsure nodes.tableSize nodes.store.live.length = 0 then .error .divideByZero
  else
    let iter := nodes.place.next nodes.inserts nodes.store.live
    .ok (iter, nodes.add iter (nodes.place.ne_zero _ _) (nodes.place.fresh _ _) key hsize)

/-- The table without a node. -/
def erase (nodes : VlNodeTable) (iter : ℕ) : VlNodeTable :=
  { nodes with
    store := nodes.store.erase iter
    sized := nodes.sized.mono (List.erase_sublist.length_le) }

/-- `vlHashTableRemoveIter`. -/
def removeIter (nodes : VlNodeTable) (iter : ℕ) : Except Fault VlNodeTable := do
  let _ ← deref (nodes.store.get iter)
  return nodes.erase iter

/-- `vlHashTableSampleValue`. -/
def sample (nodes : VlNodeTable) (iter : ℕ) : Except Fault VlMsgPackElement := do
  let node ← deref (nodes.store.get iter)
  return node.element

/-- The table with another element in a node. -/
def edit (nodes : VlNodeTable) (iter : ℕ) (f : VlMsgPackElement → VlMsgPackElement) : VlNodeTable :=
  { nodes with
    store := nodes.store.modify iter fun node => { node with element := f node.element }
    sized := nodes.sized }

/-- Write to the element `vlHashTableSampleValue` points to. -/
def modify (nodes : VlNodeTable) (iter : ℕ) (f : VlMsgPackElement → VlMsgPackElement) :
    Except Fault VlNodeTable := do
  let _ ← deref (nodes.store.get iter)
  return nodes.edit iter f

end VlNodeTable

/-! ### Values -/

/-- A block of the values: the payload of a leaf, or the slot table of an array. -/
inductive VlValueBlock
  | bytes (bs : List UInt8)
  | slots (iters : List ℕ)
  deriving DecidableEq

/-- The `vl_arena` of the values. -/
structure VlValueArena where
  place : Placement
  allocs : ℕ
  store : Store VlValueBlock
  broken : Bool

namespace VlValueArena

/-- `vlArenaInit`. -/
def init (place : Placement) : VlValueArena := ⟨place, 0, .empty, false⟩

/-- `vlArenaMemAlloc`. Nothing is known of what a broken arena hands out. -/
def memAlloc (values : VlValueArena) (size : ℕ) (block : VlValueBlock) :
    Except Fault (ℕ × VlValueArena) :=
  if size = 0 then .ok (0, values)
  else if values.broken then .error .outOfBounds
  else
    let ptr := values.place.next values.allocs values.store.live
    .ok (ptr, { values with
      allocs := values.allocs + 1
      store := values.store.put ptr (values.place.ne_zero _ _) block })

/-- `vlArenaMemFree`. -/
def memFree (values : VlValueArena) (ptr : ℕ) : VlValueArena :=
  match values.store.get ptr with
  | some _ => { values with store := values.store.erase ptr }
  | none => { values with broken := true }

/-- What a new block of `size` bytes holds. -/
def garbageBytes (values : VlValueArena) (size : ℕ) : List UInt8 :=
  (List.range size).map fun k => UInt8.ofNat (values.place.garbage values.allocs k)

/-- What a new slot table of `length` slots holds. -/
def garbageSlots (values : VlValueArena) (length : ℕ) : List ℕ :=
  (List.range length).map (values.place.garbage values.allocs)

/-- `memcpy` of `size` bytes to the start of a block. -/
def memcpy (values : VlValueArena) (ptr : ℕ) (src : List UInt8) (size : ℕ) :
    Except Fault VlValueArena :=
  if size = 0 then .ok values
  else match values.store.get ptr with
    | some (.bytes bs) =>
      if size ≤ src.length ∧ size ≤ bs.length then
        .ok { values with store :=
          values.store.modify ptr fun _ => .bytes (src.take size ++ bs.drop size) }
      else .error .outOfBounds
    | _ => .error .outOfBounds

/-- Read a slot of a slot table. -/
def slot (values : VlValueArena) (ptr idx : ℕ) : Except Fault ℕ :=
  match values.store.get ptr with
  | some (.slots iters) =>
    match iters[idx]? with
    | some iter => .ok iter
    | none => .error .outOfBounds
  | _ => .error .outOfBounds

/-- Write a slot of a slot table. -/
def setSlot (values : VlValueArena) (ptr idx iter : ℕ) : Except Fault VlValueArena :=
  match values.store.get ptr with
  | some (.slots iters) =>
    if idx < iters.length then
      .ok { values with store := values.store.modify ptr fun _ => .slots (iters.set idx iter) }
    else .error .outOfBounds
  | _ => .error .outOfBounds

end VlValueArena

end VeritableLasagna
