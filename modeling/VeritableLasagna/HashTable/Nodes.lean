import VeritableLasagna.HashTable.Walk
import VeritableLasagna.Lib.Chain

/-!
# The elements of a hash table

An element has an iterator, a key and a value. `e.Stored hashFunc mem` says that the memory holds its
header, its key and its value behind the iterator; the link to the next element of the chain is left
out. `table.Nodes elems` is the part of the table invariant that is about the arena: its live blocks are
those of the elements, and every element is stored.

The links are a function on iterators, `table.link`. Writing one (`VlHashTable.relink`) changes nothing
else that the invariant reads.
-/

namespace VeritableLasagna

open Tiling

/-- An element of a hash table. -/
structure VlHashElement where
  iter : ℕ
  key : List UInt8
  value : List UInt8
  deriving DecidableEq, Repr

namespace VlHashElement

/-- The block of an element in the arena. -/
def block (e : VlHashElement) : Block := ⟨e.iter - 8, vlHashTableHeaderSize + e.key.length + e.value.length + 8⟩

/-- The memory holds the element: the fields of its header, its key, and its value. -/
structure Stored (e : VlHashElement) (hashFunc : List UInt8 → UInt64) (mem : VlMemory) : Prop where
  keySize : mem.number e.iter 2 = e.key.length % 2 ^ 16
  valSize : mem.number (e.iter + 2) 2 = e.value.length % 2 ^ 16
  keyHash : mem.number (e.iter + 8) 8 = (hashFunc e.key).toNat
  key : mem.bytes.slice (e.iter + vlHashTableHeaderSize) e.key.length = e.key
  value : mem.bytes.slice (e.iter + vlHashTableHeaderSize + e.key.length) e.value.length = e.value

variable {e : VlHashElement} {hashFunc : List UInt8 → UInt64} {mem mem' : VlMemory}

/-- **Frame rule**: the element only needs its own bytes, and of these not its link. -/
theorem Stored.congr (h : e.Stored hashFunc mem)
    (hbytes : ∀ q, e.iter ≤ q → q < e.iter + (vlHashTableHeaderSize + e.key.length + e.value.length) →
      q < e.iter + 16 ∨ e.iter + 24 ≤ q → mem'.bytes q = mem.bytes q) : e.Stored hashFunc mem' := by
  rw [vlHashTableHeaderSize] at hbytes
  have hheader : ∀ p n, e.iter ≤ p → p + n ≤ e.iter + 16 → mem'.number p n = mem.number p n := by
    intro p n hp hn
    refine VlMemory.number_congr (ByteMem.slice_congr fun q hq hq' => hbytes q ?_ ?_ ?_)
    · omega
    · omega
    · exact Or.inl (by omega)
  have hrest : ∀ p n, e.iter + 24 ≤ p → p + n ≤ e.iter + (24 + e.key.length + e.value.length) →
      mem'.bytes.slice p n = mem.bytes.slice p n := by
    intro p n hp hn
    refine ByteMem.slice_congr fun q hq hq' => hbytes q ?_ ?_ ?_
    · omega
    · omega
    · exact Or.inr (by omega)
  have hsize : vlHashTableHeaderSize = 24 := rfl
  refine ⟨?_, ?_, ?_, ?_, ?_⟩
  · rw [hheader _ _ (by omega) (by omega), h.keySize]
  · rw [hheader _ _ (by omega) (by omega), h.valSize]
  · rw [hheader _ _ (by omega) (by omega), h.keyHash]
  · rw [hrest _ _ (by omega) (by omega), h.key]
  · rw [hrest _ _ (by omega) (by omega), h.value]

end VlHashElement

namespace VlHashTable

variable {table table' : VlHashTable} {elems : List VlHashElement} {e e' : VlHashElement}
  {ts : List Tile} {i n p : ℕ} {bs : List UInt8}

/-! ### Writing -/

/-- The table after bytes of its arena were written. -/
def write (table : VlHashTable) (p : ℕ) (bs : List UInt8) : VlHashTable :=
  { table with data := { table.data with
      data := { table.data.data with bytes := table.data.data.bytes.write p bs } } }

/-- The link of an element: its `next` field. -/
def link (table : VlHashTable) (i : ℕ) : ℕ := table.data.data.number (i + 16) 8

/-- The table after a link was written. -/
def relink (table : VlHashTable) (i n : ℕ) : VlHashTable := table.write (i + 16) (natToLE 8 n)

@[simp] theorem table_write : (table.write p bs).table = table.table := rfl

@[simp] theorem hashFunc_write : (table.write p bs).hashFunc = table.hashFunc := rfl

@[simp] theorem totalElements_write :
    (table.write p bs).totalElements = table.totalElements := rfl

@[simp] theorem bytes_write :
    (table.write p bs).data.data.bytes = table.data.data.bytes.write p bs := rfl

@[simp] theorem size_write : (table.write p bs).data.data.size = table.data.data.size := rfl

@[simp] theorem table_relink : (table.relink i n).table = table.table := rfl

@[simp] theorem hashFunc_relink : (table.relink i n).hashFunc = table.hashFunc := rfl

@[simp] theorem totalElements_relink :
    (table.relink i n).totalElements = table.totalElements := rfl

theorem store_eq (h : p + bs.length ≤ table.data.data.size) :
    table.store p bs = .ok (table.write p bs) := by
  rw [store, VlMemory.store_eq h]
  rfl

/-- The written link is read back. -/
theorem link_relink_self (hn : n < 2 ^ 64) : (table.relink i n).link i = n := by
  have hread : (table.data.data.bytes.write (i + 16) (natToLE 8 n)).slice (i + 16)
      (natToLE 8 n).length = natToLE 8 n := ByteMem.slice_write_self
  rw [length_natToLE] at hread
  rw [link, VlMemory.number, relink, bytes_write, hread, natOfLE_natToLE]
  exact Nat.mod_eq_of_lt (by simpa using hn)

/-! ### The invariant of the arena -/

/-- **The elements are stored**: their blocks are the live blocks of the arena. -/
structure Nodes (table : VlHashTable) (elems : List VlHashElement) : Prop where
  arena : table.data.Inv (elems.map VlHashElement.block)
  handle : ∀ e ∈ elems, 8 ≤ e.iter
  stored : ∀ e ∈ elems, e.Stored table.hashFunc table.data.data

namespace Nodes

theorem perm {elems' : List VlHashElement} (h : table.Nodes elems) (hp : elems.Perm elems') :
    table.Nodes elems' :=
  ⟨h.arena.perm (hp.map _), fun e he => h.handle e (hp.mem_iff.mpr he),
    fun e he => h.stored e (hp.mem_iff.mpr he)⟩

/-- Only the arena and the hash function count. -/
theorem congr (h : table.Nodes elems) (hdata : table'.data = table.data)
    (hhash : table'.hashFunc = table.hashFunc) : table'.Nodes elems := by
  refine ⟨hdata ▸ h.arena, h.handle, fun e he => ?_⟩
  rw [hdata, hhash]
  exact h.stored e he

theorem stop_le (h : table.Nodes elems) (he : e ∈ elems) :
    e.iter + (vlHashTableHeaderSize + e.key.length + e.value.length) ≤ table.data.data.size := by
  have hstop := h.arena.stop_le (List.mem_map_of_mem he)
  have hiter := h.handle e he
  rw [VlHashElement.block, Block.stop_mk] at hstop
  omega

theorem iter_lt (h : table.Nodes elems) (he : e ∈ elems) : e.iter < 2 ^ 64 := by
  have hstop := h.stop_le he
  have hbound := h.arena.bound
  omega

theorem iter_ne_zero (h : table.Nodes elems) (he : e ∈ elems) : e.iter ≠ 0 := by
  have := h.handle e he
  omega

/-- Different elements share no byte. -/
theorem disjoint (h : table.Nodes elems) (he : e ∈ elems) (he' : e' ∈ elems) (hne : e ≠ e') :
    e.block.Disjoint e'.block := by
  have hpair := List.pairwise_map.mp h.arena.pairwise
  have : Std.Symm fun a b : VlHashElement => a.block.Disjoint b.block := ⟨fun _ _ hd => hd.symm⟩
  exact hpair.forall he he' hne

/-- An element is known by its iterator. -/
theorem eq_of_iter (h : table.Nodes elems) (he : e ∈ elems) (he' : e' ∈ elems)
    (hiter : e.iter = e'.iter) : e = e' := by
  by_contra hne
  rcases h.disjoint he he' hne with hd | hd
  · simp only [VlHashElement.block, Block.stop_mk] at hd
    omega
  · simp only [VlHashElement.block, Block.stop_mk] at hd
    omega

theorem nodup_iter (h : table.Nodes elems) : (elems.map VlHashElement.iter).Nodup := by
  have hpair := List.pairwise_map.mp h.arena.pairwise
  refine List.pairwise_map.mpr (hpair.imp fun {a b} hd heq => ?_)
  rcases hd with hd | hd
  · simp only [VlHashElement.block, Block.stop_mk] at hd
    omega
  · simp only [VlHashElement.block, Block.stop_mk] at hd
    omega

/-! ### Reading a header -/

theorem keySize_eq (h : table.Nodes elems) (he : e ∈ elems) :
    table.keySize e.iter = .ok (e.key.length % 2 ^ 16) := by
  have hstop := h.stop_le he
  rw [vlHashTableHeaderSize] at hstop
  rw [keySize, VlMemory.loadNumber_eq (by omega), (h.stored e he).keySize]

theorem valSize_eq (h : table.Nodes elems) (he : e ∈ elems) :
    table.valSize e.iter = .ok (e.value.length % 2 ^ 16) := by
  have hstop := h.stop_le he
  rw [vlHashTableHeaderSize] at hstop
  rw [valSize, VlMemory.loadNumber_eq (by omega), (h.stored e he).valSize]

theorem keyHash_eq (h : table.Nodes elems) (he : e ∈ elems) :
    table.keyHash e.iter = .ok (table.hashFunc e.key).toNat := by
  have hstop := h.stop_le he
  rw [vlHashTableHeaderSize] at hstop
  rw [keyHash, VlMemory.loadNumber_eq (by omega), (h.stored e he).keyHash]

theorem next_eq (h : table.Nodes elems) (he : e ∈ elems) :
    table.next e.iter = .ok (table.link e.iter) := by
  have hstop := h.stop_le he
  rw [vlHashTableHeaderSize] at hstop
  rw [next, VlMemory.loadNumber_eq (by omega), link]

/-- **Comparing** a key with the key of an element, as long as its size was stored. -/
theorem binCompare_eq (h : table.Nodes elems) (he : e ∈ elems) (hsize : e.key.length < 2 ^ 16)
    (key : List UInt8) :
    vlHashTableBinCompare table.data.data (e.iter + vlHashTableHeaderSize)
      (e.key.length % 2 ^ 16) key = .ok (decide (e.key = key)) := by
  have hstop := h.stop_le he
  rw [vlHashTableBinCompare, Nat.mod_eq_of_lt hsize]
  split_ifs with hlen
  · have hne : e.key ≠ key := fun heq => hlen (congrArg List.length heq)
    rw [decide_eq_false hne]
  · rw [VlMemory.load_eq (by omega), ok_bind, (h.stored e he).key, pure_eq_ok,
      Bool.beq_eq_decide_eq]

/-- **The test of an insertion**: a key with another hash is another key. -/
theorem matches_eq (h : table.Nodes elems) (he : e ∈ elems) (hsize : e.key.length < 2 ^ 16)
    (key : List UInt8) :
    vlHashTableMatches table e.iter (table.hashFunc key).toNat key =
      .ok (decide (e.key = key)) := by
  rw [vlHashTableMatches, h.keyHash_eq he, ok_bind]
  split_ifs with hhash
  · rw [h.keySize_eq he, ok_bind, h.binCompare_eq he hsize]
  · have hne : e.key ≠ key := fun heq => hhash (by rw [heq])
    rw [decide_eq_false hne, pure_eq_ok]

/-! ### Writing a link -/

theorem setNext_eq (h : table.Nodes elems) (he : e ∈ elems) (n : ℕ) :
    table.setNext e.iter n = .ok (table.relink e.iter n) := by
  have hstop := h.stop_le he
  rw [vlHashTableHeaderSize] at hstop
  exact store_eq (by rw [length_natToLE]; omega)

/-- The link lies in the block, behind the header of the arena. -/
theorem link_bounds (h : table.Nodes elems) (he : e ∈ elems) (n : ℕ) :
    e.block.offset + 8 ≤ e.iter + 16 ∧ e.iter + 16 + (natToLE 8 n).length ≤ e.block.stop := by
  have hiter := h.handle e he
  rw [length_natToLE, VlHashElement.block, Block.stop_mk, vlHashTableHeaderSize]
  dsimp only
  omega

/-- The tiles stay. -/
theorem tiled_relink (h : table.Nodes elems) (he : e ∈ elems) (hts : table.data.Tiled ts)
    (hb : e.block ∈ blocks false 0 ts) : (table.relink e.iter n).data.Tiled ts := by
  obtain ⟨hlo, hhi⟩ := h.link_bounds he n
  exact hts.write hb hlo hhi

/-- Only the link of the element is written. -/
theorem bytes_relink (h : table.Nodes elems) (he : e ∈ elems) (he' : e' ∈ elems) {q : ℕ}
    (hlo : e'.iter ≤ q)
    (hhi : q < e'.iter + (vlHashTableHeaderSize + e'.key.length + e'.value.length))
    (hq : e' = e → q < e.iter + 16 ∨ e.iter + 24 ≤ q) :
    (table.relink e.iter n).data.data.bytes q = table.data.data.bytes q := by
  have hiter := h.handle e he
  rw [VlHashTable.relink, bytes_write]
  rw [vlHashTableHeaderSize] at hhi
  have hout : q < e.iter + 16 ∨ e.iter + 24 ≤ q := by
    by_cases heq : e' = e
    · exact hq heq
    · have hiter' := h.handle e' he'
      rcases h.disjoint he' he heq with hd | hd
      · simp only [VlHashElement.block, Block.stop_mk, vlHashTableHeaderSize] at hd
        omega
      · simp only [VlHashElement.block, Block.stop_mk, vlHashTableHeaderSize] at hd
        omega
  rcases hout with hout | hout
  · exact ByteMem.write_of_lt (by omega)
  · exact ByteMem.write_of_ge (by rw [length_natToLE]; omega)

/-- **Writing a link** leaves the elements as they are. -/
theorem relink (h : table.Nodes elems) (he : e ∈ elems) (n : ℕ) :
    (table.relink e.iter n).Nodes elems := by
  obtain ⟨ts, hts, hperm⟩ := h.arena
  have hb := hperm.mem_iff.mp (List.mem_map_of_mem he)
  refine ⟨⟨ts, h.tiled_relink he hts hb, hperm⟩, h.handle, fun e' he' => ?_⟩
  refine (h.stored e' he').congr fun q hlo hhi hq => h.bytes_relink he he' hlo hhi ?_
  rintro rfl
  exact hq

/-- Another element keeps its link. -/
theorem link_relink_of_ne (h : table.Nodes elems) (he : e ∈ elems) (he' : e' ∈ elems)
    (hne : e' ≠ e) : (table.relink e.iter n).link e'.iter = table.link e'.iter := by
  refine VlMemory.number_congr (ByteMem.slice_congr fun q hlo hhi => ?_)
  refine h.bytes_relink he he' (by omega) ?_ fun heq => absurd heq hne
  rw [vlHashTableHeaderSize]
  omega

end Nodes

end VlHashTable

end VeritableLasagna
