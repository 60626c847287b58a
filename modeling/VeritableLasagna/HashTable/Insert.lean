import VeritableLasagna.HashTable.Grow

/-!
# Insertion into a hash table

A new node gets its block from the arena, its header and its key are written, and the value is what the
memory holds behind them (`VlHashTable.Nodes.newNode_spec`); then it is linked behind the last element
of its chain, or put into the empty bucket (`VlHashTable.Inv.insertNew_spec`). A key that is there with
a value of the same size is found, and nothing is written, as long as that size was stored whole
(`VlHashTable.Inv.insertOld_same`).
-/

namespace VeritableLasagna

open Tiling

namespace VlHashTable

variable {table table' : VlHashTable} {elems l : List VlHashElement} {e last : VlHashElement} {ts : List Tile}
  {b : Block} {key bs : List UInt8} {p q n v dataSize : ℕ}

/-! ### Several writes -/

theorem tiled_write (hts : table.data.Tiled ts) (hb : b ∈ blocks false 0 ts)
    (hp : b.offset + 8 ≤ p) (hstop : p + bs.length ≤ b.stop) : (table.write p bs).data.Tiled ts :=
  hts.write hb hp hstop

theorem number_write_self :
    (table.write p (natToLE n v)).data.data.number p n = v % 256 ^ n := by
  have hread : (table.data.data.bytes.write p (natToLE n v)).slice p (natToLE n v).length =
      natToLE n v := ByteMem.slice_write_self
  rw [length_natToLE] at hread
  rw [VlMemory.number, bytes_write, hread, natOfLE_natToLE]

theorem number_write_of_disjoint (h : p + n ≤ q ∨ q + bs.length ≤ p) :
    (table.write q bs).data.data.number p n = table.data.data.number p n :=
  VlMemory.number_congr (ByteMem.slice_write_of_disjoint h)

/-- The writes of a new node: its header, and its key behind it. -/
def fill (table : VlHashTable) (i hash : ℕ) (key : List UInt8) (dataSize : ℕ) : VlHashTable :=
  ((((table.relink i 0).write i (natToLE 2 key.length)).write (i + 2) (natToLE 2 dataSize)).write
    (i + 8) (natToLE 8 hash)).write (i + vlHashTableHeaderSize) key

variable {i hash : ℕ}

@[simp] theorem table_fill : (table.fill i hash key dataSize).table = table.table := rfl

@[simp] theorem hashFunc_fill : (table.fill i hash key dataSize).hashFunc = table.hashFunc := rfl

@[simp] theorem totalElements_fill :
    (table.fill i hash key dataSize).totalElements = table.totalElements := rfl

/-- Filling a node writes to its header and its key only. -/
theorem bytes_fill (hq : q < i ∨ i + (vlHashTableHeaderSize + key.length) ≤ q) :
    (table.fill i hash key dataSize).data.data.bytes q = table.data.data.bytes q := by
  rw [vlHashTableHeaderSize] at hq
  have hsize : vlHashTableHeaderSize = 24 := rfl
  have hout : ∀ (m : ByteMem) (p : ℕ) (bs : List UInt8), i ≤ p →
      p + bs.length ≤ i + (24 + key.length) → m.write p bs q = m q := by
    intro m p bs hp hbs
    rcases hq with hq | hq
    · exact ByteMem.write_of_lt (by omega)
    · exact ByteMem.write_of_ge (by omega)
  rw [fill, relink]
  simp only [bytes_write]
  rw [hout _ _ _ (by omega) (by omega), hout _ _ _ (by omega) (by rw [length_natToLE]; omega),
    hout _ _ _ (by omega) (by rw [length_natToLE]; omega), hout _ _ _ le_rfl
      (by rw [length_natToLE]; omega), hout _ _ _ (by omega) (by rw [length_natToLE]; omega)]

/-- **A filled node** holds its element, whatever value is behind the key. -/
theorem stored_fill (hhash : hash = (table.hashFunc key).toNat) :
    VlHashElement.Stored ⟨i, key, (table.fill i hash key dataSize).data.data.bytes.slice
        (i + vlHashTableHeaderSize + key.length) dataSize⟩ table.hashFunc
      (table.fill i hash key dataSize).data.data := by
  have hlt : hash < 256 ^ 8 := by
    rw [hhash]
    exact (table.hashFunc key).toNat_lt
  have hsize : vlHashTableHeaderSize = 24 := rfl
  have hword : (256 : ℕ) ^ 2 = 2 ^ 16 := by norm_num
  have hlength : ∀ k v, (natToLE k v).length = k := fun _ _ => length_natToLE
  refine ⟨?_, ?_, ?_, ?_, ?_⟩
  · dsimp only
    rw [fill, number_write_of_disjoint (by omega), number_write_of_disjoint (by omega),
      number_write_of_disjoint (by omega), number_write_self, hword]
  · dsimp only
    rw [fill, number_write_of_disjoint (by omega), number_write_of_disjoint (by omega),
      number_write_self, hword, ByteMem.length_slice]
  · dsimp only
    rw [fill, number_write_of_disjoint (by omega), number_write_self, Nat.mod_eq_of_lt hlt,
      hhash]
  · dsimp only
    exact ByteMem.slice_write_self
  · dsimp only
    rw [ByteMem.length_slice]

/-- The node is not linked to another one. -/
theorem link_fill_self : (table.fill i hash key dataSize).link i = 0 := by
  have hlength : ∀ k v, (natToLE k v).length = k := fun _ _ => length_natToLE
  have hsize : vlHashTableHeaderSize = 24 := rfl
  have hrest : ∀ (t : VlHashTable), t.data.data.number (i + 16) 8 = t.link i := fun _ => rfl
  rw [fill, link, number_write_of_disjoint (by omega),
    number_write_of_disjoint (by rw [hlength]; omega),
    number_write_of_disjoint (by rw [hlength]; omega),
    number_write_of_disjoint (by rw [hlength]; omega), hrest, link_relink_self (by norm_num)]

/-! ### A new node -/

/-- What a new node does to a table: the element `e` is stored, linked to nothing, and nothing else
changes. -/
structure NewNode (table table' : VlHashTable) (elems : List VlHashElement) (e : VlHashElement) :
    Prop where
  nodes : table'.Nodes (e :: elems)
  link_self : table'.link e.iter = 0
  link : ∀ x ∈ elems, table'.link x.iter = table.link x.iter
  table_eq : table'.table = table.table
  hashFunc_eq : table'.hashFunc = table.hashFunc
  total_eq : table'.totalElements = table.totalElements

/-- A block that was just allocated, filled. -/
theorem Nodes.fill_new {data : VlArena} (h : table.Nodes elems)
    (hhash : hash = (table.hashFunc key).toNat) (hi : 8 ≤ i)
    (hinv : data.Inv (⟨i - 8, vlHashTableHeaderSize + key.length + dataSize + 8⟩ ::
      elems.map VlHashElement.block))
    (hkeeps : data.Keeps table.data (elems.map VlHashElement.block)) :
    NewNode table (fill { table with data } i hash key dataSize) elems
      ⟨i, key, (fill { table with data } i hash key dataSize).data.data.bytes.slice
        (i + vlHashTableHeaderSize + key.length) dataSize⟩ := by
  have hsize : vlHashTableHeaderSize = 24 := rfl
  have hlength : ∀ k v, (natToLE k v).length = k := fun _ _ => length_natToLE
  -- what the other elements own is not written
  have hbytes : ∀ e ∈ elems, ∀ q, e.iter ≤ q →
      q < e.iter + (vlHashTableHeaderSize + e.key.length + e.value.length) →
      (fill { table with data } i hash key dataSize).data.data.bytes q =
        table.data.data.bytes q := by
    intro e he q hlo hhi
    have hmem : e.block ∈ elems.map VlHashElement.block := List.mem_map_of_mem he
    have hiter := h.handle e he
    have hdisj := (List.pairwise_cons.mp hinv.pairwise).1 e.block hmem
    have hkeep := ByteMem.slice_eq_iff.mp (hkeeps e.block hmem) q
      (by rw [VlHashElement.block]; dsimp only; omega)
      (by rw [VlHashElement.block]; dsimp only; omega)
    refine (bytes_fill ?_).trans hkeep
    simp only [Block.Disjoint, VlHashElement.block, Block.stop_mk] at hdisj
    omega
  obtain ⟨ts, hts, hperm⟩ := hinv
  have hb := hperm.mem_iff.mp List.mem_cons_self
  have hts' : (fill { table with data } i hash key dataSize).data.Tiled ts := by
    rw [fill, VlHashTable.relink]
    refine tiled_write (tiled_write (tiled_write (tiled_write (tiled_write hts hb ?_ ?_) hb ?_ ?_)
      hb ?_ ?_) hb ?_ ?_) hb ?_ ?_
    all_goals
      simp only [Block.stop_mk, hlength]
      omega
  refine ⟨⟨⟨ts, hts', ?_⟩, ?_, ?_⟩, link_fill_self, fun e he => ?_, rfl, rfl, rfl⟩
  · rw [List.map_cons, VlHashElement.block, ByteMem.length_slice]
    exact hperm
  · exact List.forall_mem_cons.mpr ⟨hi, h.handle⟩
  · refine List.forall_mem_cons.mpr ⟨stored_fill hhash, fun e he => ?_⟩
    exact (h.stored e he).congr fun q hlo hhi _ => hbytes e he q hlo hhi
  · refine VlMemory.number_congr (ByteMem.slice_congr fun q hlo hhi => ?_)
    exact hbytes e he q (by omega) (by omega)

/-- **A new node** is stored with its key, unless no memory is left. -/
theorem Nodes.newNode_spec (h : table.Nodes elems) (hhash : hash = (table.hashFunc key).toNat)
    (hfit : vlHashTableHeaderSize + key.length + dataSize + 8 < 2 ^ 64) :
    ServesUnless (2 ^ 62 ≤ table.data.data.size + (vlHashTableHeaderSize + key.length + dataSize + 8))
      (vlHashTableNewNode table hash (vlHashTableHeaderSize + key.length + dataSize) key dataSize)
      fun r => ∃ value : List UInt8, value.length = dataSize ∧
        NewNode table r.2 elems ⟨r.1, key, value⟩ ∧
        r.2.data.GrowsTo table.data (elems.map VlHashElement.block)
          (vlHashTableHeaderSize + key.length + dataSize + 8) := by
  have hsize : vlHashTableHeaderSize = 24 := rfl
  have hlength : ∀ k v, (natToLE k v).length = k := fun _ _ => length_natToLE
  rw [vlHashTableNewNode]
  refine (vlArenaMemAlloc_served h.arena (by omega) hfit).bind
    fun r ⟨hi, hinv, hkeeps, hgrows⟩ => ?_
  obtain ⟨i, data⟩ := r
  dsimp only at hi hinv hkeeps hgrows ⊢
  have hstop := hinv.stop_le List.mem_cons_self
  rw [Block.stop_mk] at hstop
  have hnew := h.fill_new hhash hi hinv hkeeps
  refine Or.inr ⟨(i, fill { table with data } i hash key dataSize), ?_, _, ?_, hnew,
    hgrows⟩
  · rw [setNext, store_eq (by rw [hlength]; dsimp only; omega), ok_bind, setKeySize,
      store_eq (by rw [hlength, size_write]; dsimp only; omega), ok_bind, setValSize,
      store_eq (by rw [hlength, size_write, size_write]; dsimp only; omega), ok_bind, setKeyHash,
      store_eq (by rw [hlength, size_write, size_write, size_write]; dsimp only; omega), ok_bind,
      store_eq (by rw [size_write, size_write, size_write, size_write]; dsimp only; omega), ok_bind]
    rfl
  · exact ByteMem.length_slice

/-! ### A new element -/

/-- The invariant with one more element. -/
theorem Inv.cons (h : table.Inv elems) (hnodes : table'.Nodes (e :: elems))
    (hfresh : ∀ x ∈ elems, x.key ≠ e.key) (hkey : e.key.length < 2 ^ 16)
    (hload : 5 * (elems.length + 1) < 4 * table.table.length)
    (hlength : table'.table.length = table.table.length)
    (htotal : table'.totalElements = (table.totalElements + 1) % 2 ^ 32)
    (hbucket : ∀ b p, table'.table[b]? = some p →
      table'.Bucket table.table.length (e :: elems) b p) : table'.Inv (e :: elems) := by
  have hlt := h.total_lt
  have hspace := hnodes.stop_le List.mem_cons_self
  refine ⟨hnodes, List.forall_mem_cons.mpr ⟨hkey, h.key_lt⟩, ?_, ?_, ?_, ?_, ?_, by omega, ?_⟩
  · refine List.nodup_cons.mpr ⟨fun hmem => ?_, h.nodup_key⟩
    obtain ⟨x, hx, heq⟩ := List.mem_map.mp hmem
    exact hfresh x hx heq
  · rw [htotal, h.total, List.length_cons]
    exact Nat.mod_eq_of_lt (by omega)
  · rwa [hlength, List.length_cons]
  · rw [hlength]
    exact h.size_pow
  · rw [hlength]
    exact h.size_lt
  · rwa [hlength]

/-- An element alone in its bucket. -/
theorem Bucket.single (hl : (elems.filter fun x => table.slot n x.key = q) = [])
    (he : table.slot n e.key = q) (hne : e.iter ≠ 0) (hlink : table.link e.iter = 0) :
    table.Bucket n (e :: elems) q e.iter := by
  refine ⟨[e], ⟨rfl, hne, hlink⟩, ?_⟩
  rw [List.filter_cons_of_pos (by simpa using he), hl]

/-- **An element that the last one is linked to** is the new last one of its bucket. -/
theorem Bucket.concat (hchain : Chain table.link p ((l ++ [last]).map VlHashElement.iter))
    (hl : (l ++ [last]).Perm (elems.filter fun x => table.slot n x.key = q))
    (hhash : table'.hashFunc = table.hashFunc) (he : table.slot n e.key = q) (hne : e.iter ≠ 0)
    (hold : ∀ x ∈ l, table'.link x.iter = table.link x.iter)
    (hlast : table'.link last.iter = e.iter) (hself : table'.link e.iter = 0) :
    table'.Bucket n (e :: elems) q p := by
  have hslot : table'.slot = table.slot := by
    funext size key
    rw [slot, slot, hhash]
  rw [List.map_append] at hchain
  refine ⟨l ++ [last] ++ [e], ?_, ?_⟩
  · rw [List.map_append, List.map_append]
    refine hchain.concat (fun m hm => ?_) hlast hne hself
    obtain ⟨x, hx, rfl⟩ := List.mem_map.mp hm
    exact hold x hx
  · rw [hslot, List.filter_cons_of_pos (by simpa using he)]
    exact (List.perm_append_singleton _ _).trans (hl.cons _)

/-- The buckets that a new element does not go to. -/
theorem Inv.other_bucket (h : table.Inv elems) (hhash : table'.hashFunc = table.hashFunc)
    (hlink : ∀ x ∈ elems, table.index x.key ≠ table.index e.key →
      table'.link x.iter = table.link x.iter) (hq : q ≠ table.index e.key)
    (hp : table.table[q]? = some p) : table'.Bucket table.table.length (e :: elems) q p := by
  have hsame := (h.bucket q p hp).congr hhash fun x hx hxq => hlink x hx fun heq =>
    hq (hxq.symm.trans heq)
  refine hsame.cons_of_ne ?_
  rw [slot, hhash]
  exact fun heq => hq heq.symm

/-- The new element alone in its bucket. -/
theorem Inv.insert_head (h : table.Inv elems) (hnew : NewNode table table' elems e)
    (hfresh : ∀ x ∈ elems, x.key ≠ e.key) (hkey : e.key.length < 2 ^ 16)
    (hload : 5 * (elems.length + 1) < 4 * table.table.length)
    (hl : (elems.filter fun x => table.index x.key = table.index e.key) = []) :
    Inv { table' with
      totalElements := (table'.totalElements + 1) % 2 ^ 32
      table := table'.table.set (table.index e.key) e.iter } (e :: elems) := by
  have hne := hnew.nodes.iter_ne_zero List.mem_cons_self
  have hslot : table'.slot = table.slot := by
    funext size key
    rw [slot, slot, hnew.hashFunc_eq]
  refine h.cons (hnew.nodes.congr rfl rfl) hfresh hkey hload ?_ ?_ fun b q hq => ?_
  · rw [List.length_set, hnew.table_eq]
  · rw [hnew.total_eq]
  · rw [hnew.table_eq, List.getElem?_set] at hq
    split_ifs at hq with hb
    · obtain rfl := Option.some_injective _ hq
      obtain rfl := hb
      have hsingle : table'.Bucket table.table.length (e :: elems) (table.index e.key) e.iter :=
        Bucket.single (by rw [hslot]; exact hl) (by rw [hslot]; rfl) hne hnew.link_self
      exact hsingle
    · have hother : table'.Bucket table.table.length (e :: elems) b q :=
        h.other_bucket hnew.hashFunc_eq (fun x hx _ => hnew.link x hx) (Ne.symm hb) hq
      exact hother

/-- The new element behind the last one of its chain. -/
theorem Inv.insert_behind (h : table.Inv elems) (hnew : NewNode table table' elems e)
    (hfresh : ∀ x ∈ elems, x.key ≠ e.key) (hkey : e.key.length < 2 ^ 16)
    (hload : 5 * (elems.length + 1) < 4 * table.table.length)
    (hget : table.table[table.index e.key]? = some p)
    (hchain : Chain table.link p ((l ++ [last]).map VlHashElement.iter))
    (hl : (l ++ [last]).Perm (elems.filter fun x => table.index x.key = table.index e.key)) :
    Inv (VlHashTable.relink
      { table' with totalElements := (table'.totalElements + 1) % 2 ^ 32 } last.iter e.iter)
      (e :: elems) := by
  have hmem : ∀ x ∈ l ++ [last], x ∈ elems := fun x hx => ((mem_of_perm_filter hl).mp hx).1
  have hlast : last ∈ elems := hmem last (by simp)
  have hlast' : last ∈ e :: elems := List.mem_cons_of_mem _ hlast
  have hnodup : (l ++ [last]).Nodup :=
    hl.nodup_iff.mpr ((List.Nodup.of_map _ h.nodup_key).filter _)
  obtain ⟨table₂, htable₂⟩ : ∃ table₂ : VlHashTable, table₂ =
      { table' with totalElements := (table'.totalElements + 1) % 2 ^ 32 } := ⟨_, rfl⟩
  have hnodes₂ : table₂.Nodes (e :: elems) :=
    hnew.nodes.congr (by rw [htable₂]) (by rw [htable₂])
  have hlink₂ : table₂.link = table'.link := by
    rw [htable₂]
    rfl
  have hhash : (table₂.relink last.iter e.iter).hashFunc = table.hashFunc := by
    rw [hashFunc_relink, htable₂]
    exact hnew.hashFunc_eq
  have hlength : (table₂.relink last.iter e.iter).table = table.table := by
    rw [table_relink, htable₂]
    exact hnew.table_eq
  have hkeep : ∀ x ∈ elems, x ≠ last →
      (table₂.relink last.iter e.iter).link x.iter = table.link x.iter := fun x hx hxe => by
    rw [hnodes₂.link_relink_of_ne hlast' (List.mem_cons_of_mem _ hx) hxe, hlink₂, hnew.link x hx]
  have hne : e ≠ last := fun heq => hfresh last hlast (heq ▸ rfl)
  rw [← htable₂]
  refine h.cons (hnodes₂.relink hlast' _) hfresh hkey hload (congrArg _ hlength) ?_ fun b q hq => ?_
  · rw [totalElements_relink, htable₂]
    dsimp only
    rw [hnew.total_eq]
  · rw [hlength] at hq
    by_cases hb : b = table.index e.key
    · obtain rfl := hb
      obtain rfl := Option.some_injective _ (hget.symm.trans hq)
      refine Bucket.concat hchain hl hhash rfl (hnew.nodes.iter_ne_zero List.mem_cons_self)
        (fun x hx => hkeep x (hmem x (List.mem_append_left _ hx)) ?_)
        (link_relink_self (hnew.nodes.iter_lt List.mem_cons_self)) ?_
      · rintro rfl
        exact (List.nodup_append'.mp hnodup).2.2 hx (List.mem_singleton_self _)
      · rw [hnodes₂.link_relink_of_ne hlast' List.mem_cons_self hne, hlink₂, hnew.link_self]
    · refine h.other_bucket hhash (fun x hx hxb => hkeep x hx ?_) hb hq
      rintro rfl
      exact hxb ((mem_of_perm_filter hl).mp (by simp)).2

/-- **A new element** goes to the end of its chain. -/
theorem Inv.insertNew_spec (h : table.Inv elems) (hfresh : ∀ x ∈ elems, x.key ≠ key)
    (hkey : key.length < 2 ^ 16) (hload : 5 * (elems.length + 1) < 4 * table.table.length)
    (hfit : vlHashTableHeaderSize + key.length + dataSize + 8 < 2 ^ 64)
    (hget : table.table[table.index key]? = some p)
    (hchain : Chain table.link p (l.map VlHashElement.iter))
    (hl : l.Perm (elems.filter fun x => table.index x.key = table.index key)) :
    ServesUnless (2 ^ 62 ≤ table.data.data.size + (vlHashTableHeaderSize + key.length + dataSize + 8))
      (vlHashTableInsertNew table (table.index key) (lastIter l) (table.hashFunc key).toNat
        (vlHashTableHeaderSize + key.length + dataSize) key dataSize) fun r =>
        ∃ value : List UInt8, value.length = dataSize ∧ r.2.Inv (⟨r.1, key, value⟩ :: elems) ∧
          r.2.hashFunc = table.hashFunc ∧ r.2.data.GrowsTo table.data
            (elems.map VlHashElement.block) (vlHashTableHeaderSize + key.length + dataSize + 8) := by
  rw [vlHashTableInsertNew]
  refine (h.nodes.newNode_spec rfl hfit).bind fun r ⟨value, hvalue, hnew, hgrows⟩ => ?_
  obtain ⟨i, table'⟩ := r
  dsimp only at hnew hgrows ⊢
  rcases List.eq_nil_or_concat' l with rfl | ⟨l, last, rfl⟩
  · -- the bucket was empty
    have hlt : table.index key < table'.table.length := by
      rw [hnew.table_eq]
      exact h.index_lt key
    have hset : setBucket { table' with totalElements := (table'.totalElements + 1) % 2 ^ 32 }
        (table.index key) i = .ok _ := if_pos hlt
    rw [lastIter_nil, if_neg (not_not.mpr rfl), hset, ok_bind]
    exact Or.inr ⟨_, rfl, value, hvalue, h.insert_head hnew hfresh hkey hload (List.nil_perm.mp hl),
      hnew.hashFunc_eq, hgrows⟩
  · -- the last element of the chain is linked to the new one
    have hlast : last ∈ elems := ((mem_of_perm_filter hl).mp (by simp)).1
    have hnodes : Nodes { table' with totalElements := (table'.totalElements + 1) % 2 ^ 32 }
        (⟨i, key, value⟩ :: elems) := hnew.nodes.congr rfl rfl
    rw [lastIter_concat, if_pos (h.nodes.iter_ne_zero hlast),
      hnodes.setNext_eq (List.mem_cons_of_mem _ hlast), ok_bind]
    exact Or.inr ⟨_, rfl, value, hvalue, h.insert_behind hnew hfresh hkey hload hget hchain hl,
      hnew.hashFunc_eq, hgrows⟩

/-! ### The insertion -/

/-- What an insertion does once there are enough buckets. -/
theorem Inv.insert_eq (h : table.Inv elems) (hroom : elems.length < 1717986918)
    (hfit : vlHashTableHeaderSize + key.length + dataSize + 8 < 2 ^ 64) :
    ∃ (table' : VlHashTable) (p : ℕ) (l : List VlHashElement), table'.Inv elems ∧
      table'.hashFunc = table.hashFunc ∧ table'.SameSpace table ∧
      5 * (elems.length + 1) < 4 * table'.table.length ∧
      table'.table[table'.index key]? = some p ∧
      Chain table'.link p (l.map VlHashElement.iter) ∧
      l.Perm (elems.filter fun x => table'.index x.key = table'.index key) ∧
      vlHashTableInsert table key dataSize =
        match l.find? fun x => x.key = key with
        | some e => vlHashTableInsertOld table' (table'.index key) p e.iter
            (vlHashTableHeaderSize + key.length + dataSize) dataSize
        | none => vlHashTableInsertNew table' (table'.index key) (lastIter l)
            (table'.hashFunc key).toNat (vlHashTableHeaderSize + key.length + dataSize) key
            dataSize := by
  obtain ⟨⟨size, table'⟩, hensure, hsize, hinv, hload, hhash, hfree⟩ := h.ensure_spec hroom
  dsimp only at hsize hinv hload hhash hfree
  obtain ⟨p, l, hget, hbucket, hchain, hl⟩ := hinv.exists_chain (hinv.index_lt key)
  have hsearch := insertLoop_eq key hinv.nodes hinv.key_lt
    (fun x hx => ((mem_of_perm_filter hl).mp hx).1) hchain
    ((length_le_of_perm_filter hl).trans hinv.total.ge)
  refine ⟨table', p, l, hinv, hhash, hfree, hload, hget, hchain, hl, ?_⟩
  rw [vlHashTableInsert, hensure, ok_bind]
  simp only [hsize, ← hhash, hinv.index_eq, ok_bind, hbucket, hsearch,
    Nat.mod_eq_of_lt (show vlHashTableHeaderSize + key.length + dataSize < 2 ^ 64 by omega)]
  cases l.find? fun x => x.key = key with
  | some e => rfl
  | none => rfl

/-- **Inserting a new key** adds an element, unless no memory is left. -/
theorem Inv.insert_fresh (h : table.Inv elems) (hroom : elems.length < 1717986918)
    (hfit : vlHashTableHeaderSize + key.length + dataSize + 8 < 2 ^ 64)
    (hkey : key.length < 2 ^ 16) (hfresh : ∀ x ∈ elems, x.key ≠ key) :
    ServesUnless (2 ^ 62 ≤ table.data.data.size + (vlHashTableHeaderSize + key.length + dataSize + 8))
      (vlHashTableInsert table key dataSize) fun r =>
        ∃ value : List UInt8, value.length = dataSize ∧ r.2.Inv (⟨r.1, key, value⟩ :: elems) ∧
          r.2.hashFunc = table.hashFunc ∧ r.2.data.GrowsTo table.data
            (elems.map VlHashElement.block) (vlHashTableHeaderSize + key.length + dataSize + 8) := by
  obtain ⟨table', p, l, hinv, hhash, hspace, hload, hget, hchain, hl, hrun⟩ := h.insert_eq hroom hfit
  have hnone : (l.find? fun x => x.key = key) = none := by
    refine List.find?_eq_none.mpr fun x hx heq => ?_
    exact hfresh x ((mem_of_perm_filter hl).mp hx).1 (by simpa using heq)
  have hgrows : table'.data.data.size = table.data.data.size := hspace.2
  rw [hrun, hnone, ← hhash, ← hgrows]
  refine (hinv.insertNew_spec hfresh hkey hload hfit hget hchain hl).mono
    fun r ⟨value, hvalue, hinv', hhash', hle⟩ => ⟨value, hvalue, hinv', hhash', fun m hm hlive => ?_⟩
  exact (hle m hm hlive).trans_eq (by rw [hgrows])

/-- **Inserting a key that is there**, with the size that is stored for its value, changes no element. -/
theorem Inv.insert_same (h : table.Inv elems) (hroom : elems.length < 1717986918)
    (hfit : vlHashTableHeaderSize + e.key.length + dataSize + 8 < 2 ^ 64) (he : e ∈ elems)
    (hvalue : e.value.length % 2 ^ 16 = dataSize) :
    Returns (vlHashTableInsert table e.key dataSize) fun r =>
      r.1 = e.iter ∧ r.2.Inv elems ∧ r.2.hashFunc = table.hashFunc ∧ r.2.SameSpace table := by
  obtain ⟨table', p, l, hinv, hhash, hspace, hload, hget, hchain, hl, hrun⟩ := h.insert_eq hroom hfit
  have hfind := find?_key h.nodup_key (fun x hx => ((mem_of_perm_filter hl).mp hx).1)
    ((mem_of_perm_filter hl).mpr ⟨he, rfl⟩)
  rw [hrun, hfind]
  dsimp only
  rw [vlHashTableInsertOld, hinv.nodes.valSize_eq he, ok_bind, if_neg (not_not.mpr hvalue)]
  by_cases hroot : e.iter = p
  · -- the bucket is written with what it holds
    rw [if_pos hroot, hroot, setBucket_self hget, ok_bind, ← hroot]
    exact returns_ok ⟨rfl, hinv, hhash, hspace⟩
  · rw [if_neg hroot, ok_bind]
    exact returns_ok ⟨rfl, hinv, hhash, hspace⟩

end VlHashTable

end VeritableLasagna
