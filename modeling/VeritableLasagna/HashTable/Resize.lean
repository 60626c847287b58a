import VeritableLasagna.HashTable.Remove

/-!
# Values of a hash table

A client writes the value of an element in place, and an insertion of a key that is there gives its
value another size. As long as the arena leaves the block where it is, no link has to follow
(`VlHashTable.Inv.replace`), and the table afterwards has the element with its new value.

An insertion with another size reallocates the node. It stays where it is when the value shrinks, or
when it grows into a free node behind it (`VlHashTable.Inv.insert_resize`).
-/

namespace VeritableLasagna

open Tiling

namespace VlHashTable

variable {table table' : VlHashTable} {elems rest : List VlHashElement} {e e' : VlHashElement}
  {b p n size dataSize : ℕ} {value : List UInt8}

/-- The order in which the elements are listed does not matter. -/
theorem Inv.perm {elems' : List VlHashElement} (h : table.Inv elems) (hp : elems.Perm elems') :
    table.Inv elems' :=
  ⟨h.nodes.perm hp, fun x hx => h.key_lt x (hp.mem_iff.mpr hx), (hp.map _).nodup_iff.mp h.nodup_key,
    h.total.trans hp.length_eq, hp.length_eq ▸ h.load, h.size_pow, h.size_lt, h.space,
    fun b p hb => (h.bucket b p hb).perm hp⟩

/-! ### Another value -/

/-- A bucket does not depend on the values of its elements. -/
theorem Bucket.replace (h : table.Bucket size (e :: rest) b p) (hiter : e'.iter = e.iter)
    (hkey : e'.key = e.key) : table.Bucket size (e' :: rest) b p := by
  obtain ⟨l, hchain, hl⟩ := h
  by_cases hb : table.slot size e.key = b
  · rw [List.filter_cons_of_pos (by simpa using hb)] at hl
    obtain ⟨l₁, l₂, rfl⟩ := List.append_of_mem (hl.mem_iff.mpr List.mem_cons_self)
    refine ⟨l₁ ++ e' :: l₂, ?_, ?_⟩
    · rw [List.map_append, List.map_cons] at hchain ⊢
      rwa [hiter]
    · rw [List.filter_cons_of_pos (by simpa [hkey] using hb)]
      exact List.perm_middle.trans ((List.perm_middle.symm.trans hl).cons_inv.cons _)
  · rw [List.filter_cons_of_neg (by simpa using hb)] at hl
    exact ⟨l, hchain, by rwa [List.filter_cons_of_neg (by simpa [hkey] using hb)]⟩

/-- **The invariant with another value**: the element keeps its iterator and its key, and no link
changes. -/
theorem Inv.replace (h : table.Inv (e :: rest)) (hnodes : table'.Nodes (e' :: rest))
    (hiter : e'.iter = e.iter) (hkey : e'.key = e.key) (htable : table'.table = table.table)
    (hhash : table'.hashFunc = table.hashFunc) (htotal : table'.totalElements = table.totalElements)
    (hlink : ∀ x ∈ e :: rest, table'.link x.iter = table.link x.iter) :
    table'.Inv (e' :: rest) := by
  have hspace := hnodes.stop_le List.mem_cons_self
  refine ⟨hnodes, ?_, ?_, htotal.trans h.total, ?_, ?_, ?_, by omega, fun b p hp => ?_⟩
  · obtain ⟨he, hrest⟩ := List.forall_mem_cons.mp h.key_lt
    exact List.forall_mem_cons.mpr ⟨hkey ▸ he, hrest⟩
  · rw [List.map_cons, hkey, ← List.map_cons]
    exact h.nodup_key
  · rw [htable]
    exact h.load
  · rw [htable]
    exact h.size_pow
  · rw [htable]
    exact h.size_lt
  · rw [htable] at hp ⊢
    exact ((h.bucket b p hp).congr hhash fun x hx _ => hlink x hx).replace hiter hkey

/-- Writing the value of an element leaves alone what another element owns. -/
theorem Nodes.bytes_value (h : table.Nodes (e :: rest)) {x : VlHashElement} (hx : x ∈ rest)
    {q : ℕ} (hlo : x.iter ≤ q)
    (hhi : q < x.iter + (vlHashTableHeaderSize + x.key.length + x.value.length))
    (hlen : value.length = e.value.length) :
    (table.write (e.iter + vlHashTableHeaderSize + e.key.length) value).data.data.bytes q =
      table.data.data.bytes q := by
  have hd := (List.pairwise_cons.mp h.arena.pairwise).1 x.block (List.mem_map_of_mem hx)
  have he := h.handle e List.mem_cons_self
  have hx' := h.handle x (List.mem_cons_of_mem _ hx)
  rw [bytes_write]
  rcases hd with hd | hd
  · simp only [VlHashElement.block, Block.stop_mk] at hd
    exact ByteMem.write_of_ge (by omega)
  · simp only [VlHashElement.block, Block.stop_mk] at hd
    exact ByteMem.write_of_lt (by omega)

/-- **Writing the value** of an element. -/
theorem Inv.write_value (h : table.Inv (e :: rest)) (hlen : value.length = e.value.length) :
    Returns (table.store (e.iter + vlHashTableHeaderSize + e.key.length) value) fun t =>
      t.Inv (⟨e.iter, e.key, value⟩ :: rest) ∧ t.hashFunc = table.hashFunc ∧
        t.SameSpace table := by
  have hsize : vlHashTableHeaderSize = 24 := rfl
  have hstop := h.nodes.stop_le List.mem_cons_self
  have hiter := h.nodes.handle e List.mem_cons_self
  have hstored := h.nodes.stored e List.mem_cons_self
  refine ⟨_, store_eq (by omega), ?_, rfl, rfl, rfl⟩
  -- the header and the key lie before the value
  have hbefore : ∀ q n, q + n ≤ e.iter + vlHashTableHeaderSize + e.key.length →
      (table.write (e.iter + vlHashTableHeaderSize + e.key.length) value).data.data.bytes.slice q n
        = table.data.data.bytes.slice q n := fun q n hq =>
    ByteMem.slice_write_of_disjoint (Or.inl hq)
  refine h.replace ⟨?_, ?_, ?_⟩ rfl rfl rfl rfl rfl fun x hx => ?_
  · obtain ⟨ts, hts, hperm⟩ := h.nodes.arena
    have hb := hperm.mem_iff.mp List.mem_cons_self
    refine ⟨ts, tiled_write hts hb ?_ ?_, ?_⟩
    · rw [VlHashElement.block]
      dsimp only
      omega
    · rw [VlHashElement.block, Block.stop_mk]
      omega
    · rw [List.map_cons, VlHashElement.block]
      dsimp only
      rw [hlen]
      exact hperm
  · exact List.forall_mem_cons.mpr ⟨hiter, fun x hx =>
      h.nodes.handle x (List.mem_cons_of_mem _ hx)⟩
  · refine List.forall_mem_cons.mpr ⟨⟨?_, ?_, ?_, ?_, ?_⟩, fun x hx => ?_⟩
    · exact (VlMemory.number_congr (hbefore _ _ (by dsimp only; omega))).trans hstored.keySize
    · dsimp only
      rw [hlen]
      exact (VlMemory.number_congr (hbefore _ _ (by omega))).trans hstored.valSize
    · exact (VlMemory.number_congr (hbefore _ _ (by dsimp only; omega))).trans hstored.keyHash
    · exact (hbefore _ _ (by dsimp only; omega)).trans hstored.key
    · exact ByteMem.slice_write_self
    · exact (h.nodes.stored x (List.mem_cons_of_mem _ hx)).congr fun q hlo hhi _ =>
        h.nodes.bytes_value hx hlo hhi hlen
  · rcases List.mem_cons.mp hx with rfl | hx
    · exact VlMemory.number_congr (hbefore _ _ (by omega))
    · refine VlMemory.number_congr (ByteMem.slice_congr fun q hlo hhi => ?_)
      exact h.nodes.bytes_value hx (by omega) (by omega) hlen

/-! ### Another size -/

/-- **A node that was given another size in its place**: its header of the arena and its size field
were written, and nothing else. -/
theorem Inv.resized (table' : VlHashTable) (h : table.Inv (e :: rest))
    (harena : table'.data.Inv (⟨e.iter - 8, vlHashTableHeaderSize + e.key.length + dataSize + 8⟩ ::
      rest.map VlHashElement.block))
    (hbytes : table'.data.data.bytes =
      (table.data.data.bytes.write (e.iter + 2) (natToLE 2 dataSize)).write (e.iter - 8)
        (natToLE 8 (vlHashTableHeaderSize + e.key.length + dataSize + 8)))
    (htable : table'.table = table.table) (hhash : table'.hashFunc = table.hashFunc)
    (htotal : table'.totalElements = table.totalElements) :
    ∃ value : List UInt8, value.length = dataSize ∧
      value.take (min e.value.length dataSize) = e.value.take (min e.value.length dataSize) ∧
      (table'.write (e.iter + 2) (natToLE 2 dataSize)).Inv (⟨e.iter, e.key, value⟩ :: rest) := by
  have hsize : vlHashTableHeaderSize = 24 := rfl
  have hlength : ∀ k v, (natToLE k v).length = k := fun _ _ => length_natToLE
  have hiter := h.nodes.handle e List.mem_cons_self
  have hstored := h.nodes.stored e List.mem_cons_self
  obtain ⟨t, ht⟩ : ∃ t, t = table'.write (e.iter + 2) (natToLE 2 dataSize) := ⟨_, rfl⟩
  -- the bytes that were not written
  have hkeep : ∀ q, (q < e.iter - 8 ∨ e.iter ≤ q) → (q < e.iter + 2 ∨ e.iter + 4 ≤ q) →
      t.data.data.bytes q = table.data.data.bytes q := by
    intro q hq hq'
    have hout : ∀ m : ByteMem, m.write (e.iter + 2) (natToLE 2 dataSize) q = m q := by
      intro m
      rcases hq' with hq' | hq'
      · exact ByteMem.write_of_lt hq'
      · exact ByteMem.write_of_ge (by rw [hlength]; omega)
    rw [ht, bytes_write, hout, hbytes]
    rcases hq with hq | hq
    · rw [ByteMem.write_of_lt hq, hout]
    · rw [ByteMem.write_of_ge (by rw [hlength]; omega), hout]
  have hslice : ∀ q n, e.iter ≤ q → (q + n ≤ e.iter + 2 ∨ e.iter + 4 ≤ q) →
      t.data.data.bytes.slice q n = table.data.data.bytes.slice q n := by
    intro q n hq hq'
    exact ByteMem.slice_congr fun j hlo hhi => hkeep j (by omega) (by omega)
  -- and so the other elements are as they were
  have hothers : ∀ x ∈ rest, ∀ q, x.iter ≤ q →
      q < x.iter + (vlHashTableHeaderSize + x.key.length + x.value.length) →
      t.data.data.bytes q = table.data.data.bytes q := by
    intro x hx q hlo hhi
    have hx' := h.nodes.handle x (List.mem_cons_of_mem _ hx)
    have hd := (List.pairwise_cons.mp h.nodes.arena.pairwise).1 x.block (List.mem_map_of_mem hx)
    simp only [Block.Disjoint, VlHashElement.block, Block.stop_mk] at hd
    exact hkeep q (by omega) (by omega)
  refine ⟨t.data.data.bytes.slice (e.iter + vlHashTableHeaderSize + e.key.length) dataSize,
    ByteMem.length_slice, ?_, ?_⟩
  · have hold : table.data.data.bytes.slice (e.iter + vlHashTableHeaderSize + e.key.length)
        (min e.value.length dataSize) = e.value.take (min e.value.length dataSize) := by
      rw [← ByteMem.take_slice (Nat.min_le_left _ _), hstored.value]
    rw [ByteMem.take_slice (Nat.min_le_right _ _), hslice _ _ (by omega) (by omega), hold]
  · rw [← ht]
    refine h.replace ⟨?_, ?_, ?_⟩ rfl rfl (by rw [ht, table_write, htable])
      (by rw [ht, hashFunc_write, hhash]) (by rw [ht, totalElements_write, htotal]) fun x hx => ?_
    · obtain ⟨ts, hts, hperm⟩ := harena
      have hb := hperm.mem_iff.mp List.mem_cons_self
      refine ⟨ts, ?_, ?_⟩
      · rw [ht]
        refine tiled_write hts hb ?_ ?_
        · dsimp only
          omega
        · rw [hlength, Block.stop_mk]
          omega
      · rw [List.map_cons, VlHashElement.block]
        dsimp only
        rw [ByteMem.length_slice]
        exact hperm
    · exact List.forall_mem_cons.mpr ⟨hiter, fun x hx =>
        h.nodes.handle x (List.mem_cons_of_mem _ hx)⟩
    · rw [show t.hashFunc = table.hashFunc by rw [ht, hashFunc_write, hhash]]
      refine List.forall_mem_cons.mpr ⟨⟨?_, ?_, ?_, ?_, ?_⟩, fun x hx => ?_⟩
      · exact (VlMemory.number_congr (hslice _ _ (by dsimp only; omega) (by dsimp only; omega))).trans
          hstored.keySize
      · dsimp only
        rw [ByteMem.length_slice, ht, number_write_self]
        norm_num
      · exact (VlMemory.number_congr (hslice _ _ (by dsimp only; omega) (by dsimp only; omega))).trans
          hstored.keyHash
      · exact (hslice _ _ (by dsimp only; omega) (by dsimp only; omega)).trans hstored.key
      · dsimp only
        rw [ByteMem.length_slice]
      · exact (h.nodes.stored x (List.mem_cons_of_mem _ hx)).congr fun q hlo hhi _ =>
          hothers x hx q hlo hhi
    · rcases List.mem_cons.mp hx with rfl | hx
      · exact VlMemory.number_congr (hslice _ _ (by omega) (by omega))
      · exact VlMemory.number_congr (ByteMem.slice_congr fun q hlo hhi =>
          hothers x hx q (by omega) (by omega))

/-- **A present key with a value of another size**, as long as the node stays where it is. -/
theorem Inv.insertOld_resize {nodes : List Block} (h : table.Inv (e :: rest))
    (hget : table.table[table.index e.key]? = some p) (hne : e.value.length % 2 ^ 16 ≠ dataSize)
    (hfit : vlHashTableHeaderSize + e.key.length + dataSize + 8 < 2 ^ 64)
    (hnodes : FreeNodes table.data.freeSet nodes)
    (hstay : dataSize < e.value.length ∨ e.value.length < dataSize ∧
      roomBehind nodes e.block (vlHashTableHeaderSize + e.key.length + dataSize + 8)) :
    Returns (vlHashTableInsertOld table (table.index e.key) p e.iter
      (vlHashTableHeaderSize + e.key.length + dataSize) dataSize) fun r => r.1 = e.iter ∧
        r.2.hashFunc = table.hashFunc ∧ ∃ value : List UInt8, value.length = dataSize ∧
          value.take (min e.value.length dataSize) = e.value.take (min e.value.length dataSize) ∧
          r.2.Inv (⟨e.iter, e.key, value⟩ :: rest) := by
  have hsize : vlHashTableHeaderSize = 24 := rfl
  have hlength : ∀ k v, (natToLE k v).length = k := fun _ _ => length_natToLE
  have hiter := h.nodes.handle e List.mem_cons_self
  have hstop := h.nodes.stop_le List.mem_cons_self
  have hoff : e.block.offset + 8 = e.iter := Nat.sub_add_cancel hiter
  have hblock : e.block.size = vlHashTableHeaderSize + e.key.length + e.value.length + 8 := rfl
  -- the size field is written before the node is reallocated
  have harena : (table.write (e.iter + 2) (natToLE 2 dataSize)).data.Inv
      (e.block :: rest.map VlHashElement.block) := by
    obtain ⟨ts, hts, hperm⟩ := h.nodes.arena
    refine ⟨ts, tiled_write hts (hperm.mem_iff.mp List.mem_cons_self) ?_ ?_, hperm⟩
    · omega
    · rw [hlength, Block.stop]
      omega
  obtain ⟨⟨q, data⟩, hrun, hq, hres⟩ := vlArenaMemRealloc_resized harena hnodes (by omega) hfit
    (hstay.imp (fun hlt => by omega) fun hgrow => ⟨by omega, hgrow.2⟩)
  dsimp only at hq hres
  rw [hoff] at hrun hq
  obtain rfl := hq
  have hinv := hres.inv
  have hfits := hinv.stop_le List.mem_cons_self
  rw [Block.stop_mk] at hfits
  obtain ⟨value, hvalue, htake, hinv'⟩ := h.resized
    { table.write (e.iter + 2) (natToLE 2 dataSize) with data } hinv hres.bytes rfl rfl rfl
  rw [vlHashTableInsertOld, h.nodes.valSize_eq List.mem_cons_self, ok_bind, if_pos hne, setValSize,
    store_eq (by rw [hlength]; omega), ok_bind, hrun, ok_bind]
  dsimp only
  rw [setValSize, store_eq (by rw [hlength]; dsimp only; omega), ok_bind]
  obtain ⟨t, ht, htable, hhash⟩ : ∃ t, t = ({ table.write (e.iter + 2) (natToLE 2 dataSize) with
      data } : VlHashTable).write (e.iter + 2) (natToLE 2 dataSize) ∧ t.table = table.table ∧
        t.hashFunc = table.hashFunc := ⟨_, rfl, rfl, rfl⟩
  rw [← ht] at hinv' ⊢
  have hself : t.setBucket (table.index e.key) p = .ok t := setBucket_self (htable ▸ hget)
  by_cases hroot : e.iter = p
  · rw [if_pos hroot, hroot, hself, ok_bind, ← hroot]
    exact returns_ok ⟨rfl, hhash, value, hvalue, htake, hinv'⟩
  · rw [if_neg hroot, ok_bind]
    exact returns_ok ⟨rfl, hhash, value, hvalue, htake, hinv'⟩

/-- **Inserting a key that is there** with another size gives its element a value of that size, whose
first bytes are the old ones, as long as its node stays where it is. -/
theorem Inv.insert_resize {nodes : List Block} (h : table.Inv elems)
    (hperm : elems.Perm (e :: rest)) (hroom : elems.length < 1717986918)
    (hne : e.value.length % 2 ^ 16 ≠ dataSize)
    (hfit : vlHashTableHeaderSize + e.key.length + dataSize + 8 < 2 ^ 64)
    (hnodes : FreeNodes table.data.freeSet nodes)
    (hstay : dataSize < e.value.length ∨ e.value.length < dataSize ∧
      roomBehind nodes e.block (vlHashTableHeaderSize + e.key.length + dataSize + 8)) :
    Returns (vlHashTableInsert table e.key dataSize) fun r => r.1 = e.iter ∧
      r.2.hashFunc = table.hashFunc ∧ ∃ value : List UInt8, value.length = dataSize ∧
        value.take (min e.value.length dataSize) = e.value.take (min e.value.length dataSize) ∧
        r.2.Inv (⟨e.iter, e.key, value⟩ :: rest) := by
  have he := hperm.mem_iff.mpr List.mem_cons_self
  obtain ⟨table', p, l, hinv, hhash, hspace, -, hget, -, hl, hrun⟩ := h.insert_eq hroom hfit
  have hfind := find?_key h.nodup_key (fun x hx => ((mem_of_perm_filter hl).mp hx).1)
    ((mem_of_perm_filter hl).mpr ⟨he, rfl⟩)
  rw [hrun, hfind]
  rw [← hspace.1] at hnodes
  exact ((hinv.perm hperm).insertOld_resize hget hne hfit hnodes hstay).mono
    fun r ⟨hiter, hhash', hrest⟩ => ⟨hiter, hhash'.trans hhash, hrest⟩

/-! ### A value that is too long -/

/-- **A present key whose value has 65536 bytes or more**, with its own size: the size field does not
hold the size, so that the node is reallocated to the size it has, and what comes back is the place of
its header in the arena. -/
theorem Inv.insert_oversize (h : table.Inv elems) (he : e ∈ elems)
    (hroom : elems.length < 1717986918)
    (hfit : vlHashTableHeaderSize + e.key.length + e.value.length + 8 < 2 ^ 64)
    (hbig : 2 ^ 16 ≤ e.value.length) :
    Returns (vlHashTableInsert table e.key e.value.length) fun r => r.1 = e.iter - 8 ∧
      r.2.SameSpace table := by
  have hlength : ∀ k v, (natToLE k v).length = k := fun _ _ => length_natToLE
  have hsize : vlHashTableHeaderSize = 24 := rfl
  obtain ⟨table', p, l, hinv, hhash, hspace, -, hget, -, hl, hrun⟩ := h.insert_eq hroom hfit
  have hfind := find?_key h.nodup_key (fun x hx => ((mem_of_perm_filter hl).mp hx).1)
    ((mem_of_perm_filter hl).mpr ⟨he, rfl⟩)
  have hiter := h.nodes.handle e he
  have hstop := hinv.nodes.stop_le he
  have hoff : e.block.offset + 8 = e.iter := Nat.sub_add_cancel hiter
  have hblock : e.block.size = vlHashTableHeaderSize + e.key.length + e.value.length + 8 := rfl
  have hne : e.value.length % 2 ^ 16 ≠ e.value.length := by
    have := Nat.mod_lt e.value.length (show 0 < 2 ^ 16 by norm_num)
    omega
  have harena : (table'.write (e.iter + 2) (natToLE 2 e.value.length)).data.Inv
      (e.block :: (elems.erase e).map VlHashElement.block) := by
    obtain ⟨ts, hts, hperm⟩ := (hinv.perm (List.perm_cons_erase he)).nodes.arena
    refine ⟨ts, tiled_write hts (hperm.mem_iff.mp List.mem_cons_self) ?_ ?_, hperm⟩
    · omega
    · rw [hlength, Block.stop]
      omega
  have hrealloc := vlArenaMemRealloc_same harena hfit hblock.symm
  rw [hoff] at hrealloc
  have hheader : e.block.offset = e.iter - 8 := rfl
  rw [hrun, hfind]
  dsimp only
  rw [vlHashTableInsertOld, hinv.nodes.valSize_eq he, ok_bind, if_pos hne, setValSize,
    store_eq (by rw [hlength]; omega), ok_bind, hrealloc, ok_bind]
  dsimp only
  rw [setValSize, store_eq (by rw [hlength]; dsimp only; rw [size_write]; omega), ok_bind]
  split_ifs with hroot
  · simp only [setBucket, table_write, hinv.index_lt e.key, if_true, ok_bind]
    exact returns_ok ⟨rfl, hspace⟩
  · exact returns_ok ⟨rfl, hspace⟩

end VlHashTable

end VeritableLasagna
