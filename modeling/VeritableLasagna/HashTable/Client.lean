import VeritableLasagna.HashTable.Absent

/-!
# What a client of a hash table sees

`table.Shows e` says that a client finds the element `e` by its key and samples the key and the value
through its iterator, and `s.Right` that the table shows exactly the elements its client knows. Every
state that is reached by operations that can be served is right (`VlHashTable.Inv.right`).

Three calls have conditions that a client cannot see.

* The sizes of a key and of a value are stored in two bytes (`vlHashTableInsert_sizes_iff`).
* A present key can get a value of another size as long as its node stays where it is
  (`vlHashTableInsert_resized`).
* A reservation distributes the elements to an eighth of the buckets (`vlHashTableReserve_iff`).
-/

namespace VeritableLasagna

open VlHashTable

/-! ### The elements a table shows -/

/-- **The table shows an element**: its key is found, and its iterator samples the key and the value. The
size of the value is reported in two bytes. -/
structure VlHashTable.Shows (table : VlHashTable) (e : VlHashElement) : Prop where
  find : vlHashTableFind table e.key = .ok e.iter
  sampleKey : vlHashTableSampleKey table e.iter =
    .ok (e.iter + vlHashTableHeaderSize, e.key.length)
  key : table.data.data.load (e.iter + vlHashTableHeaderSize) e.key.length = .ok e.key
  sampleValue : vlHashTableSampleValue table e.iter =
    .ok (e.iter + vlHashTableHeaderSize + e.key.length, e.value.length % 2 ^ 16)
  value : table.data.data.load (e.iter + vlHashTableHeaderSize + e.key.length) e.value.length =
    .ok e.value

/-- **The table is right**: it shows the elements that its client knows, and nothing else. -/
structure VlHashTableState.Right (s : VlHashTableState) : Prop where
  shows : ∀ e ∈ s.elems, s.table.Shows e
  absent : ∀ key, (∀ e ∈ s.elems, e.key ≠ key) → vlHashTableFind s.table key = .ok 0
  walk : s.WalkComplete
  total : s.table.totalElements = s.elems.length

section Client

variable {table table' : VlHashTable} {elems rest : List VlHashElement} {e : VlHashElement}
  {s : VlHashTableState} {key : List UInt8} {dataSize : ℕ}

theorem VlHashTable.Inv.shows (h : table.Inv elems) (he : e ∈ elems) : table.Shows e := by
  have hstop := h.nodes.stop_le he
  have hstored := h.nodes.stored e he
  refine ⟨h.find_mem he, h.sampleKey_eq he, ?_, h.sampleValue_eq he, ?_⟩
  · rw [VlMemory.load_eq (by omega), hstored.key]
  · rw [VlMemory.load_eq (by omega), hstored.value]

theorem VlHashTable.Inv.right (h : s.table.Inv s.elems) : s.Right :=
  ⟨fun _ he => h.shows he, fun _ habsent => h.find_none habsent, h.foreach, h.total⟩

/-! ### Sizes -/

/-- The new element is found, its sizes are reported as they were given, and its value lies behind its
key, inside its block. -/
structure SizesKept (key : List UInt8) (dataSize : ℕ) (r : ℕ × VlHashTable) : Prop where
  find : vlHashTableFind r.2 key = .ok r.1
  sampleKey : vlHashTableSampleKey r.2 r.1 = .ok (r.1 + vlHashTableHeaderSize, key.length)
  sampleValue : vlHashTableSampleValue r.2 r.1 =
    .ok (r.1 + vlHashTableHeaderSize + key.length, dataSize)
  inside : r.1 + vlHashTableHeaderSize + key.length + dataSize ≤ (r.2.data.block r.1).stop

/-- A sampled size has two bytes. -/
theorem vlHashTableSampleKey_lt {i p n : ℕ} (h : vlHashTableSampleKey table i = .ok (p, n)) :
    n < 2 ^ 16 := by
  obtain ⟨k, hk, h⟩ := exists_of_bind_eq_ok h
  obtain rfl := (Prod.mk.inj (Except.ok.inj h)).2
  exact (VlMemory.loadNumber_lt hk).trans_eq (by norm_num)

theorem vlHashTableSampleValue_lt {i p n : ℕ} (h : vlHashTableSampleValue table i = .ok (p, n)) :
    n < 2 ^ 16 := by
  obtain ⟨k, hk, h⟩ := exists_of_bind_eq_ok h
  obtain ⟨keySize, -, h⟩ := exists_of_bind_eq_ok h
  obtain rfl := (Prod.mk.inj (Except.ok.inj h)).2
  exact (VlMemory.loadNumber_lt hk).trans_eq (by norm_num)

/-- A full table cannot be inserted into: the number of its buckets is zero. -/
theorem VlHashTable.Inv.insert_full (h : table.Inv elems) (hfull : 1717986918 ≤ elems.length)
    (key : List UInt8) (dataSize : ℕ) :
    vlHashTableInsert table key dataSize = .error .divideByZero := by
  obtain ⟨⟨size, table'⟩, hensure, rfl⟩ := h.ensure_full hfull
  rw [vlHashTableInsert, hensure, ok_bind]
  simp only [vlHashTableIndex, if_true, error_bind]

/-- **The sizes of a new element survive** exactly if they fit their fields and the table is not
full. -/
theorem VlHashTable.Inv.sizesKept_iff (h : table.Inv elems) (hfresh : ∀ e ∈ elems, e.key ≠ key)
    (hmem : vlHashTableInsert table key dataSize ≠ .error .outOfMemory) :
    Returns (vlHashTableInsert table key dataSize) (SizesKept key dataSize) ↔
      elems.length < 1717986918 ∧ key.length < 2 ^ 16 ∧ dataSize < 2 ^ 16 := by
  constructor
  · rintro ⟨r, hop, hr⟩
    refine ⟨?_, vlHashTableSampleKey_lt hr.sampleKey, vlHashTableSampleValue_lt hr.sampleValue⟩
    by_contra hfull
    cases (h.insert_full (by omega) key dataSize).symm.trans hop
  · rintro ⟨hroom, hkey, hdata⟩
    have hheader : vlHashTableHeaderSize = 24 := rfl
    have hfit : vlHashTableHeaderSize + key.length + dataSize + 8 < 2 ^ 64 := by omega
    have hserved := (h.insert_fresh hroom hfit hkey hfresh).serves
    refine (hserved.resolve_left hmem).mono fun r ⟨value, hvalue, hinv, _⟩ => ?_
    have he : (⟨r.1, key, value⟩ : VlHashElement) ∈ ⟨r.1, key, value⟩ :: elems :=
      List.mem_cons_self
    have hvalue' := hinv.sampleValue_eq he
    have hiter := hinv.nodes.handle _ he
    have hblock := (hinv.nodes.arena.header (List.mem_map_of_mem he)).2
    dsimp only at hvalue' hiter
    rw [hvalue, Nat.mod_eq_of_lt hdata] at hvalue'
    refine ⟨hinv.find_mem he, hinv.sampleKey_eq he, hvalue', ?_⟩
    have hsize : (r.2.data.block r.1).size = vlHashTableHeaderSize + key.length + value.length + 8 :=
      hblock
    rw [Block.stop, hsize, hvalue]
    change _ ≤ r.1 - 8 + _
    omega

/-! ### Another size for a present key -/

/-- What a client expects of inserting a present key with another size: the key and the other elements as
they were, and a value of the new size that starts as the old one. -/
structure Reinserted (s : VlHashTableState) (e : VlHashElement) (dataSize : ℕ)
    (r : ℕ × VlHashTable) : Prop where
  find : vlHashTableFind r.2 e.key = .ok r.1
  sampleKey : vlHashTableSampleKey r.2 r.1 = .ok (r.1 + vlHashTableHeaderSize, e.key.length)
  key : r.2.data.data.load (r.1 + vlHashTableHeaderSize) e.key.length = .ok e.key
  sampleValue : vlHashTableSampleValue r.2 r.1 =
    .ok (r.1 + vlHashTableHeaderSize + e.key.length, dataSize)
  value : ∃ value : List UInt8, r.2.data.data.load
    (r.1 + vlHashTableHeaderSize + e.key.length) dataSize = .ok value ∧
      value.take (min e.value.length dataSize) = e.value.take (min e.value.length dataSize)
  others : ∀ x ∈ s.elems, x.key ≠ e.key → r.2.Shows x
  total : r.2.totalElements = s.table.totalElements

/-- An element of the new size is what the client expects. -/
theorem VlHashTable.Inv.reinserted {value : List UInt8} {r : ℕ × VlHashTable}
    (h : s.table.Inv s.elems) (hperm : s.elems.Perm (e :: rest))
    (hinv : r.2.Inv (⟨r.1, e.key, value⟩ :: rest)) (hle : dataSize ≤ value.length)
    (hreport : value.length % 2 ^ 16 = dataSize)
    (htake : value.take (min e.value.length dataSize) =
      e.value.take (min e.value.length dataSize)) : Reinserted s e dataSize r := by
  have hmem : (⟨r.1, e.key, value⟩ : VlHashElement) ∈ ⟨r.1, e.key, value⟩ :: rest :=
    List.mem_cons_self
  have hshow := hinv.shows hmem
  have hstop := hinv.nodes.stop_le hmem
  have hstored := (hinv.nodes.stored _ hmem).value
  dsimp only at hstop hstored
  refine ⟨hshow.find, hshow.sampleKey, hshow.key, ?_, ⟨value.take dataSize, ?_, ?_⟩,
    fun x hx hne => ?_, ?_⟩
  · have hvalue := hshow.sampleValue
    dsimp only at hvalue
    rwa [hreport] at hvalue
  · rw [VlMemory.load_eq (by omega), ← hstored, ByteMem.take_slice hle]
  · rw [List.take_take, Nat.min_eq_left (Nat.min_le_right _ _), htake]
  · refine hinv.shows (List.mem_cons_of_mem _ ?_)
    refine (List.mem_cons.mp (hperm.mem_iff.mp hx)).resolve_left fun heq => hne (heq ▸ rfl)
  · rw [hinv.total, h.total, hperm.length_eq, List.length_cons, List.length_cons]

/-- **Inserting a present key** with the size its value has as far as two bytes tell, or with another one
for which its node stays where it is. -/
theorem VlHashTable.Inv.insert_present (h : s.table.Inv s.elems) (he : e ∈ s.elems)
    (hroom : s.elems.length < 1717986918)
    (hfit : vlHashTableHeaderSize + e.key.length + dataSize + 8 < 2 ^ 64)
    (hstay : dataSize = e.value.length % 2 ^ 16 ∨ dataSize < 2 ^ 16 ∧
      (dataSize < e.value.length ∨ e.value.length < dataSize ∧
        s.table.data.HasRoomBehind e.iter (vlHashTableHeaderSize + e.key.length + dataSize))) :
    Returns (vlHashTableInsert s.table e.key dataSize) (Reinserted s e dataSize) := by
  by_cases hsame : dataSize = e.value.length % 2 ^ 16
  · refine (h.insert_same hroom hfit he hsame.symm).mono fun r ⟨hiter, hinv, _⟩ => ?_
    have hinv' := hinv.perm (h.perm_key he)
    refine h.reinserted (h.perm_key he) ?_ ?_ hsame.symm rfl
    · rwa [hiter]
    · rw [hsame]
      exact Nat.mod_le _ _
  · obtain ⟨hdata, hstay⟩ := hstay.resolve_left hsame
    obtain ⟨ts, hts, -⟩ := h.nodes.arena
    have hstay' : dataSize < e.value.length ∨ e.value.length < dataSize ∧
        roomBehind (Tiling.blocks true 0 ts) e.block
          (vlHashTableHeaderSize + e.key.length + dataSize + 8) :=
      hstay.imp id fun hgrow => ⟨hgrow.1, h.room_behind he hts.free hgrow.2⟩
    refine (h.insert_resize (h.perm_key he) hroom (Ne.symm hsame) hfit hts.free hstay').mono
      fun r ⟨hiter, _, value, hvalue, htake, hinv⟩ => ?_
    refine h.reinserted (h.perm_key he) ?_ hvalue.ge ?_ htake
    · rwa [hiter]
    · rw [hvalue, Nat.mod_eq_of_lt hdata]

/-! ### Reservations -/

/-- **The map is preserved**: in every state that is reached from the new table by operations that can be
served, it shows exactly the elements its client knows. -/
def Preserved (s : VlHashTableState) (table : VlHashTable) : Prop :=
  ∀ os s', (tableMachine.restrict VlHashTableState.Sound).Run ⟨table, s.elems⟩ os s' → s'.Right

/-- Some key is not there. -/
theorem exists_absent (elems : List VlHashElement) :
    ∃ key : List UInt8, ∀ e ∈ elems, e.key ≠ key := by
  obtain ⟨key, hkey⟩ := Infinite.exists_notMem_finset (elems.map VlHashElement.key).toFinset
  exact ⟨key, fun e he heq => hkey (List.mem_toFinset.mpr (List.mem_map.mpr ⟨e, he, heq⟩))⟩

/-- **A reservation preserves the map** exactly if the new number of buckets fits its type and every key
has its bucket among the first eighth of them. -/
theorem VlHashTable.Inv.reserve_iff (h : s.table.Inv s.elems) (buckets heapSize : ℕ) :
    Serves (vlHashTableReserve s.table buckets heapSize) fun t => (Preserved s t ↔
      reservedBuckets s.table.table.length buckets < 2 ^ 32 ∧ ∀ e ∈ s.elems,
        (s.table.hashFunc e.key).toNat % reservedBuckets s.table.table.length buckets <
          reservedBuckets s.table.table.length buckets / 8) := by
  refine (h.reserve_spec buckets heapSize).mono fun t ht => ⟨fun hright => ?_, fun hcond => ?_⟩
  · have hnow := hright [] ⟨t, s.elems⟩ (.nil _)
    obtain ⟨k, hk⟩ := h.reservedBuckets_pow buckets
    have hpos : 0 < reservedBuckets s.table.table.length buckets / 8 := by
      rw [hk, pow_add]
      have := Nat.two_pow_pos k
      omega
    have hlt : reservedBuckets s.table.table.length buckets < 2 ^ 32 := by
      by_contra hge
      obtain ⟨key, hkey⟩ := exists_absent s.elems
      cases (ht.find_overflow hk (by omega) key).symm.trans (hnow.absent key hkey)
    refine ⟨hlt, fun e he => ?_⟩
    by_contra hhigh
    have hlost := (ht.find_lost hpos hlt (by omega)).symm.trans (hnow.shows e he).find
    exact h.nodes.iter_ne_zero he (Except.ok.inj hlost).symm
  · intro os s' hrun
    have hinv : t.Inv s.elems := ht.inv h (h.reservedBuckets_pow buckets)
      (length_le_reservedBuckets _ buckets) hcond.1 hcond.2
    exact (tableRun_inv (s := ⟨t, s.elems⟩) hinv hrun).right

end Client

/-! ### The calls in every reachable state -/

/-- **When sizes survive storage**, in every state that is reached by operations that can be served and
for every new key: as long as its memory can be allocated, the element is found with its sizes exactly if
both fit two bytes and the table has fewer than 1717986918 elements. -/
theorem vlHashTableInsert_sizes_iff (contents : ByteMem) (hashFunc : List UInt8 → UInt64) :
    Returns (vlHashTableInit contents hashFunc) fun table => ∀ os s,
      (tableMachine.restrict VlHashTableState.Sound).Run ⟨table, []⟩ os s →
        ∀ key dataSize, (∀ e ∈ s.elems, e.key ≠ key) →
          vlHashTableInsert s.table key dataSize ≠ .error .outOfMemory →
            (Returns (vlHashTableInsert s.table key dataSize) (SizesKept key dataSize) ↔
              s.elems.length < 1717986918 ∧ key.length < 2 ^ 16 ∧ dataSize < 2 ^ 16) :=
  (vlHashTableInit_spec contents hashFunc).mono fun _ ht _ _ hrun _ _ hfresh hmem =>
    (tableRun_inv ht.1 hrun).sizesKept_iff hfresh hmem

/-- A key of one byte with a value of 65536 bytes, in an empty table. -/
theorem not_sizesKept : ∃ table r, vlHashTableInit (fun _ => 0) (fun _ => 0) = .ok table ∧
    vlHashTableInsert table [1] 65536 = .ok r ∧ ¬ SizesKept [1] 65536 r := by
  obtain ⟨table, hinit, hinv, -, hsize⟩ := vlHashTableInit_spec (fun _ => 0) (fun _ => 0)
  have hheader : vlHashTableHeaderSize = 24 := rfl
  have hinsert : ServesUnless _ (vlHashTableInsert table [1] 65536) _ :=
    hinv.insert_fresh (by norm_num) (by rw [hheader]; norm_num) (by norm_num)
      (fun e he => (by cases he))
  obtain ⟨r, hop, -⟩ := hinsert.returns (by rw [hsize, hheader]; norm_num)
  exact ⟨table, r, hinit, hop, fun hkept => absurd (vlHashTableSampleValue_lt hkept.sampleValue)
    (by norm_num)⟩

/-- **When a present key can be inserted with another size**, in every state that is reached by operations
that can be served. -/
theorem vlHashTableInsert_resized (contents : ByteMem) (hashFunc : List UInt8 → UInt64) :
    Returns (vlHashTableInit contents hashFunc) fun table => ∀ os s,
      (tableMachine.restrict VlHashTableState.Sound).Run ⟨table, []⟩ os s →
        ∀ e ∈ s.elems, ∀ dataSize, vlHashTableHeaderSize + e.key.length + dataSize + 8 < 2 ^ 64 →
          s.elems.length < 1717986918 →
          (dataSize = e.value.length % 2 ^ 16 ∨ dataSize < 2 ^ 16 ∧
            (dataSize < e.value.length ∨ e.value.length < dataSize ∧
              s.table.data.HasRoomBehind e.iter
                (vlHashTableHeaderSize + e.key.length + dataSize))) →
          Returns (vlHashTableInsert s.table e.key dataSize) (Reinserted s e dataSize) :=
  (vlHashTableInit_spec contents hashFunc).mono fun _ ht _ _ hrun _ he _ hfit hroom hstay =>
    (tableRun_inv ht.1 hrun).insert_present he hroom hfit hstay

/-- A key of one byte without a value, inserted again with 8 bytes: its node moves. -/
theorem not_insert_resized : ∃ table os s e, vlHashTableInit (fun _ => 0) (fun _ => 0) = .ok table ∧
    (tableMachine.restrict VlHashTableState.SameSize).Run ⟨table, []⟩ os s ∧ e ∈ s.elems ∧
      ¬ Returns (vlHashTableInsert s.table e.key 8) (Reinserted s e 8) := by
  obtain ⟨table, s, hinit, hrun, -, htest⟩ := exists_run_insert (fun _ => 0) [1] 0
    (p := fun s => s.elems.any (fun e => e.key == [1]) &&
      (vlHashTableInsert s.table [1] 8).toOption.any fun r =>
        (vlHashTableFind r.2 [1]).toOption != some r.1)
    (by decide) (by rw [vlHashTableHeaderSize]; decide) (by decide +kernel)
  obtain ⟨hany, hfind⟩ := Bool.and_eq_true _ _ ▸ htest
  obtain ⟨e, he, hkey⟩ := List.any_eq_true.mp hany
  have hkey : e.key = [1] := eq_of_beq hkey
  obtain ⟨r, hop, hlost⟩ := (Option.any_eq_true _ _).mp hfind
  refine ⟨table, _, s, e, hinit, hrun, he, fun hret => ?_⟩
  rw [hkey] at hret
  have hfound := (hret.of_ok (eq_ok_of_toOption hop)).find
  rw [hkey] at hfound
  rw [hfound] at hlost
  exact bne_iff_ne.mp hlost rfl

/-- **When a reservation preserves the map**, in every state that is reached by operations that can be
served. -/
theorem vlHashTableReserve_iff (contents : ByteMem) (hashFunc : List UInt8 → UInt64) :
    Returns (vlHashTableInit contents hashFunc) fun table => ∀ os s,
      (tableMachine.restrict VlHashTableState.Sound).Run ⟨table, []⟩ os s → ∀ buckets heapSize,
        Serves (vlHashTableReserve s.table buckets heapSize) fun t => (Preserved s t ↔
          reservedBuckets s.table.table.length buckets < 2 ^ 32 ∧ ∀ e ∈ s.elems,
            (s.table.hashFunc e.key).toNat % reservedBuckets s.table.table.length buckets <
              reservedBuckets s.table.table.length buckets / 8) :=
  (vlHashTableInit_spec contents hashFunc).mono fun _ ht _ _ hrun buckets heapSize =>
    (tableRun_inv ht.1 hrun).reserve_iff buckets heapSize

/-- A key of one byte whose hash is 15, and a reservation of nothing. -/
theorem not_preserved : ∃ table os s t, vlHashTableInit (fun _ => 0) (fun _ => 15) = .ok table ∧
    (tableMachine.restrict VlHashTableState.SameSize).Run ⟨table, []⟩ os s ∧
      vlHashTableReserve s.table 0 0 = .ok t ∧ ¬ Preserved s t := by
  obtain ⟨table, s, hinit, hrun, hinv, htest⟩ := exists_run_insert (fun _ => 15) [1] 0
    (p := fun s => s.elems.any (fun e => e.key == [1]) &&
      (vlHashTableReserve s.table 0 0).toOption.any fun t =>
        (vlHashTableFind t [1]).toOption == some 0)
    (by decide) (by rw [vlHashTableHeaderSize]; decide) (by decide +kernel)
  obtain ⟨hany, hfind⟩ := Bool.and_eq_true _ _ ▸ htest
  obtain ⟨e, he, hkey⟩ := List.any_eq_true.mp hany
  have hkey : e.key = [1] := eq_of_beq hkey
  obtain ⟨t, hop, hlost⟩ := (Option.any_eq_true _ _).mp hfind
  refine ⟨table, _, s, t, hinit, hrun, eq_ok_of_toOption hop, fun hright => ?_⟩
  have hfound := ((hright [] ⟨t, s.elems⟩ (.nil _)).shows e he).find
  rw [hkey] at hfound
  have hzero := eq_of_beq hlost
  rw [hfound] at hzero
  exact hinv.nodes.iter_ne_zero he (Option.some_injective _ hzero)

end VeritableLasagna
