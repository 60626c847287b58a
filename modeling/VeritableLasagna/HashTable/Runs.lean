import VeritableLasagna.HashTable.Reserve
import VeritableLasagna.Arena.Runs

/-!
# Runs of a hash table

A client inserts keys, writes values through the iterators it was given, removes elements by iterator or
by key, clears the table and reserves memory, in any order. Next to the table, a state keeps what the
client knows: the elements, each with its iterator, its key and the bytes of its value.

`s.Sound o` is the condition under which an operation is served: the sizes fit the two bytes that hold
them, a value that gets another size leaves its node where it is, and the number of buckets stays in
`vl_dsidx_t` and is not cut to an eighth. `tableStep_spec` says what one operation does then, and
`tableRun_inv` that every run of such operations keeps the table invariant.

The walk over the table is complete in every state of such a run (`vlHashTableForeach_complete`).
-/

namespace VeritableLasagna

open VlHashTable

/-- The operations of a client of a hash table. -/
inductive VlHashTableOp
  | insert (key : List UInt8) (dataSize : ℕ)
  | write (iter : ℕ) (value : List UInt8)
  | removeIter (iter : ℕ)
  | removeKey (key : List UInt8)
  | clear
  | reserve (buckets heapSize : ℕ)

/-- A hash table together with the elements its client knows. -/
structure VlHashTableState where
  table : VlHashTable
  elems : List VlHashElement

/-- One operation, with the bookkeeping of the elements. The value of an inserted element is what the
memory holds behind its key. -/
def tableStep (s : VlHashTableState) : VlHashTableOp → Except Fault VlHashTableState
  | .insert key dataSize => do
    let (iter, table) ← vlHashTableInsert s.table key dataSize
    let value := table.data.data.bytes.slice (iter + vlHashTableHeaderSize + key.length) dataSize
    return ⟨table, ⟨iter, key, value⟩ :: s.elems.filter fun e => e.key ≠ key⟩
  | .write iter value => do
    let (valuePtr, _) ← vlHashTableSampleValue s.table iter
    let table ← s.table.store valuePtr value
    return ⟨table, s.elems.map fun e => if e.iter = iter then { e with value } else e⟩
  | .removeIter iter => do
    let table ← vlHashTableRemoveIter s.table iter
    return ⟨table, s.elems.filter fun e => e.iter ≠ iter⟩
  | .removeKey key => do
    let table ← vlHashTableRemoveKey s.table key
    return ⟨table, s.elems.filter fun e => e.key ≠ key⟩
  | .clear => do
    let table ← vlHashTableClear s.table
    return ⟨table, []⟩
  | .reserve buckets heapSize => do
    let table ← vlHashTableReserve s.table buckets heapSize
    return ⟨table, s.elems⟩

/-- The hash table as a machine: only iterators and keys of present elements are used for writes and
removals, a write has the size of the value, and no sum of sizes leaves 64 bits. -/
def tableMachine : Machine VlHashTableState VlHashTableOp where
  guard s
    | .insert key dataSize => vlHashTableHeaderSize + key.length + dataSize + 8 < 2 ^ 64
    | .write iter value => ∃ e ∈ s.elems, e.iter = iter ∧ value.length = e.value.length
    | .removeIter iter => ∃ e ∈ s.elems, e.iter = iter
    | .removeKey key => ∃ e ∈ s.elems, e.key = key
    | .clear => True
    | .reserve buckets heapSize => 8 * (s.table.table.length + buckets) < 2 ^ 64 ∧
      heapSize + vlArenaTotalCapacity s.table.data < 2 ^ 64
  step := tableStep

namespace VlHashTableState

/-- **The operation can be served**. An insertion needs a key whose size can be stored, and fewer than
1717986918 elements; where the key is present with a value of another size, its node has to stay in its
place. A reservation must leave every key in the bucket where it is searched. -/
def Sound (s : VlHashTableState) : VlHashTableOp → Prop
  | .insert key dataSize => s.elems.length < 1717986918 ∧ key.length < 2 ^ 16 ∧
    ∀ e ∈ s.elems, e.key = key → dataSize < 2 ^ 16 ∧ (dataSize = e.value.length ∨
      e.value.length % 2 ^ 16 ≠ dataSize ∧ (dataSize < e.value.length ∨
        e.value.length < dataSize ∧
          s.table.data.HasRoomBehind e.iter (vlHashTableHeaderSize + key.length + dataSize)))
  | .reserve buckets _ => reservedBuckets s.table.table.length buckets < 2 ^ 32 ∧
    ∀ e ∈ s.elems, (s.table.hashFunc e.key).toNat % reservedBuckets s.table.table.length buckets <
      reservedBuckets s.table.table.length buckets / 8
  | _ => True

/-- The operation inserts no present key with another size, and reserves nothing. -/
def SameSize (s : VlHashTableState) : VlHashTableOp → Prop
  | .insert key dataSize => ∀ e ∈ s.elems, e.key = key → e.value.length = dataSize
  | .reserve _ _ => False
  | _ => True

end VlHashTableState

/-! ### The elements that stay -/

section Elements

variable {table : VlHashTable} {elems : List VlHashElement} {e : VlHashElement} {key : List UInt8}

/-- Where a label tells elements apart, the others are those with another label. -/
theorem perm_cons_filter_ne {α β : Type*} [DecidableEq β] {f : α → β} {l : List α} {a : α}
    (hnodup : (l.map f).Nodup) (ha : a ∈ l) : l.Perm (a :: l.filter fun x => f x ≠ f a) := by
  induction l with
  | nil => cases ha
  | cons b l ih =>
    rw [List.map_cons, List.nodup_cons] at hnodup
    obtain ⟨hb, hnodup⟩ := hnodup
    rcases List.mem_cons.mp ha with rfl | ha
    · have hkeep : (l.filter fun x => f x ≠ f a) = l := by
        refine List.filter_eq_self.mpr fun x hx => ?_
        simpa using fun heq : f x = f a => hb (heq ▸ List.mem_map_of_mem hx)
      rw [List.filter_cons_of_neg (by simp), hkeep]
    · have hne : f b ≠ f a := fun heq => hb (heq ▸ List.mem_map_of_mem ha)
      rw [List.filter_cons_of_pos (by simpa using hne)]
      exact ((ih hnodup ha).cons b).trans (List.Perm.swap a b _)

theorem VlHashTable.Inv.perm_key (h : table.Inv elems) (he : e ∈ elems) :
    elems.Perm (e :: elems.filter fun x => x.key ≠ e.key) :=
  perm_cons_filter_ne h.nodup_key he

theorem VlHashTable.Inv.perm_iter (h : table.Inv elems) (he : e ∈ elems) :
    elems.Perm (e :: elems.filter fun x => x.iter ≠ e.iter) :=
  perm_cons_filter_ne h.nodes.nodup_iter he

/-- No element has a key that is not there. -/
theorem filter_key_of_fresh (hfresh : ∀ e ∈ elems, e.key ≠ key) :
    (elems.filter fun e => e.key ≠ key) = elems :=
  List.filter_eq_self.mpr fun e he => by simpa using hfresh e he

/-- The value that the client reads behind the key. -/
theorem VlHashTable.Inv.value_eq {value : List UInt8} {iter : ℕ}
    (h : table.Inv (⟨iter, key, value⟩ :: elems)) :
    table.data.data.bytes.slice (iter + vlHashTableHeaderSize + key.length) value.length = value :=
  (h.nodes.stored _ List.mem_cons_self).value

/-- Sampling the value of an element whose sizes were stored. -/
theorem VlHashTable.Inv.sampleValue_eq (h : table.Inv elems) (he : e ∈ elems) :
    vlHashTableSampleValue table e.iter =
      .ok (e.iter + vlHashTableHeaderSize + e.key.length, e.value.length % 2 ^ 16) := by
  rw [vlHashTableSampleValue, h.nodes.valSize_eq he, ok_bind, h.nodes.keySize_eq he, ok_bind,
    Nat.mod_eq_of_lt (h.key_lt e he), pure_eq_ok]

theorem VlHashTable.Inv.sampleKey_eq (h : table.Inv elems) (he : e ∈ elems) :
    vlHashTableSampleKey table e.iter = .ok (e.iter + vlHashTableHeaderSize, e.key.length) := by
  rw [vlHashTableSampleKey, h.nodes.keySize_eq he, ok_bind, Nat.mod_eq_of_lt (h.key_lt e he),
    pure_eq_ok]

/-- The room behind a node, as the arena knows it. -/
theorem VlHashTable.Inv.room_behind (h : table.Inv elems) (he : e ∈ elems) {nodes : List Block}
    {size : ℕ} (hnodes : FreeNodes table.data.freeSet nodes)
    (hroom : table.data.HasRoomBehind e.iter size) :
    roomBehind nodes e.block (size + 8) := by
  obtain ⟨nodes', hget, node, hnode, hoff, hsize⟩ := hroom
  obtain rfl := Except.ok.inj ((VlArena.freeNodes_eq hnodes).symm.trans hget)
  have hiter := h.nodes.handle e he
  have hheader := (h.nodes.arena.header (List.mem_map_of_mem he)).2
  have hblock : table.data.payload e.iter = e.block.size - 8 := by
    rw [VlArena.payload, VlArena.block]
    exact congrArg (· - 8) hheader
  have hbig : e.block.size = vlHashTableHeaderSize + e.key.length + e.value.length + 8 := rfl
  have hstop : e.block.stop = e.iter - 8 + e.block.size := rfl
  exact ⟨node, hnode, by omega, by omega⟩

end Elements

/-! ### One operation -/

section Steps

variable {s s' : VlHashTableState} {e : VlHashElement} {key value : List UInt8} {dataSize : ℕ}

/-- Inserting a new key. -/
theorem tableStep_fresh (h : s.table.Inv s.elems) (hroom : s.elems.length < 1717986918)
    (hfit : vlHashTableHeaderSize + key.length + dataSize + 8 < 2 ^ 64)
    (hkey : key.length < 2 ^ 16) (hfresh : ∀ e ∈ s.elems, e.key ≠ key) :
    ServesUnless
      (2 ^ 62 ≤ s.table.data.data.size + (vlHashTableHeaderSize + key.length + dataSize + 8))
      (tableStep s (.insert key dataSize)) fun s' => s'.table.Inv s'.elems ∧
        s'.table.hashFunc = s.table.hashFunc ∧
        (∃ (iter : ℕ) (value : List UInt8), value.length = dataSize ∧
          s'.elems = ⟨iter, key, value⟩ :: s.elems) ∧
        s'.table.data.GrowsTo s.table.data (s.elems.map VlHashElement.block)
          (vlHashTableHeaderSize + key.length + dataSize + 8) := by
  rw [tableStep]
  refine (h.insert_fresh hroom hfit hkey hfresh).bind fun r ⟨value, hvalue, hinv, hhash, hgrows⟩ => ?_
  have hread := hinv.value_eq
  rw [hvalue] at hread
  refine Or.inr ⟨_, rfl, ?_, hhash, ⟨r.1, value, hvalue, ?_⟩, hgrows⟩
  · dsimp only
    rwa [filter_key_of_fresh hfresh, hread]
  · dsimp only
    rw [filter_key_of_fresh hfresh, hread]

/-- Inserting a present key with the size its value has. -/
theorem tableStep_same (h : s.table.Inv s.elems) (hroom : s.elems.length < 1717986918)
    (hfit : vlHashTableHeaderSize + e.key.length + e.value.length + 8 < 2 ^ 64) (he : e ∈ s.elems)
    (hvalue : e.value.length < 2 ^ 16) :
    Returns (tableStep s (.insert e.key e.value.length)) fun s' => s'.table.Inv s'.elems ∧
      s'.table.hashFunc = s.table.hashFunc ∧
      s'.elems = e :: s.elems.filter (fun x => x.key ≠ e.key) ∧ s'.table.SameSpace s.table := by
  rw [tableStep]
  refine (h.insert_same hroom hfit he (Nat.mod_eq_of_lt hvalue)).bind fun r ⟨hiter, hinv, hhash, hspace⟩ => ?_
  have hread := (hinv.perm (h.perm_key he)).value_eq
  refine returns_ok ⟨?_, hhash, ?_, hspace⟩
  · dsimp only
    rw [hiter, hread]
    exact hinv.perm (h.perm_key he)
  · dsimp only
    rw [hiter, hread]

/-- Inserting a present key with another size, when its node stays where it is. -/
theorem tableStep_resize (h : s.table.Inv s.elems) (hroom : s.elems.length < 1717986918)
    (hfit : vlHashTableHeaderSize + e.key.length + dataSize + 8 < 2 ^ 64) (he : e ∈ s.elems)
    (hne : e.value.length % 2 ^ 16 ≠ dataSize)
    (hstay : dataSize < e.value.length ∨ e.value.length < dataSize ∧
      s.table.data.HasRoomBehind e.iter (vlHashTableHeaderSize + e.key.length + dataSize)) :
    Returns (tableStep s (.insert e.key dataSize)) fun s' => s'.table.Inv s'.elems ∧
      s'.table.hashFunc = s.table.hashFunc ∧ ∃ value : List UInt8, value.length = dataSize ∧
        value.take (min e.value.length dataSize) = e.value.take (min e.value.length dataSize) ∧
        s'.elems = ⟨e.iter, e.key, value⟩ :: s.elems.filter fun x => x.key ≠ e.key := by
  obtain ⟨ts, hts, -⟩ := h.nodes.arena
  have hstay' : dataSize < e.value.length ∨ e.value.length < dataSize ∧
      roomBehind (Tiling.blocks true 0 ts) e.block
        (vlHashTableHeaderSize + e.key.length + dataSize + 8) :=
    hstay.imp id fun hgrow => ⟨hgrow.1, h.room_behind he hts.free hgrow.2⟩
  rw [tableStep]
  refine (h.insert_resize (h.perm_key he) hroom hne hfit hts.free hstay').bind
    fun r ⟨hiter, hhash, value, hvalue, htake, hinv⟩ => ?_
  have hread := hinv.value_eq
  rw [hvalue] at hread
  refine returns_ok ⟨?_, hhash, value, hvalue, htake, ?_⟩
  · dsimp only
    rwa [hiter, hread]
  · dsimp only
    rw [hiter, hread]

/-- Writing a value. -/
theorem tableStep_write (h : s.table.Inv s.elems) (he : e ∈ s.elems)
    (hlen : value.length = e.value.length) :
    Returns (tableStep s (.write e.iter value)) fun s' => s'.table.Inv s'.elems ∧
      s'.table.hashFunc = s.table.hashFunc ∧ s'.table.SameSpace s.table ∧
      s'.elems.Perm (⟨e.iter, e.key, value⟩ :: s.elems.filter fun x => x.iter ≠ e.iter) := by
  have hperm := h.perm_iter he
  rw [tableStep, h.sampleValue_eq he, ok_bind]
  have hmap := hperm.map fun x => if x.iter = e.iter then { x with value } else x
  rw [List.map_cons, if_pos rfl] at hmap
  have hrest : ((s.elems.filter fun x => x.iter ≠ e.iter).map fun x =>
      if x.iter = e.iter then { x with value } else x) =
        s.elems.filter fun x => x.iter ≠ e.iter := by
    refine (List.map_congr_left fun x hx => ?_).trans (List.map_id _)
    have hne : x.iter ≠ e.iter := by simpa using (List.mem_filter.mp hx).2
    rw [if_neg hne, id]
  rw [hrest] at hmap
  exact ((h.perm hperm).write_value hlen).bind fun t ⟨hinv, hhash, hspace⟩ =>
    returns_ok ⟨hinv.perm hmap.symm, hhash, hspace, hmap⟩

/-- Removing an element by its iterator. -/
theorem tableStep_removeIter (h : s.table.Inv s.elems) (he : e ∈ s.elems) :
    Returns (tableStep s (.removeIter e.iter)) fun s' => s'.table.Inv s'.elems ∧
      s'.table.hashFunc = s.table.hashFunc ∧
      s'.table.data.data.size = s.table.data.data.size ∧
      s'.elems = s.elems.filter fun x => x.iter ≠ e.iter := by
  rw [tableStep]
  exact (h.removeIter_spec (h.perm_iter he)).bind fun t ⟨hinv, hhash, hsize⟩ =>
    returns_ok ⟨hinv, hhash, hsize, rfl⟩

/-- Removing an element by its key. -/
theorem tableStep_removeKey (h : s.table.Inv s.elems) (he : e ∈ s.elems) :
    Returns (tableStep s (.removeKey e.key)) fun s' => s'.table.Inv s'.elems ∧
      s'.table.hashFunc = s.table.hashFunc ∧
      s'.table.data.data.size = s.table.data.data.size ∧
      s'.elems = s.elems.filter fun x => x.key ≠ e.key := by
  rw [tableStep]
  exact (h.removeKey_spec (h.perm_key he)).bind fun t ⟨hinv, hhash, hsize⟩ =>
    returns_ok ⟨hinv, hhash, hsize, rfl⟩

theorem tableStep_clear (h : s.table.Inv s.elems) :
    Returns (tableStep s .clear) fun s' => s'.table.Inv s'.elems ∧
      s'.table.hashFunc = s.table.hashFunc ∧
      s'.table.data.data.size = s.table.data.data.size ∧ s'.elems = [] := by
  rw [tableStep]
  exact h.clear_spec.bind fun t ⟨hinv, hhash, hsize⟩ => returns_ok ⟨hinv, hhash, hsize, rfl⟩

/-- Reserving, when every key has its bucket among the first eighth. -/
theorem tableStep_reserve (h : s.table.Inv s.elems) {buckets heapSize : ℕ}
    (hs : s.Sound (.reserve buckets heapSize)) :
    Serves (tableStep s (.reserve buckets heapSize)) fun s' => s'.table.Inv s'.elems ∧
      s'.table.hashFunc = s.table.hashFunc := by
  obtain ⟨hlt, hlow⟩ := hs
  rw [tableStep]
  exact (h.reserve_spec buckets heapSize).bind fun t ht => serves_ok
    ⟨ht.inv h (h.reservedBuckets_pow buckets) (length_le_reservedBuckets _ buckets) hlt hlow,
      ht.hashFunc_eq⟩

/-- **One operation**: the table has exactly the elements that the client knows. -/
theorem tableStep_spec {o : VlHashTableOp} (h : s.table.Inv s.elems) (hg : tableMachine.guard s o)
    (hs : s.Sound o) : Serves (tableStep s o) fun s' => s'.table.Inv s'.elems ∧
      s'.table.hashFunc = s.table.hashFunc := by
  cases o with
  | insert key dataSize =>
    obtain ⟨hroom, hkey, hpresent⟩ := hs
    by_cases hold : ∃ e ∈ s.elems, e.key = key
    · obtain ⟨e, he, rfl⟩ := hold
      obtain ⟨hdata, rfl | ⟨hne, hstay⟩⟩ := hpresent e he rfl
      · exact ((tableStep_same h hroom hg he hdata).mono fun s' hs' => ⟨hs'.1, hs'.2.1⟩).serves
      · exact ((tableStep_resize h hroom hg he hne hstay).mono
          fun s' hs' => ⟨hs'.1, hs'.2.1⟩).serves
    · have hfresh : ∀ e ∈ s.elems, e.key ≠ key := fun e he heq => hold ⟨e, he, heq⟩
      exact ((tableStep_fresh h hroom hg hkey hfresh).mono fun s' hs' => ⟨hs'.1, hs'.2.1⟩).serves
  | write iter value =>
    obtain ⟨e, he, rfl, hlen⟩ := hg
    exact ((tableStep_write h he hlen).mono fun s' hs' => ⟨hs'.1, hs'.2.1⟩).serves
  | removeIter iter =>
    obtain ⟨e, he, rfl⟩ := hg
    exact ((tableStep_removeIter h he).mono fun s' hs' => ⟨hs'.1, hs'.2.1⟩).serves
  | removeKey key =>
    obtain ⟨e, he, rfl⟩ := hg
    exact ((tableStep_removeKey h he).mono fun s' hs' => ⟨hs'.1, hs'.2.1⟩).serves
  | clear => exact ((tableStep_clear h).mono fun s' hs' => ⟨hs'.1, hs'.2.1⟩).serves
  | reserve buckets heapSize => exact tableStep_reserve h hs

/-- **Every run** of operations that can be served keeps the invariant. -/
theorem tableRun_inv {os : List VlHashTableOp} (h : s.table.Inv s.elems)
    (hrun : (tableMachine.restrict VlHashTableState.Sound).Run s os s') : s'.table.Inv s'.elems :=
  hrun.invariant (I := fun s => s.table.Inv s.elems) (fun _ _ _ hs hg hop =>
    have hg : tableMachine.guard _ _ ∧ VlHashTableState.Sound _ _ := hg
    ((tableStep_spec hs hg.1 hg.2).of_ok hop).1) h

end Steps

/-- The state after one insertion into an empty table. -/
theorem exists_run_insert (hashFunc : List UInt8 → UInt64) (key : List UInt8) (dataSize : ℕ)
    {p : VlHashTableState → Bool} (hkey : key.length < 2 ^ 16)
    (hfit : vlHashTableHeaderSize + key.length + dataSize + 8 < 2 ^ 64)
    (hexec : ((vlHashTableInit (fun _ => 0) hashFunc).toOption.any fun table =>
      (tableStep ⟨table, []⟩ (.insert key dataSize)).toOption.any p) = true) :
    ∃ table s, vlHashTableInit (fun _ => 0) hashFunc = .ok table ∧
      (tableMachine.restrict VlHashTableState.SameSize).Run ⟨table, []⟩ [.insert key dataSize] s ∧
        s.table.Inv s.elems ∧ p s = true := by
  obtain ⟨table, hinit, hexec⟩ := (Option.any_eq_true _ _).mp hexec
  obtain ⟨s, hstep, htest⟩ := (Option.any_eq_true _ _).mp hexec
  have hinit := eq_ok_of_toOption hinit
  have hstep := eq_ok_of_toOption hstep
  have hguard : tableMachine.guard ⟨table, []⟩ (.insert key dataSize) := hfit
  have hsound : VlHashTableState.Sound ⟨table, []⟩ (.insert key dataSize) :=
    ⟨by norm_num, hkey, fun e he => (by cases he)⟩
  have hinv := ((vlHashTableInit_spec _ _).of_ok hinit).1
  have hs := ((tableStep_spec hinv hguard hsound).of_ok hstep).1
  exact ⟨table, s, hinit, .cons ⟨hguard, fun e he => (by cases he)⟩ hstep (.nil s), hs, htest⟩

/-! ### The walk is complete -/

/-- **The walk over the table** returns, and passes the iterator of every element exactly once. -/
def VlHashTableState.WalkComplete (s : VlHashTableState) : Prop :=
  Returns (vlHashTableForeach s.table s.table.totalElements) fun iters =>
    iters.Perm (s.elems.map VlHashElement.iter) ∧ iters.Nodup

end VeritableLasagna
