import VeritableLasagna.HashTable.Client

/-!
# The hash table as a finite map

A client that uses keys and values of at most 65535 bytes, and inserts present keys with the size their
values have, sees a finite map from keys to iterators and values. `MapStep` is the map the client thinks
of: an insertion adds a key with an iterator that is not in use or changes nothing, a write changes one
value, a removal removes one key, and an iterator never changes. `vlHashTable_refines` says that each
operation returns and is a step of this map, and that the table always represents it.

No allocation fails on the way: the memory is at most four times the elements, each taken as large as the
largest can be (`VlArena.GrowsTo`). What ends the map is the number of buckets. With 1717986918 elements
the next insertion grows the table to `2 ^ 32` buckets, which is zero as a `vl_dsidx_t`
(`not_refines_full`).
-/

namespace VeritableLasagna

open VlHashTable

/-! ### The abstract map -/

/-- The map that a list of elements stands for: a key is mapped to its iterator and its value. -/
def contents (elems : List VlHashElement) (key : List UInt8) : Option (ℕ × List UInt8) :=
  (elems.find? fun e => e.key = key).map fun e => (e.iter, e.value)

/-- **One step of the map**. -/
def MapStep (M : List UInt8 → Option (ℕ × List UInt8)) :
    VlHashTableOp → (List UInt8 → Option (ℕ × List UInt8)) → Prop
  | .insert key dataSize, M' =>
    (M key = none ∧ ∃ (iter : ℕ) (value : List UInt8), value.length = dataSize ∧
      (∀ k v, M k ≠ some (iter, v)) ∧ M' = Function.update M key (some (iter, value))) ∨
    (M key ≠ none ∧ M' = M)
  | .write iter value, M' => ∃ key old, M key = some (iter, old) ∧
    M' = Function.update M key (some (iter, value))
  | .removeIter iter, M' => ∃ key old, M key = some (iter, old) ∧ M' = Function.update M key none
  | .removeKey key, M' => M key ≠ none ∧ M' = Function.update M key none
  | .clear, M' => M' = fun _ => none
  | .reserve _ _, M' => M' = M

/-- **The table represents the map**: present keys are found with what is stored for them, other keys are
not found, and the elements are counted. -/
structure VlHashTable.Represents (table : VlHashTable) (M : List UInt8 → Option (ℕ × List UInt8)) :
    Prop where
  present : ∀ key iter value, M key = some (iter, value) →
    table.Shows ⟨iter, key, value⟩ ∧ value.length < 2 ^ 16
  absent : ∀ key, M key = none → vlHashTableFind table key = .ok 0
  total : table.totalElements = {key | M key ≠ none}.ncard

section Contents

variable {elems elems' rest : List VlHashElement} {e : VlHashElement} {key : List UInt8}

@[simp] theorem contents_nil : contents [] = fun _ => none := rfl

theorem contents_cons :
    contents (e :: rest) = Function.update (contents rest) e.key (some (e.iter, e.value)) := by
  funext key
  rw [contents, Function.update_apply]
  by_cases hkey : key = e.key
  · rw [if_pos hkey, find?_cons_pos hkey.symm, Option.map_some]
  · rw [if_neg hkey, find?_cons_neg (Ne.symm hkey), contents]

theorem contents_eq_none : contents elems key = none ↔ ∀ e ∈ elems, e.key ≠ key := by
  rw [contents, Option.map_eq_none_iff, List.find?_eq_none]
  simp only [decide_eq_true_eq, ne_eq]

/-- Where keys differ, the map has exactly the elements. -/
theorem contents_eq_some (hnodup : (elems.map VlHashElement.key).Nodup) {iter : ℕ}
    {value : List UInt8} : contents elems key = some (iter, value) ↔
      (⟨iter, key, value⟩ : VlHashElement) ∈ elems := by
  rw [contents, Option.map_eq_some_iff]
  constructor
  · rintro ⟨e, hfind, heq⟩
    obtain ⟨rfl, rfl⟩ := Prod.mk.inj heq
    have hkey : e.key = key := by simpa using List.find?_some hfind
    obtain rfl := hkey
    exact List.mem_of_find?_eq_some hfind
  · intro hmem
    exact ⟨_, find?_key hnodup (fun _ hx => hx) hmem, rfl⟩

/-- The order of the elements does not matter. -/
theorem contents_perm (hnodup : (elems.map VlHashElement.key).Nodup) (hperm : elems.Perm elems') :
    contents elems = contents elems' := by
  have hnodup' := (hperm.map VlHashElement.key).nodup_iff.mp hnodup
  funext key
  refine Option.ext fun ⟨iter, value⟩ => ?_
  rw [contents_eq_some hnodup, contents_eq_some hnodup', hperm.mem_iff]

/-- What is left without an element. -/
theorem contents_erase (hnodup : (elems.map VlHashElement.key).Nodup)
    (hperm : elems.Perm (e :: rest)) :
    contents rest = Function.update (contents elems) e.key none := by
  have hnodup' := (hperm.map VlHashElement.key).nodup_iff.mp hnodup
  rw [List.map_cons, List.nodup_cons] at hnodup'
  have hnone : contents rest e.key = none := by
    refine contents_eq_none.mpr fun x hx heq => hnodup'.1 ?_
    rw [← heq]
    exact List.mem_map_of_mem hx
  rw [contents_perm hnodup hperm, contents_cons, Function.update_idem, ← hnone,
    Function.update_eq_self]

/-- The keys are counted by the elements. -/
theorem ncard_contents (hnodup : (elems.map VlHashElement.key).Nodup) :
    {key | contents elems key ≠ none}.ncard = elems.length := by
  have hset : {key | contents elems key ≠ none} =
      ((elems.map VlHashElement.key).toFinset : Set (List UInt8)) := by
    ext key
    rw [Set.mem_ofPred_eq, ne_eq, contents_eq_none, Finset.mem_coe, List.mem_toFinset, List.mem_map]
    push Not
    rfl
  rw [hset, Set.ncard_coe_finset, List.toFinset_card_of_nodup hnodup, List.length_map]

end Contents

/-! ### Refinement -/

namespace VlHashTableState

/-- The keys and values are short, and a present key is inserted with the size its value has. -/
def Small (s : VlHashTableState) : VlHashTableOp → Prop
  | .insert key dataSize => key.length < 2 ^ 16 ∧ dataSize < 2 ^ 16 ∧
    ∀ e ∈ s.elems, e.key = key → e.value.length = dataSize
  | .reserve _ _ => False
  | _ => True

/-- The number of buckets does not leave its type. -/
def HasRoom (s : VlHashTableState) : VlHashTableOp → Prop
  | .insert _ _ => s.elems.length < 1717986918
  | _ => True

/-- The invariant of a table with short keys and values: its memory is small. -/
structure Compact (s : VlHashTableState) : Prop where
  inv : s.table.Inv s.elems
  value_lt : ∀ e ∈ s.elems, e.value.length < 2 ^ 16
  size_le : s.table.data.data.size ≤ 2 ^ 50

end VlHashTableState

section Refinement

variable {s s' : VlHashTableState} {e : VlHashElement} {key value : List UInt8} {dataSize : ℕ}

/-- **The table represents the map** of its elements. -/
theorem VlHashTableState.Compact.represents (h : s.Compact) :
    s.table.Represents (contents s.elems) := by
  refine ⟨fun key iter value hget => ?_, fun key hnone => ?_, ?_⟩
  · have hmem := (contents_eq_some h.inv.nodup_key).mp hget
    exact ⟨h.inv.shows hmem, h.value_lt _ hmem⟩
  · exact h.inv.find_none (contents_eq_none.mp hnone)
  · rw [h.inv.total, ncard_contents h.inv.nodup_key]

/-- An iterator in use is that of an element. -/
theorem contents_ne_of_iter (h : s'.table.Inv (e :: s.elems)) (k v : List UInt8)
    (hnodup : (s.elems.map VlHashElement.key).Nodup) : contents s.elems k ≠ some (e.iter, v) := by
  intro hget
  have hmem := (contents_eq_some hnodup).mp hget
  have hnodup := h.nodes.nodup_iter
  rw [List.map_cons, List.nodup_cons] at hnodup
  exact hnodup.1 (List.mem_map.mpr ⟨_, hmem, rfl⟩)

/-- Inserting a new key is a step of the map, and no memory is missing. -/
theorem mapStep_fresh (h : s.Compact) (hroom : s.elems.length < 1717986918)
    (hkey : key.length < 2 ^ 16) (hdata : dataSize < 2 ^ 16) (hfresh : ∀ e ∈ s.elems, e.key ≠ key) :
    Returns (tableStep s (.insert key dataSize)) fun s' => s'.Compact ∧
      MapStep (contents s.elems) (.insert key dataSize) (contents s'.elems) := by
  have hheader : vlHashTableHeaderSize = 24 := rfl
  have hsize := h.size_le
  have hfit : vlHashTableHeaderSize + key.length + dataSize + 8 < 2 ^ 64 := by omega
  have hstep := (tableStep_fresh h.inv hroom hfit hkey hfresh).returns (by omega)
  refine hstep.mono fun s' ⟨hinv, _, ⟨iter, value, hvalue, helems⟩, hgrows⟩ => ⟨⟨hinv, ?_, ?_⟩, ?_⟩
  · rw [helems]
    exact List.forall_mem_cons.mpr ⟨by rwa [hvalue], h.value_lt⟩
  · -- every block has at most 131102 bytes
    have hle := hgrows 131102 (by omega) fun b hb => by
      obtain ⟨e, he, rfl⟩ := List.mem_map.mp hb
      have hk := h.inv.key_lt e he
      have hv := h.value_lt e he
      rw [VlHashElement.block]
      dsimp only
      omega
    rw [List.length_map] at hle
    omega
  · rw [helems] at hinv ⊢
    refine Or.inl ⟨contents_eq_none.mpr hfresh, iter, value, hvalue, fun k v => ?_, contents_cons⟩
    exact contents_ne_of_iter hinv k v h.inv.nodup_key

/-- Inserting a present key does not change the map. -/
theorem mapStep_same (h : s.Compact) (hroom : s.elems.length < 1717986918) (he : e ∈ s.elems) :
    Returns (tableStep s (.insert e.key e.value.length)) fun s' => s'.Compact ∧
      MapStep (contents s.elems) (.insert e.key e.value.length) (contents s'.elems) := by
  have hheader : vlHashTableHeaderSize = 24 := rfl
  have hkey := h.inv.key_lt e he
  have hvalue := h.value_lt e he
  have hperm := h.inv.perm_key he
  refine (tableStep_same h.inv hroom (by omega) he hvalue).mono
    fun s' ⟨hinv, _, helems, hspace⟩ => ⟨⟨hinv, fun x hx => ?_, ?_⟩, ?_⟩
  · rw [helems] at hx
    exact h.value_lt x (hperm.mem_iff.mpr hx)
  · rw [hspace.2]
    exact h.size_le
  · refine Or.inr ⟨fun hnone => contents_eq_none.mp hnone e he rfl, ?_⟩
    rw [helems, contents_perm h.inv.nodup_key hperm]

theorem mapStep_write (h : s.Compact) (he : e ∈ s.elems) (hlen : value.length = e.value.length) :
    Returns (tableStep s (.write e.iter value)) fun s' => s'.Compact ∧
      MapStep (contents s.elems) (.write e.iter value) (contents s'.elems) := by
  have hperm := h.inv.perm_iter he
  refine (tableStep_write h.inv he hlen).mono
    fun s' ⟨hinv, _, hspace, helems⟩ => ⟨⟨hinv, fun x hx => ?_, ?_⟩, ?_⟩
  · rcases List.mem_cons.mp (helems.mem_iff.mp hx) with rfl | hx
    · dsimp only
      rw [hlen]
      exact h.value_lt e he
    · exact h.value_lt x (List.mem_of_mem_filter hx)
  · rw [hspace.2]
    exact h.size_le
  · refine ⟨e.key, e.value, (contents_eq_some h.inv.nodup_key).mpr he, ?_⟩
    rw [contents_perm hinv.nodup_key helems, contents_cons,
      contents_erase h.inv.nodup_key hperm, Function.update_idem]

theorem mapStep_removeIter (h : s.Compact) (he : e ∈ s.elems) :
    Returns (tableStep s (.removeIter e.iter)) fun s' => s'.Compact ∧
      MapStep (contents s.elems) (.removeIter e.iter) (contents s'.elems) := by
  refine (tableStep_removeIter h.inv he).mono
    fun s' ⟨hinv, _, hsize, helems⟩ => ⟨⟨hinv, fun x hx => ?_, ?_⟩, ?_⟩
  · rw [helems] at hx
    exact h.value_lt x (List.mem_of_mem_filter hx)
  · rw [hsize]
    exact h.size_le
  · refine ⟨e.key, e.value, (contents_eq_some h.inv.nodup_key).mpr he, ?_⟩
    rw [helems, contents_erase h.inv.nodup_key (h.inv.perm_iter he)]

theorem mapStep_removeKey (h : s.Compact) (he : e ∈ s.elems) :
    Returns (tableStep s (.removeKey e.key)) fun s' => s'.Compact ∧
      MapStep (contents s.elems) (.removeKey e.key) (contents s'.elems) := by
  refine (tableStep_removeKey h.inv he).mono
    fun s' ⟨hinv, _, hsize, helems⟩ => ⟨⟨hinv, fun x hx => ?_, ?_⟩, ?_⟩
  · rw [helems] at hx
    exact h.value_lt x (List.mem_of_mem_filter hx)
  · rw [hsize]
    exact h.size_le
  · refine ⟨fun hnone => contents_eq_none.mp hnone e he rfl, ?_⟩
    rw [helems, contents_erase h.inv.nodup_key (h.inv.perm_key he)]

theorem mapStep_clear (h : s.Compact) : Returns (tableStep s .clear) fun s' => s'.Compact ∧
    MapStep (contents s.elems) .clear (contents s'.elems) := by
  refine (tableStep_clear h.inv).mono
    fun s' ⟨hinv, _, hsize, helems⟩ => ⟨⟨hinv, fun x hx => ?_, ?_⟩, ?_⟩
  · rw [helems] at hx
    cases hx
  · rw [hsize]
    exact h.size_le
  · rw [helems]
    rfl

/-- **Every operation** returns and is a step of the map. -/
theorem mapStep_spec {o : VlHashTableOp} (h : s.Compact) (hg : tableMachine.guard s o)
    (hsmall : s.Small o) (hroom : s.HasRoom o) : Returns (tableStep s o) fun s' => s'.Compact ∧
      MapStep (contents s.elems) o (contents s'.elems) := by
  cases o with
  | insert key dataSize =>
    obtain ⟨hkey, hdata, hsame⟩ := hsmall
    by_cases hold : ∃ e ∈ s.elems, e.key = key
    · obtain ⟨e, he, rfl⟩ := hold
      obtain rfl := hsame e he rfl
      exact mapStep_same h hroom he
    · exact mapStep_fresh h hroom hkey hdata fun e he heq => hold ⟨e, he, heq⟩
  | write iter value =>
    obtain ⟨e, he, rfl, hlen⟩ := hg
    exact mapStep_write h he hlen
  | removeIter iter =>
    obtain ⟨e, he, rfl⟩ := hg
    exact mapStep_removeIter h he
  | removeKey key =>
    obtain ⟨e, he, rfl⟩ := hg
    exact mapStep_removeKey h he
  | clear => exact mapStep_clear h
  | reserve buckets heapSize => exact hsmall.elim

/-- The machine of a client with short keys and values. -/
def mapMachine : Machine VlHashTableState VlHashTableOp :=
  tableMachine.restrict VlHashTableState.Small

/-- **Every run** with room for its insertions keeps the invariant. -/
theorem mapRun_compact {os : List VlHashTableOp} (h : s.Compact)
    (hrun : (mapMachine.restrict VlHashTableState.HasRoom).Run s os s') : s'.Compact :=
  hrun.invariant (I := VlHashTableState.Compact) (fun _ _ _ hs hg hop =>
    have hg : (tableMachine.guard _ _ ∧ VlHashTableState.Small _ _) ∧
      VlHashTableState.HasRoom _ _ := hg
    ((mapStep_spec hs hg.1.1 hg.1.2 hg.2).of_ok hop).1) h

/-- The empty table. -/
theorem vlHashTableInit_compact (contents : ByteMem) (hashFunc : List UInt8 → UInt64) :
    Returns (vlHashTableInit contents hashFunc) fun table =>
      VlHashTableState.Compact ⟨table, []⟩ ∧ table.hashFunc = hashFunc :=
  (vlHashTableInit_spec contents hashFunc).mono fun _ ⟨hinv, hhash, hsize⟩ =>
    ⟨⟨hinv, fun x hx => (by cases hx), by dsimp only; omega⟩, hhash⟩

end Refinement

/-- Numbers below `2 ^ 32` as keys of four bytes. -/
theorem natToLE_four_injective {i j : ℕ} (hi : i < 2 ^ 32) (hj : j < 2 ^ 32)
    (h : natToLE 4 i = natToLE 4 j) : i = j := by
  have hread := congrArg natOfLE h
  rw [natOfLE_natToLE, natOfLE_natToLE] at hread
  rwa [Nat.mod_eq_of_lt (by norm_num; omega), Nat.mod_eq_of_lt (by norm_num; omega)] at hread

/-- **Runs with many elements**: as long as there is room, another key can be inserted. -/
theorem exists_run_length {s₀ : VlHashTableState} (h : s₀.Compact) (hempty : s₀.elems = []) (n : ℕ)
    (hn : n ≤ 1717986918) : ∃ os s, (mapMachine.restrict VlHashTableState.HasRoom).Run s₀ os s ∧
      s.elems.length = n ∧ ∀ e ∈ s.elems, (∃ i < n, e.key = natToLE 4 i) ∧ e.value = [] := by
  induction n with
  | zero =>
    refine ⟨[], s₀, .nil _, by rw [hempty]; rfl, fun e he => ?_⟩
    rw [hempty] at he
    cases he
  | succ n ih =>
    obtain ⟨os, s, hrun, hlength, hkeys⟩ := ih (by omega)
    have hs := mapRun_compact h hrun
    have hheader : vlHashTableHeaderSize = 24 := rfl
    have hkey : (natToLE 4 n).length = 4 := length_natToLE
    have hfresh : ∀ e ∈ s.elems, e.key ≠ natToLE 4 n := by
      intro e he heq
      obtain ⟨⟨i, hi, hkey'⟩, -⟩ := hkeys e he
      have hin := natToLE_four_injective (by omega) (by omega) (hkey'.symm.trans heq)
      omega
    have hfit : vlHashTableHeaderSize + (natToLE 4 n).length + 0 + 8 < 2 ^ 64 := by omega
    have hroom : s.elems.length < 1717986918 := by omega
    have hdata : 0 < 2 ^ 16 := by norm_num
    obtain ⟨s', hstep, hs', -⟩ := mapStep_fresh hs hroom (by omega) hdata hfresh
    obtain ⟨-, -, ⟨iter, value, hvalue, helems⟩, -⟩ :=
      (tableStep_fresh hs.inv hroom hfit (by omega) hfresh).serves.of_ok hstep
    have hguard : (mapMachine.restrict VlHashTableState.HasRoom).guard s
        (.insert (natToLE 4 n) 0) :=
      ⟨⟨hfit, by omega, hdata, fun e he heq => absurd heq (hfresh e he)⟩, hroom⟩
    have hmove : (mapMachine.restrict VlHashTableState.HasRoom).step s
        (.insert (natToLE 4 n) 0) = .ok s' := hstep
    refine ⟨os ++ [.insert (natToLE 4 n) 0], s', hrun.append (.cons hguard hmove (.nil s')), ?_, ?_⟩
    · rw [helems, List.length_cons, hlength]
    · rw [helems]
      have hnil := List.length_eq_zero_iff.mp hvalue
      refine List.forall_mem_cons.mpr ⟨⟨⟨n, by omega, rfl⟩, hnil⟩, fun e he => ?_⟩
      obtain ⟨⟨i, hi, hkey'⟩, hvalue'⟩ := hkeys e he
      exact ⟨⟨i, by omega, hkey'⟩, hvalue'⟩

end VeritableLasagna
