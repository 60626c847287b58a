import VeritableLasagna.HashTable.Runs

/-!
# Removing an absent key

`vlHashTableRemoveKey` hands the result of the search to `vlHashTableRemoveIter`, also when that is
`VL_HASHTABLE_ITER_INVALID`. The iterator zero is taken for an element: the eight bytes at offset 8 of the
arena are its hash. When the bucket of that number is empty, the call returns without a change; otherwise
it cuts a chain and frees offset zero, which is no handle (`vlHashTableRemoveKey_absent_iff`).
-/

namespace VeritableLasagna

open VlHashTable

section Absent

variable {table table' : VlHashTable} {elems : List VlHashElement} {key : List UInt8} {p : ℕ}

/-- Offset zero cannot be freed. -/
theorem vlHashTableRelease_zero : vlHashTableRelease table 0 = .error .outOfBounds := by
  rw [vlHashTableRelease, vlArenaMemFree, vlArenaMemHeader, if_neg (by norm_num), error_bind,
    error_bind]

/-- What `vlHashTableRemoveIter` does with the iterator zero, when the bucket it looks at is not
empty. -/
theorem vlHashTableRemoveIter_zero_ne_ok {n b : ℕ} (hhash : table.keyHash 0 = .ok n)
    (hindex : vlHashTableIndex n table.tableSize = .ok b) (hbucket : table.bucket b = .ok p)
    (hp : p ≠ 0) : vlHashTableRemoveIter table 0 ≠ .ok table' := by
  intro hop
  rw [vlHashTableRemoveIter, hhash, ok_bind, hindex, ok_bind, hbucket, ok_bind, if_neg hp,
    if_neg hp] at hop
  obtain ⟨curNext, -, hop⟩ := exists_of_bind_eq_ok hop
  dsimp only at hop
  split_ifs at hop
  · obtain ⟨t, -, hop⟩ := exists_of_bind_eq_ok hop
    cases vlHashTableRelease_zero.symm.trans hop
  · obtain ⟨t, -, hop⟩ := exists_of_bind_eq_ok hop
    cases vlHashTableRelease_zero.symm.trans hop

/-- **An absent key** is removed without a change exactly when the bucket of the number at offset 8 of
the arena is empty. -/
theorem VlHashTable.Inv.removeKey_absent_iff (h : table.Inv elems)
    (habsent : ∀ e ∈ elems, e.key ≠ key) :
    vlHashTableRemoveKey table key = .ok table ↔
      table.table[table.data.data.number 8 8 % table.table.length]? = some 0 := by
  have hspace := h.space
  rw [vlHashTableHeaderSize] at hspace
  have hhash : table.keyHash 0 = .ok (table.data.data.number 8 8) := by
    rw [keyHash, Nat.zero_add, VlMemory.loadNumber_eq (by omega)]
  have hindex : vlHashTableIndex (table.data.data.number 8 8) table.tableSize =
      .ok (table.data.data.number 8 8 % table.table.length) := by
    rw [tableSize, Nat.mod_eq_of_lt h.size_lt, vlHashTableIndex, if_neg h.nonempty.ne']
  obtain ⟨p, hget⟩ : ∃ p, table.table[table.data.data.number 8 8 % table.table.length]? = some p :=
    ⟨_, List.getElem?_eq_getElem (Nat.mod_lt _ h.nonempty)⟩
  rw [vlHashTableRemoveKey, h.find_none habsent, ok_bind, hget]
  constructor
  · intro hop
    by_contra hne
    exact vlHashTableRemoveIter_zero_ne_ok hhash hindex (bucket_eq hget)
      (fun hzero => hne (congrArg some hzero)) hop
  · intro hzero
    rw [vlHashTableRemoveIter, hhash, ok_bind, hindex, ok_bind, bucket_eq hget, ok_bind,
      if_pos (Option.some_injective _ hzero)]
    rfl

end Absent

/-- **When removing an absent key changes nothing**, in every state that is reached by operations that
can be served. -/
theorem vlHashTableRemoveKey_absent_iff (contents : ByteMem) (hashFunc : List UInt8 → UInt64) :
    Returns (vlHashTableInit contents hashFunc) fun table => ∀ os s,
      (tableMachine.restrict VlHashTableState.Sound).Run ⟨table, []⟩ os s →
        ∀ key, (∀ e ∈ s.elems, e.key ≠ key) →
          (vlHashTableRemoveKey s.table key = .ok s.table ↔
            s.table.table[s.table.data.data.number 8 8 % s.table.table.length]? = some 0) :=
  (vlHashTableInit_spec contents hashFunc).mono fun _ ht _ _ hrun _ habsent =>
    (tableRun_inv ht.1 hrun).removeKey_absent_iff habsent

/-- A table with one key, in whose arena zeros are at offset 8, and another key with the same hash. -/
theorem not_removeKey_absent : ∃ table os s, vlHashTableInit (fun _ => 0) (fun _ => 0) = .ok table ∧
    (tableMachine.restrict VlHashTableState.SameSize).Run ⟨table, []⟩ os s ∧
      (∀ e ∈ s.elems, e.key ≠ [2]) ∧ vlHashTableRemoveKey s.table [2] ≠ .ok s.table := by
  obtain ⟨table, s, hinit, hrun, hinv, htest⟩ := exists_run_insert (fun _ => 0) [1] 0
    (p := fun s => s.elems.map VlHashElement.key == [[1]] &&
      s.table.table[s.table.data.data.number 8 8 % s.table.table.length]? != some 0)
    (by decide) (by rw [vlHashTableHeaderSize]; decide) (by decide +kernel)
  obtain ⟨hkeys, hbucket⟩ := Bool.and_eq_true _ _ ▸ htest
  have habsent : ∀ e ∈ s.elems, e.key ≠ [2] := by
    intro e he heq
    have hmem := List.mem_map_of_mem (f := VlHashElement.key) he
    rw [eq_of_beq hkeys, heq] at hmem
    exact absurd hmem (by decide)
  refine ⟨table, _, s, hinit, hrun, habsent, fun hop => ?_⟩
  exact bne_iff_ne.mp hbucket ((hinv.removeKey_absent_iff habsent).mp hop)

end VeritableLasagna
