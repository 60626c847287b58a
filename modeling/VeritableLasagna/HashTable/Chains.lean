import VeritableLasagna.HashTable.Nodes

/-!
# The chains of a hash table

`table.Inv elems` is the **table invariant**: the elements are stored in the arena, their keys are
different and short enough for their sizes to be stored, less than four fifths as many elements as
buckets are there, the arena has room for a header, and from every bucket a chain of links passes exactly
the elements whose keys belong to it. The order of a chain is not fixed: a new element goes to its end, and growth rebuilds all chains
in the order of the arena, newest first.

A search follows one chain. `vlHashTableFind` returns the iterator of the element with the key, and zero
if there is none (`VlHashTable.Inv.find_mem`, `VlHashTable.Inv.find_none`).
-/

namespace VeritableLasagna

variable {table table' : VlHashTable} {elems l l₁ l₂ : List VlHashElement} {e e' : VlHashElement}
  {key : List UInt8} {b p n rounds : ℕ}

namespace VlHashTable

/-- The bucket of a key among `size` buckets. -/
def slot (table : VlHashTable) (size : ℕ) (key : List UInt8) : ℕ := (table.hashFunc key).toNat % size

/-- The bucket of a key. -/
def index (table : VlHashTable) (key : List UInt8) : ℕ := table.slot table.table.length key

/-- **A bucket**: from the iterator `p` on, the chain passes the elements of bucket `b`, when there are
`size` buckets. -/
def Bucket (table : VlHashTable) (size : ℕ) (elems : List VlHashElement) (b p : ℕ) : Prop :=
  ∃ l : List VlHashElement, Chain table.link p (l.map VlHashElement.iter) ∧
    l.Perm (elems.filter fun e => table.slot size e.key = b)

/-- The **table invariant**. -/
structure Inv (table : VlHashTable) (elems : List VlHashElement) : Prop where
  nodes : table.Nodes elems
  key_lt : ∀ e ∈ elems, e.key.length < 2 ^ 16
  nodup_key : (elems.map VlHashElement.key).Nodup
  total : table.totalElements = elems.length
  load : 5 * elems.length < 4 * table.table.length
  size_pow : ∃ k, table.table.length = 2 ^ (k + 4)
  size_lt : table.table.length < 2 ^ 32
  space : vlHashTableHeaderSize ≤ table.data.data.size
  bucket : ∀ b p, table.table[b]? = some p → table.Bucket table.table.length elems b p

end VlHashTable

/-- The iterator of the last element, zero if there is none. -/
def lastIter (l : List VlHashElement) : ℕ := (l.getLast?.map VlHashElement.iter).getD 0

@[simp] theorem lastIter_nil : lastIter [] = 0 := rfl

@[simp] theorem lastIter_concat : lastIter (l ++ [e]) = e.iter := by simp [lastIter]

theorem lastIter_cons_cons : lastIter (e :: e' :: l) = lastIter (e' :: l) := by simp [lastIter]

theorem find?_cons_pos (h : e.key = key) : ((e :: l).find? fun x => x.key = key) = some e := by
  simp [h]

theorem find?_cons_neg (h : e.key ≠ key) :
    ((e :: l).find? fun x => x.key = key) = l.find? fun x => x.key = key := by
  simp [h]

/-- Where keys differ, the first element with a key is the only one. -/
theorem find?_key (hnodup : (elems.map VlHashElement.key).Nodup) (hl : ∀ x ∈ l, x ∈ elems)
    (he : e ∈ l) : (l.find? fun x => x.key = e.key) = some e := by
  cases hfind : l.find? fun x => x.key = e.key with
  | none =>
    have hne := List.find?_eq_none.mp hfind e he
    exact absurd (decide_eq_true rfl) hne
  | some x =>
    have hkey : x.key = e.key := by simpa using List.find?_some hfind
    have hx := List.mem_of_find?_eq_some hfind
    rw [List.inj_on_of_nodup_map hnodup (hl x hx) (hl e he) hkey]

namespace VlHashTable

theorem bucket_eq (hp : table.table[b]? = some p) : table.bucket b = .ok p := by
  rw [bucket, hp]

theorem setBucket_eq (hb : b < table.table.length) (p : ℕ) :
    table.setBucket b p = .ok { table with table := table.table.set b p } := if_pos hb

/-- Writing to a bucket what it holds. -/
theorem setBucket_self (hp : table.table[b]? = some p) : table.setBucket b p = .ok table := by
  obtain ⟨hb, rfl⟩ := List.getElem?_eq_some_iff.mp hp
  rw [setBucket_eq hb, List.set_getElem_self hb]

/-! ### Searching a chain -/

/-- The loop of `vlHashTableFind` passes a chain until it meets the key. -/
theorem findLoop_eq (h : table.Nodes elems) (hkeys : ∀ e ∈ elems, e.key.length < 2 ^ 16)
    (hl : ∀ e ∈ l, e ∈ elems) (hchain : Chain table.link p (l.map VlHashElement.iter))
    (hrounds : l.length ≤ rounds) : vlHashTableFindLoop table key rounds p =
      .ok (((l.find? fun e => e.key = key).map VlHashElement.iter).getD 0) := by
  induction l generalizing p rounds with
  | nil =>
    obtain rfl : p = 0 := hchain
    cases rounds with
    | zero => rfl
    | succ rounds => rfl
  | cons e l ih =>
    obtain ⟨rfl, hne, hrest⟩ := hchain
    obtain ⟨rounds, rfl⟩ := Nat.exists_eq_succ_of_ne_zero (Nat.ne_zero_of_lt hrounds)
    have he := hl e List.mem_cons_self
    rw [vlHashTableFindLoop, if_neg hne, h.keySize_eq he, ok_bind,
      h.binCompare_eq he (hkeys e he), ok_bind]
    by_cases hkey : e.key = key
    · rw [decide_eq_true hkey, if_pos rfl, find?_cons_pos hkey]
      rfl
    · rw [decide_eq_false hkey, if_neg Bool.false_ne_true, h.next_eq he, ok_bind,
        find?_cons_neg hkey]
      exact ih (fun x hx => hl x (List.mem_cons_of_mem _ hx)) hrest (Nat.le_of_succ_le_succ hrounds)

/-- The search of `vlHashTableInsert` stops at the key, or at the last element. -/
theorem insertLoop_eq (key : List UInt8) (h : table.Nodes elems)
    (hkeys : ∀ e ∈ elems, e.key.length < 2 ^ 16)
    (hl : ∀ e ∈ l, e ∈ elems) (hchain : Chain table.link p (l.map VlHashElement.iter))
    (hrounds : l.length ≤ rounds) :
    vlHashTableInsertLoop table (table.hashFunc key).toNat key rounds p =
      .ok (match l.find? fun e => e.key = key with
        | some e => (true, e.iter)
        | none => (false, lastIter l)) := by
  induction l generalizing p rounds with
  | nil =>
    obtain rfl : p = 0 := hchain
    cases rounds with
    | zero => rfl
    | succ rounds => rfl
  | cons e l ih =>
    obtain ⟨rfl, hne, hrest⟩ := hchain
    obtain ⟨rounds, rfl⟩ := Nat.exists_eq_succ_of_ne_zero (Nat.ne_zero_of_lt hrounds)
    have he := hl e List.mem_cons_self
    rw [vlHashTableInsertLoop, if_neg hne, h.matches_eq he (hkeys e he), ok_bind]
    by_cases hkey : e.key = key
    · rw [decide_eq_true hkey, if_pos rfl, find?_cons_pos hkey]
      rfl
    · rw [decide_eq_false hkey, if_neg Bool.false_ne_true, h.next_eq he, ok_bind,
        find?_cons_neg hkey]
      cases l with
      | nil =>
        have hzero : table.link e.iter = 0 := hrest
        rw [if_pos hzero]
        rfl
      | cons e' l =>
        have hnext : table.link e.iter ≠ 0 := fun hzero => hrest.2.1 (hrest.1.symm.trans hzero)
        rw [if_neg hnext, lastIter_cons_cons]
        exact ih (fun x hx => hl x (List.mem_cons_of_mem _ hx)) hrest
          (Nat.le_of_succ_le_succ hrounds)

namespace Inv

theorem nonempty (h : table.Inv elems) : 0 < table.table.length := by
  obtain ⟨k, hk⟩ := h.size_pow
  rw [hk]
  exact Nat.two_pow_pos _

theorem total_lt (h : table.Inv elems) : elems.length < 2 ^ 32 - 1 := by
  have hload := h.load
  have hlt := h.size_lt
  omega

theorem index_lt (h : table.Inv elems) (key : List UInt8) : table.index key < table.table.length :=
  Nat.mod_lt _ h.nonempty

/-- The remainder that the source computes. -/
theorem index_eq (h : table.Inv elems) (key : List UInt8) :
    vlHashTableIndex (table.hashFunc key).toNat table.tableSize = .ok (table.index key) := by
  rw [tableSize, Nat.mod_eq_of_lt h.size_lt, vlHashTableIndex, if_neg h.nonempty.ne', index,
    slot]

/-- Every bucket has its chain. -/
theorem exists_chain (h : table.Inv elems) (hb : b < table.table.length) :
    ∃ (p : ℕ) (l : List VlHashElement),
    table.table[b]? = some p ∧ table.bucket b = .ok p ∧
      Chain table.link p (l.map VlHashElement.iter) ∧
      l.Perm (elems.filter fun e => table.index e.key = b) := by
  have hget : table.table[b]? = some table.table[b] := List.getElem?_eq_getElem hb
  obtain ⟨l, hchain, hperm⟩ := h.bucket b _ hget
  exact ⟨_, l, hget, bucket_eq hget, hchain, hperm⟩

end Inv

/-- An element of a chain is one of the table. -/
theorem mem_of_perm_filter (hl : l.Perm (elems.filter fun e => table.slot n e.key = b)) :
    e ∈ l ↔ e ∈ elems ∧ table.slot n e.key = b := by
  rw [hl.mem_iff, List.mem_filter, decide_eq_true_eq]

theorem length_le_of_perm_filter (hl : l.Perm (elems.filter fun e => table.slot n e.key = b)) :
    l.length ≤ elems.length :=
  hl.length_eq.trans_le (List.length_filter_le _ _)

namespace Inv

/-- The search for a key looks through the chain of its bucket. -/
theorem find_eq (h : table.Inv elems) (key : List UInt8) : ∃ l : List VlHashElement,
    l.Perm (elems.filter fun e => table.index e.key = table.index key) ∧
      vlHashTableFind table key =
        .ok (((l.find? fun e => e.key = key).map VlHashElement.iter).getD 0) := by
  obtain ⟨p, l, -, hbucket, hchain, hl⟩ := h.exists_chain (h.index_lt key)
  refine ⟨l, hl, ?_⟩
  rw [vlHashTableFind, h.index_eq, ok_bind, hbucket, ok_bind]
  refine findLoop_eq h.nodes h.key_lt (fun e he => ((mem_of_perm_filter hl).mp he).1) hchain ?_
  rw [h.total]
  exact length_le_of_perm_filter hl

/-- **`vlHashTableFind`** finds every element by its key. -/
theorem find_mem (h : table.Inv elems) (he : e ∈ elems) :
    vlHashTableFind table e.key = .ok e.iter := by
  obtain ⟨l, hl, hfind⟩ := h.find_eq e.key
  rw [hfind, find?_key h.nodup_key (fun x hx => ((mem_of_perm_filter hl).mp hx).1)
    ((mem_of_perm_filter hl).mpr ⟨he, rfl⟩)]
  rfl

/-- **`vlHashTableFind`** finds nothing for a key that is not there. -/
theorem find_none (h : table.Inv elems) (hkey : ∀ e ∈ elems, e.key ≠ key) :
    vlHashTableFind table key = .ok 0 := by
  obtain ⟨l, hl, hfind⟩ := h.find_eq key
  have hnone : (l.find? fun e => e.key = key) = none := by
    refine List.find?_eq_none.mpr fun x hx heq => ?_
    exact hkey x ((mem_of_perm_filter hl).mp hx).1 (of_decide_eq_true heq)
  rw [hfind, hnone]
  rfl

/-! ### The walk -/

/-- **The walk passes every element once**, and nothing else. -/
theorem foreach (h : table.Inv elems) : Returns (vlHashTableForeach table table.totalElements)
    fun iters => iters.Perm (elems.map VlHashElement.iter) ∧ iters.Nodup := by
  obtain ⟨ts, hts, hperm⟩ := h.nodes.arena
  have hlength : (Tiling.blocks false 0 ts).length ≤ table.totalElements := by
    rw [h.total, ← hperm.length_eq, List.length_map]
  have hiters : (elems.map VlHashElement.block).map (fun b => b.offset + 8) =
      elems.map VlHashElement.iter := by
    rw [List.map_map]
    refine List.map_congr_left fun e he => ?_
    exact Nat.sub_add_cancel (h.nodes.handle e he)
  have hwalk := hperm.symm.map fun b => b.offset + 8
  rw [hiters] at hwalk
  exact ⟨_, vlHashTableForeach_spec hts hlength, hwalk, hwalk.nodup_iff.mpr h.nodes.nodup_iter⟩

end Inv

end VlHashTable

end VeritableLasagna
