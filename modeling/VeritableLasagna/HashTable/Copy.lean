import VeritableLasagna.HashTable.Map

/-!
# Copies between hash tables

`vlHashTableCopy` walks over one table and inserts every key it passes into another one, with its value.
What it does to the destination is a map override: the keys of the source get the values of the source,
a key that was there keeps its iterator, and other keys keep what they had (`Overrides`).

The condition is that of the insertions. The walk passes the elements of the source in some order, and
each insertion needs fewer than 1717986918 elements in the destination, also one of a key that is there
(`vlHashTableCopy_iff`).
-/

namespace VeritableLasagna

open VlHashTable

/-! ### Overriding a map -/

/-- **The map `M'` is `M` overridden** by the elements: their keys have their values, at the iterators
they had in `M`, and the other keys have what they had. -/
structure Overrides (M' M : List UInt8 → Option (ℕ × List UInt8)) (l : List VlHashElement) :
    Prop where
  copied : ∀ e ∈ l, ∃ iter, M' e.key = some (iter, e.value) ∧
    ∀ i v, M e.key = some (i, v) → iter = i
  others : ∀ key, (∀ e ∈ l, e.key ≠ key) → M' key = M key

section Overrides

variable {M M₁ M' : List UInt8 → Option (ℕ × List UInt8)} {l : List VlHashElement}
  {e : VlHashElement} {iter : ℕ}

theorem overrides_nil : Overrides M M [] :=
  ⟨fun e he => (by cases he), fun _ _ => rfl⟩

/-- One element, and then the others. -/
theorem Overrides.cons (h : Overrides M' M₁ l) (hfresh : ∀ x ∈ l, x.key ≠ e.key)
    (hM₁ : M₁ = Function.update M e.key (some (iter, e.value)))
    (hiter : ∀ i v, M e.key = some (i, v) → iter = i) : Overrides M' M (e :: l) := by
  refine ⟨List.forall_mem_cons.mpr ⟨⟨iter, ?_, hiter⟩, fun x hx => ?_⟩, fun key hkey => ?_⟩
  · rw [h.others e.key hfresh, hM₁, Function.update_self]
  · obtain ⟨i, hget, hsame⟩ := h.copied x hx
    refine ⟨i, hget, fun j v hj => hsame j v ?_⟩
    rwa [hM₁, Function.update_of_ne (hfresh x hx)]
  · obtain ⟨hne, hkey⟩ := List.forall_mem_cons.mp hkey
    rw [h.others key hkey, hM₁, Function.update_of_ne (Ne.symm hne)]

end Overrides

/-! ### Copying one element -/

section CopyNode

variable {s d d' : VlHashTableState} {e : VlHashElement} {key value : List UInt8} {iter dataSize : ℕ}

/-- What an insertion that returns did. -/
theorem tableStep_insert_eq (h : tableStep d (.insert key dataSize) = .ok d') :
    ∃ (iter : ℕ) (value : List UInt8), value.length = dataSize ∧
      vlHashTableInsert d.table key dataSize = .ok (iter, d'.table) ∧
      d'.elems = ⟨iter, key, value⟩ :: d.elems.filter fun x => x.key ≠ key := by
  rw [tableStep] at h
  obtain ⟨⟨iter, table⟩, hinsert, h⟩ := exists_of_bind_eq_ok h
  obtain rfl := Except.ok.inj h
  exact ⟨iter, _, ByteMem.length_slice, hinsert, rfl⟩

/-- What a write that returns did. -/
theorem tableStep_write_eq (h : tableStep d (.write iter value) = .ok d') :
    ∃ p n, vlHashTableSampleValue d.table iter = .ok (p, n) ∧
      d.table.store p value = .ok d'.table := by
  rw [tableStep] at h
  obtain ⟨⟨p, n⟩, hsample, h⟩ := exists_of_bind_eq_ok h
  obtain ⟨table, hstore, h⟩ := exists_of_bind_eq_ok h
  obtain rfl := Except.ok.inj h
  exact ⟨p, n, hsample, hstore⟩

/-- What is left without a key. -/
theorem contents_filter_key (h : d.table.Inv d.elems) :
    contents (d.elems.filter fun x => x.key ≠ key) =
      Function.update (contents d.elems) key none := by
  by_cases hold : ∃ x ∈ d.elems, x.key = key
  · obtain ⟨x, hx, rfl⟩ := hold
    exact contents_erase h.nodup_key (h.perm_key hx)
  · have hfresh : ∀ x ∈ d.elems, x.key ≠ key := fun x hx heq => hold ⟨x, hx, heq⟩
    rw [filter_key_of_fresh hfresh, ← contents_eq_none.mpr hfresh, Function.update_eq_self]

/-- **Copying one element**: its key gets its value. -/
theorem copyNode_spec (hs : s.Compact) (hd : d.Compact) (he : e ∈ s.elems)
    (hroom : d.elems.length < 1717986918)
    (hsame : ∀ x ∈ d.elems, x.key = e.key → x.value.length = e.value.length) :
    Returns (vlHashTableCopyNode s.table e.iter d.table) fun r =>
      ∃ d' : VlHashTableState, r.2 = d'.table ∧ d'.Compact ∧
        contents d'.elems = Function.update (contents d.elems) e.key (some (r.1, e.value)) ∧
        ∀ i v, contents d.elems e.key = some (i, v) → r.1 = i := by
  have hshow := hs.inv.shows he
  have hkey := hs.inv.key_lt e he
  have hvalue := hs.value_lt e he
  have hheader : vlHashTableHeaderSize = 24 := rfl
  have hfit : vlHashTableHeaderSize + e.key.length + e.value.length + 8 < 2 ^ 64 := by omega
  have hsampled := hshow.sampleValue
  rw [Nat.mod_eq_of_lt hvalue] at hsampled
  -- the insertion
  have hguard : tableMachine.guard d (.insert e.key e.value.length) := hfit
  obtain ⟨d₁, hstep, hd₁, hmap⟩ := mapStep_spec hd hguard ⟨hkey, hvalue, hsame⟩ hroom
  obtain ⟨iter, value, hlength, hinsert, helems⟩ := tableStep_insert_eq hstep
  have hmem : (⟨iter, e.key, value⟩ : VlHashElement) ∈ d₁.elems := helems ▸ List.mem_cons_self
  have hM₁ : contents d₁.elems = Function.update (contents d.elems) e.key (some (iter, value)) := by
    rw [helems, contents_cons, contents_filter_key hd.inv, Function.update_idem]
  -- the write
  obtain ⟨d₂, hwrite, hd₂, key, old, hold, hM₂⟩ := mapStep_write hd₁ hmem hlength.symm
  obtain ⟨p, n, hsample, hstore⟩ := tableStep_write_eq hwrite
  have hold := (contents_eq_some hd₁.inv.nodup_key).mp hold
  have heq : e.key = key := congrArg VlHashElement.key (hd₁.inv.nodes.eq_of_iter hmem hold rfl)
  refine ⟨(iter, d₂.table), ?_, d₂, rfl, hd₂, ?_, fun i v hi => ?_⟩
  · rw [vlHashTableCopyNode, hshow.sampleKey, ok_bind]
    dsimp only
    rw [hsampled, ok_bind]
    dsimp only
    rw [hshow.key, ok_bind, hinsert, ok_bind]
    dsimp only at hsample ⊢
    rw [hsample, ok_bind]
    dsimp only
    rw [hshow.value, ok_bind, hstore, ok_bind, pure_eq_ok]
  · rw [hM₂, hM₁, ← heq, Function.update_idem]
  · rcases hmap with ⟨hnone, -⟩ | ⟨-, hsame'⟩
    · cases hnone.symm.trans hi
    · have hget : contents d₁.elems e.key = some (iter, value) := by
        rw [hM₁, Function.update_self]
      rw [hsame', hi] at hget
      exact (Prod.mk.inj (Option.some_injective _ hget)).1.symm

/-- **A full destination**: not even a present key can be inserted. -/
theorem copyNode_full (hs : s.Compact) (hd : d.Compact) (he : e ∈ s.elems)
    (hfull : 1717986918 ≤ d.elems.length) :
    vlHashTableCopyNode s.table e.iter d.table = .error .divideByZero := by
  have hshow := hs.inv.shows he
  rw [vlHashTableCopyNode, hshow.sampleKey, ok_bind]
  dsimp only
  rw [hshow.sampleValue, ok_bind]
  dsimp only
  rw [hshow.key, ok_bind, hd.inv.insert_full hfull, error_bind]

end CopyNode

/-! ### Copying all elements -/

/-- The keys of elements. -/
def keySet (elems : List VlHashElement) : Finset (List UInt8) :=
  (elems.map VlHashElement.key).toFinset

/-- **Room for copies**: each of the elements finds fewer than 1717986918 keys in the destination, those
that were copied before it included. -/
def RoomFor (elems l : List VlHashElement) : Prop :=
  ∀ l₁ e l₂, l = l₁ ++ e :: l₂ → (keySet (elems ++ l₁)).card < 1717986918

/-- Copy the elements with the iterators of a list. -/
def copyAll (src : VlHashTable) : List ℕ → VlHashTable → ℕ → Except Fault (ℕ × VlHashTable)
  | [], dest, totalCopied => .ok (totalCopied, dest)
  | i :: iters, dest, totalCopied => do
    let (_, dest) ← vlHashTableCopyNode src i dest
    if 2 ^ 31 ≤ totalCopied + 1 then .error .signedOverflow
    else copyAll src iters dest (totalCopied + 1)

section CopyAll

variable {s d : VlHashTableState} {elems elems' l : List VlHashElement} {e : VlHashElement}
  {key : List UInt8} {src dest : VlHashTable} {rounds iter total : ℕ} {iters : List ℕ}

/-- **The loop of `vlHashTableCopy`** copies the elements that the walk passes. -/
theorem copyLoop_eq (h : vlHashTableForeachFrom src rounds iter = .ok iters) :
    vlHashTableCopyLoop src rounds iter dest total = copyAll src iters dest total := by
  induction rounds generalizing iter iters dest total with
  | zero =>
    rw [vlHashTableForeachFrom] at h
    rw [vlHashTableCopyLoop]
    by_cases hiter : iter = 0
    · rw [if_pos hiter] at h ⊢
      obtain rfl := Except.ok.inj h
      rfl
    · rw [if_neg hiter] at h
      cases h
  | succ rounds ih =>
    rw [vlHashTableForeachFrom] at h
    rw [vlHashTableCopyLoop]
    by_cases hiter : iter = 0
    · rw [if_pos hiter] at h ⊢
      obtain rfl := Except.ok.inj h
      rfl
    · rw [if_neg hiter] at h ⊢
      obtain ⟨next, hnext, h⟩ := exists_of_bind_eq_ok h
      obtain ⟨rest, hrest, h⟩ := exists_of_bind_eq_ok h
      obtain rfl := Except.ok.inj h
      rw [copyAll]
      refine bind_congr fun r => ?_
      obtain ⟨i, t⟩ := r
      dsimp only
      by_cases hmany : 2 ^ 31 ≤ total + 1
      · rw [if_pos hmany, if_pos hmany]
      · rw [if_neg hmany, if_neg hmany, hnext, ok_bind, ih hrest]

theorem mem_keySet : key ∈ keySet elems ↔ contents elems key ≠ none := by
  rw [keySet, List.mem_toFinset, List.mem_map, ne_eq, contents_eq_none]
  push Not
  rfl

theorem keySet_append : keySet (elems ++ elems') = keySet elems ∪ keySet elems' := by
  rw [keySet, List.map_append, List.toFinset_append, keySet, keySet]

/-- The first element, and then the others with its key in the destination. -/
theorem roomFor_cons (hkeys : keySet elems' = keySet (elems ++ [e])) :
    RoomFor elems (e :: l) ↔ (keySet elems).card < 1717986918 ∧ RoomFor elems' l := by
  constructor
  · intro h
    refine ⟨?_, fun l₁ x l₂ hsplit => ?_⟩
    · have hfirst := h [] e l rfl
      rwa [List.append_nil] at hfirst
    · have hrest := h (e :: l₁) x l₂ (by rw [hsplit, List.cons_append])
      rwa [keySet_append, hkeys, ← keySet_append, List.append_assoc, List.singleton_append]
  · rintro ⟨hfirst, hrest⟩ l₁ x l₂ hsplit
    cases l₁ with
    | nil => rwa [List.append_nil]
    | cons y l₁ =>
      rw [List.cons_append] at hsplit
      obtain ⟨rfl, htail⟩ := List.cons.inj hsplit
      have hlater := hrest l₁ x l₂ htail
      rwa [keySet_append, hkeys, ← keySet_append, List.append_assoc, List.singleton_append] at hlater

theorem roomFor_nil : RoomFor elems [] := by
  intro l₁ e l₂ hsplit
  cases l₁ with
  | nil => cases hsplit
  | cons x l₁ => cases hsplit

/-- The keys are as many as the elements. -/
theorem VlHashTable.Inv.card_keySet (h : d.table.Inv d.elems) :
    (keySet d.elems).card = d.elems.length := by
  rw [keySet, List.toFinset_card_of_nodup h.nodup_key, List.length_map]

/-- **Copying the elements of a list**, one after the other: an override where there is room, a division
by zero otherwise. -/
theorem copyAll_spec (hs : s.Compact) (hd : d.Compact) (hl : ∀ e ∈ l, e ∈ s.elems)
    (hnodup : (l.map VlHashElement.key).Nodup)
    (hsame : ∀ e ∈ l, ∀ i v, contents d.elems e.key = some (i, v) → v.length = e.value.length)
    (htotal : total + l.length < 2 ^ 31) :
    (RoomFor d.elems l → Returns (copyAll s.table (l.map VlHashElement.iter) d.table total) fun r =>
      r.1 = total + l.length ∧ ∃ d' : VlHashTableState, r.2 = d'.table ∧ d'.Compact ∧
        Overrides (contents d'.elems) (contents d.elems) l) ∧
    (¬ RoomFor d.elems l →
      copyAll s.table (l.map VlHashElement.iter) d.table total = .error .divideByZero) := by
  induction l generalizing d total with
  | nil => exact ⟨fun _ => returns_ok ⟨rfl, d, rfl, hd, overrides_nil⟩, fun h => absurd roomFor_nil h⟩
  | cons e l ih =>
    rw [List.length_cons] at htotal
    rw [List.map_cons, List.nodup_cons] at hnodup
    have he := hl e List.mem_cons_self
    by_cases hroom : d.elems.length < 1717986918
    · have hcompat : ∀ x ∈ d.elems, x.key = e.key → x.value.length = e.value.length := by
        intro x hx hkey
        refine hsame e List.mem_cons_self x.iter x.value ?_
        rw [← hkey]
        exact (contents_eq_some hd.inv.nodup_key).mpr hx
      obtain ⟨⟨i, t⟩, hcopy, d', rfl, hd', hM, hiter⟩ := copyNode_spec hs hd he hroom hcompat
      dsimp only at hcopy hM hiter
      have hfresh : ∀ x ∈ l, x.key ≠ e.key := fun x hx heq =>
        hnodup.1 (heq ▸ List.mem_map_of_mem hx)
      have hkeys : keySet d'.elems = keySet (d.elems ++ [e]) := by
        ext key
        rw [keySet_append, Finset.mem_union, mem_keySet, mem_keySet, hM, Function.update_apply]
        split_ifs with heq
        · simp [heq, keySet]
        · simp [heq, keySet]
      have hnext : total + 1 + l.length < 2 ^ 31 := by omega
      obtain ⟨hyes, hno⟩ := ih hd' (fun x hx => hl x (List.mem_cons_of_mem _ hx)) hnodup.2
        (fun x hx i v hi => by
          rw [hM, Function.update_of_ne (hfresh x hx)] at hi
          exact hsame x (List.mem_cons_of_mem _ hx) i v hi) hnext
      have hstep : copyAll s.table ((e :: l).map VlHashElement.iter) d.table total =
          copyAll s.table (l.map VlHashElement.iter) d'.table (total + 1) := by
        rw [List.map_cons, copyAll, hcopy, ok_bind]
        dsimp only
        rw [if_neg (by omega)]
      rw [roomFor_cons hkeys, hd.inv.card_keySet, hstep]
      refine ⟨fun hall => (hyes hall.2).mono ?_, fun hall => hno fun hrest => hall ⟨hroom, hrest⟩⟩
      rintro r ⟨htotal', d'', ht, hd'', hover⟩
      exact ⟨by rw [htotal', List.length_cons]; omega, d'', ht, hd'', hover.cons hfresh hM hiter⟩
    · have hfull : copyAll s.table ((e :: l).map VlHashElement.iter) d.table total =
          .error .divideByZero := by
        rw [List.map_cons, copyAll, copyNode_full hs hd he (by omega), error_bind]
      refine ⟨fun hall => ?_, fun _ => hfull⟩
      have hfirst := hall [] e l rfl
      rw [List.append_nil, hd.inv.card_keySet] at hfirst
      exact absurd hfirst hroom

end CopyAll

/-! ### The two functions -/

section Copy

variable {s s' d : VlHashTableState} {e : VlHashElement} {l l' : List VlHashElement}

/-- A run of a client with short keys and values: an insertion into a full table does not return. -/
theorem mapMachine_run_compact {os : List VlHashTableOp} (h : s.Compact)
    (hrun : mapMachine.Run s os s') :
    s'.Compact ∧ s'.table.hashFunc = s.table.hashFunc := by
  refine hrun.invariant (I := fun x => x.Compact ∧ x.table.hashFunc = s.table.hashFunc)
    (fun x o x' hx hg hop => ?_) ⟨h, rfl⟩
  obtain ⟨hx, hhash⟩ := hx
  have hg : tableMachine.guard x o ∧ x.Small o := hg
  have hstep : tableStep x o = .ok x' := hop
  have hroom : x.HasRoom o := by
    cases o with
    | insert key dataSize =>
      refine Nat.lt_of_not_le fun hfull => ?_
      rw [tableStep, hx.inv.insert_full hfull] at hstep
      cases hstep
    | _ => trivial
  have hsound : x.Sound o := by
    cases o with
    | insert key dataSize =>
      obtain ⟨hkey, hdata, hsame⟩ := hg.2
      exact ⟨hroom, hkey, fun e he heq => ⟨hdata, Or.inl (hsame e he heq).symm⟩⟩
    | reserve buckets heapSize => exact hg.2.elim
    | _ => trivial
  refine ⟨((mapStep_spec hx hg.1 hg.2 hroom).of_ok hstep).1, ?_⟩
  rw [((tableStep_spec hx.inv hg.1 hsound).of_ok hstep).2, hhash]

/-- The order of the elements does not matter for the map they override. -/
theorem Overrides.congr {M M' : List UInt8 → Option (ℕ × List UInt8)} (h : Overrides M' M l)
    (hmem : ∀ e, e ∈ l' ↔ e ∈ l) : Overrides M' M l' :=
  ⟨fun e he => h.copied e ((hmem e).mp he), fun key hkey => h.others key fun e he =>
    hkey e ((hmem e).mpr he)⟩

/-- At most 1717986918 elements fit into a table. -/
theorem VlHashTable.Inv.length_le (h : s.table.Inv s.elems) : s.elems.length ≤ 1717986918 := by
  obtain ⟨k, hk⟩ := h.size_pow
  have hlt := h.size_lt
  have hload := h.load
  rw [hk] at hlt hload
  have hexp : k + 4 ≤ 31 := by
    have hpow := (Nat.pow_lt_pow_iff_right (by norm_num : 1 < 2)).mp hlt
    omega
  have hpow := Nat.pow_le_pow_right (by norm_num : 0 < 2) hexp
  norm_num at hpow
  omega

/-- **What a copy is**: the destination represents its old map overridden by the elements. -/
def Copied (d : VlHashTableState) (l : List VlHashElement) (table : VlHashTable) : Prop :=
  ∃ M, table.Represents M ∧ Overrides M (contents d.elems) l

/-- The elements of the source in the order in which the walk passes them. -/
theorem VlHashTable.Inv.exists_walk (h : s.table.Inv s.elems) : ∃ l : List VlHashElement,
    l.Perm s.elems ∧
      vlHashTableForeach s.table s.table.totalElements = .ok (l.map VlHashElement.iter) := by
  obtain ⟨iters, hwalk, hperm, -⟩ := h.foreach
  have hcomp := congrFun₂ (List.eq_map_comp_perm VlHashElement.iter) iters s.elems
  obtain ⟨l, rfl, hl⟩ := hcomp.mpr hperm
  exact ⟨l, hl, hwalk⟩

/-- The copy follows the walk. -/
theorem vlHashTableCopy_eq (hhash : s.table.hashFunc = d.table.hashFunc)
    (hwalk : vlHashTableForeach s.table s.table.totalElements = .ok (l.map VlHashElement.iter))
    [Decidable (s.table.hashFunc = d.table.hashFunc)] : vlHashTableCopy s.table d.table =
      copyAll s.table (l.map VlHashElement.iter) d.table 0 := by
  rw [vlHashTableForeach] at hwalk
  obtain ⟨front, hfront, hwalk⟩ := exists_of_bind_eq_ok hwalk
  rw [vlHashTableCopy, if_neg (not_not.mpr hhash), hfront, ok_bind, copyLoop_eq hwalk]

/-- **Copying a table** works if and only if the walk never meets a full destination. -/
theorem copy_iff (hs : s.Compact) (hd : d.Compact) (hhash : s.table.hashFunc = d.table.hashFunc)
    (hsame : ∀ e ∈ s.elems, ∀ x ∈ d.elems, x.key = e.key → x.value.length = e.value.length)
    (hl : l.Perm s.elems)
    (hwalk : vlHashTableForeach s.table s.table.totalElements = .ok (l.map VlHashElement.iter))
    [Decidable (s.table.hashFunc = d.table.hashFunc)] :
    Returns (vlHashTableCopy s.table d.table)
      (fun r => r.1 = s.elems.length ∧ Copied d s.elems r.2) ↔ RoomFor d.elems l := by
  have hnodup : (l.map VlHashElement.key).Nodup :=
    (hl.map VlHashElement.key).nodup_iff.mpr hs.inv.nodup_key
  have hlength := hs.inv.length_le
  obtain ⟨hyes, hno⟩ := copyAll_spec hs hd (fun e he => hl.mem_iff.mp he) hnodup
    (fun e he i v hget => hsame e (hl.mem_iff.mp he) _
      ((contents_eq_some hd.inv.nodup_key).mp hget) rfl)
    (by rw [hl.length_eq]; omega : 0 + l.length < 2 ^ 31)
  rw [vlHashTableCopy_eq hhash hwalk]
  constructor
  · rintro ⟨r, hret, -⟩
    by_contra hfull
    rw [hno hfull] at hret
    cases hret
  · intro hroom
    refine (hyes hroom).mono ?_
    rintro r ⟨htotal, d', ht, hd', hover⟩
    refine ⟨by rw [htotal, hl.length_eq, Nat.zero_add], contents d'.elems, ?_, ?_⟩
    · rw [ht]
      exact hd'.represents
    · exact hover.congr fun e => hl.mem_iff.symm

/-- **Copying one element** works if and only if the destination is not full. -/
theorem copyElement_iff (hs : s.Compact) (hd : d.Compact)
    (hhash : s.table.hashFunc = d.table.hashFunc)
    (hsame : ∀ e ∈ s.elems, ∀ x ∈ d.elems, x.key = e.key → x.value.length = e.value.length)
    (he : e ∈ s.elems) [Decidable (s.table.hashFunc = d.table.hashFunc)] :
    Returns (vlHashTableCopyElement s.table e.iter d.table) (fun r => Copied d [e] r.2) ↔
      d.elems.length < 1717986918 := by
  rw [vlHashTableCopyElement, if_neg (not_not.mpr hhash)]
  constructor
  · rintro ⟨r, hret, -⟩
    by_contra hfull
    rw [copyNode_full hs hd he (Nat.le_of_not_lt hfull)] at hret
    cases hret
  · intro hroom
    refine (copyNode_spec hs hd he hroom (hsame e he)).mono ?_
    rintro r ⟨d', ht, hd', hM, hiter⟩
    refine ⟨contents d'.elems, ?_, overrides_nil.cons (fun x hx => (by cases hx)) hM hiter⟩
    rw [ht]
    exact hd'.represents

end Copy

end VeritableLasagna
