import VeritableLasagna.HashTable.Insert

/-!
# Removal from a hash table

`vlHashTableRemoveIter` takes an element out of its chain and frees its node. An element at the head of
the chain leaves by its bucket; any other one by the element before it, which the loop finds
(`VlHashTable.unlink_eq`). What is left is a table without the element (`VlHashTable.Inv.removeIter_spec`).
-/

namespace VeritableLasagna

open Tiling

namespace VlHashTable

variable {table table' : VlHashTable} {elems rest l l₁ l₂ : List VlHashElement}
  {e c : VlHashElement} {p b rounds : ℕ}

/-! ### One element less -/

/-- The invariant with one element less. -/
theorem Inv.uncons (h : table.Inv elems) (hperm : elems.Perm (e :: rest))
    (hnodes : table'.Nodes rest) (hspace : table'.data.data.size = table.data.data.size)
    (hlength : table'.table.length = table.table.length)
    (htotal : table'.totalElements = (table.totalElements + (2 ^ 32 - 1)) % 2 ^ 32)
    (hbucket : ∀ b p, table'.table[b]? = some p → table'.Bucket table.table.length rest b p) :
    table'.Inv rest := by
  have hsub : ∀ x ∈ rest, x ∈ elems := fun x hx => hperm.mem_iff.mpr (List.mem_cons_of_mem _ hx)
  have hcount := hperm.length_eq
  have hlt := h.total_lt
  have hload := h.load
  rw [List.length_cons] at hcount
  refine ⟨hnodes, fun x hx => h.key_lt x (hsub x hx), ?_, ?_, ?_, ?_, ?_, hspace ▸ h.space, ?_⟩
  · exact (List.nodup_cons.mp ((hperm.map _).nodup_iff.mp h.nodup_key)).2
  · rw [htotal, h.total]
    omega
  · rw [hlength]
    omega
  · rw [hlength]
    exact h.size_pow
  · rw [hlength]
    exact h.size_lt
  · rwa [hlength]

/-- The elements that are left in the bucket of a removed one. -/
theorem perm_filter_of_perm (hl : (l₁ ++ e :: l₂).Perm (elems.filter fun x => table.slot b x.key = p))
    (hperm : elems.Perm (e :: rest)) :
    (l₁ ++ l₂).Perm (rest.filter fun x => table.slot b x.key = p) := by
  have he : table.slot b e.key = p := ((mem_of_perm_filter hl).mp (by simp)).2
  have hall := (hl.symm.trans List.perm_middle).symm.trans (hperm.filter _)
  rw [List.filter_cons_of_pos (by simpa using he)] at hall
  exact hall.cons_inv

/-- A bucket that the removed element is not in. -/
theorem Bucket.erase (h : table.Bucket b elems n p) (hperm : elems.Perm (e :: rest))
    (he : table.slot b e.key ≠ n) : table.Bucket b rest n p := by
  obtain ⟨l, hchain, hl⟩ := h.perm hperm
  rw [List.filter_cons_of_neg (by simpa using he)] at hl
  exact ⟨l, hchain, hl⟩

/-- Freeing the node of an element leaves the others as they are. -/
theorem Nodes.release (h : table.Nodes elems) (hperm : elems.Perm (e :: rest)) :
    Returns (vlHashTableRelease table e.iter) fun t => t.Nodes rest ∧
      t.data.data.size = table.data.data.size ∧ t.table = table.table ∧
      t.hashFunc = table.hashFunc ∧ t.link = table.link ∧
      t.totalElements = (table.totalElements + (2 ^ 32 - 1)) % 2 ^ 32 := by
  have hnodes := h.perm hperm
  have hhandle := hnodes.handle e List.mem_cons_self
  have hfree := vlArenaMemFree_inv hnodes.arena
  rw [show e.block.offset + 8 = e.iter from Nat.sub_add_cancel hhandle] at hfree
  rw [vlHashTableRelease]
  refine hfree.bind fun data ⟨hinv, hdata⟩ => returns_ok ⟨⟨hinv, ?_, ?_⟩, ?_, rfl, rfl, ?_, rfl⟩
  · exact fun x hx => hnodes.handle x (List.mem_cons_of_mem _ hx)
  · intro x hx
    dsimp only
    rw [hdata]
    exact hnodes.stored x (List.mem_cons_of_mem _ hx)
  · dsimp only
    rw [hdata]
  · funext i
    rw [link, link]
    dsimp only
    rw [hdata]

/-! ### The element before -/

/-- **The loop of `vlHashTableRemoveIter`** links the element before past the removed one. -/
theorem unlink_eq (h : table.Nodes elems) (hl : ∀ x ∈ l ++ c :: e :: l₂, x ∈ elems)
    (hchain : Chain table.link p ((l ++ c :: e :: l₂).map VlHashElement.iter))
    (hne : ∀ x ∈ l ++ [c], x.iter ≠ e.iter) (hrounds : l.length < rounds) :
    vlHashTableUnlink table e.iter rounds p =
      .ok (table.relink c.iter (table.link e.iter)) := by
  induction l generalizing p rounds with
  | nil =>
    obtain ⟨rounds, rfl⟩ := Nat.exists_eq_succ_of_ne_zero (Nat.ne_zero_of_lt hrounds)
    obtain ⟨rfl, -, hnext, -⟩ := hchain
    have hc := hl c (by simp)
    have he := hl e (by simp)
    rw [vlHashTableUnlink, h.next_eq hc, ok_bind, if_pos hnext, h.next_eq he, ok_bind,
      h.setNext_eq hc]
  | cons x l ih =>
    obtain ⟨rounds, rfl⟩ := Nat.exists_eq_succ_of_ne_zero (Nat.ne_zero_of_lt hrounds)
    obtain ⟨rfl, -, hrest⟩ := hchain
    have hx := hl x (by simp)
    have hnext : table.link x.iter ≠ e.iter := by
      cases l with
      | nil =>
        rw [hrest.1]
        exact hne c (by simp)
      | cons y l =>
        rw [hrest.1]
        exact hne y (by simp)
    rw [vlHashTableUnlink, h.next_eq hx, ok_bind, if_neg hnext]
    exact ih (fun y hy => hl y (List.mem_cons_of_mem _ hy)) hrest
      (fun y hy => hne y (List.mem_cons_of_mem _ hy)) (Nat.lt_of_succ_lt_succ hrounds)

/-! ### The removal -/

/-- **`vlHashTableRemoveIter`** of an element removes it. -/
theorem Inv.removeIter_spec (h : table.Inv elems) (hperm : elems.Perm (e :: rest)) :
    Returns (vlHashTableRemoveIter table e.iter) fun t => t.Inv rest ∧
      t.hashFunc = table.hashFunc ∧ t.data.data.size = table.data.data.size := by
  have he : e ∈ elems := hperm.mem_iff.mpr List.mem_cons_self
  have hnodup : elems.Nodup := List.Nodup.of_map _ h.nodup_key
  have hnot : e ∉ rest := (List.nodup_cons.mp (hperm.nodup_iff.mp hnodup)).1
  have hsub : ∀ x ∈ rest, x ∈ elems := fun x hx => hperm.mem_iff.mpr (List.mem_cons_of_mem _ hx)
  have hlt := h.index_lt e.key
  obtain ⟨p, l, hget, hbucket, hchain, hl⟩ := h.exists_chain hlt
  have hmem : e ∈ l := (mem_of_perm_filter hl).mpr ⟨he, rfl⟩
  obtain ⟨l₁, l₂, rfl⟩ := List.append_of_mem hmem
  have hin : ∀ x ∈ l₁ ++ e :: l₂, x ∈ elems := fun x hx => ((mem_of_perm_filter hl).mp hx).1
  have hleft := perm_filter_of_perm hl hperm
  have hlnodup : (l₁ ++ e :: l₂).Nodup := hl.nodup_iff.mpr (hnodup.filter _)
  rw [vlHashTableRemoveIter, h.nodes.keyHash_eq he, ok_bind, h.index_eq, ok_bind, hbucket, ok_bind]
  rcases List.eq_nil_or_concat' l₁ with rfl | ⟨l, c, rfl⟩
  · -- the head of the chain
    obtain ⟨rfl, hne, hchain⟩ := hchain
    have hnodes : Nodes { table with
        table := table.table.set (table.index e.key) (table.link e.iter) } elems :=
      h.nodes.congr rfl rfl
    rw [if_neg hne, if_pos rfl, h.nodes.next_eq he, ok_bind, setBucket_eq hlt, ok_bind]
    refine (hnodes.release hperm).mono ?_
    rintro t ⟨hn, hspace, htable, hhash, hlink, htotal⟩
    refine ⟨?_, hhash, hspace⟩
    have hslot : t.slot = table.slot := by
      funext size key
      rw [slot, slot, hhash]
    refine h.uncons hperm hn hspace ?_ htotal fun b q hq => ?_
    · rw [htable, List.length_set]
    · rw [htable, List.getElem?_set] at hq
      split_ifs at hq with hb
      · obtain rfl := Option.some_injective _ hq
        obtain rfl := hb
        exact ⟨l₂, by rw [hlink]; exact hchain, by rw [hslot]; exact hleft⟩
      · have hold := ((h.bucket b q hq).congr hhash fun x _ _ => by rw [hlink]; rfl).erase hperm
          (by rw [hslot]; exact hb)
        exact hold
  · -- behind another element
    have hc : c ∈ elems := hin c (by simp)
    have hce : c ≠ e := by
      rintro rfl
      exact (List.nodup_append'.mp hlnodup).2.2 (by simp) List.mem_cons_self
    have hcrest : c ∈ rest := (List.mem_cons.mp (hperm.mem_iff.mp hc)).resolve_left hce
    rw [List.append_assoc, List.singleton_append] at hchain hin
    have hne : ∀ x ∈ l ++ [c], x.iter ≠ e.iter := by
      intro x hx hiter
      have hxe := h.nodes.eq_of_iter (hin x (by
        rcases List.mem_append.mp hx with hx | hx
        · exact List.mem_append_left _ hx
        · rw [List.mem_singleton.mp hx]
          simp)) he hiter
      rw [hxe] at hx
      exact (List.nodup_append'.mp hlnodup).2.2 hx List.mem_cons_self
    -- the chain has a head before the element, which is linked to another one
    obtain ⟨x, k, hsplit⟩ : ∃ x k, l ++ [c] = x :: k := List.exists_cons_of_ne_nil (by simp)
    have hx : x ∈ elems := hin x (by
      have hxm : x ∈ l ++ [c] := hsplit ▸ List.mem_cons_self
      rcases List.mem_append.mp hxm with hxm | hxm
      · exact List.mem_append_left _ hxm
      · rw [List.mem_singleton.mp hxm]
        simp)
    have hchain' : Chain table.link p ((x :: k ++ e :: l₂).map VlHashElement.iter) := by
      rw [← hsplit, List.append_assoc]
      exact hchain
    obtain ⟨hp, hxne, hnext⟩ := hchain'
    have hlinkne : table.link x.iter ≠ 0 := by
      cases k with
      | nil =>
        rw [hnext.1]
        exact h.nodes.iter_ne_zero he
      | cons y k =>
        rw [hnext.1]
        exact hnext.2.1
    have hrounds : l.length < table.totalElements := by
      have hle := length_le_of_perm_filter hl
      simp only [List.length_append, List.length_cons, List.length_nil] at hle
      rw [h.total]
      omega
    have hroot : p ≠ e.iter := hp ▸ hne x (hsplit ▸ List.mem_cons_self)
    have hunlink := unlink_eq h.nodes hin hchain hne hrounds
    rw [if_neg (hp ▸ hxne), if_neg hroot, hp, h.nodes.next_eq hx, ok_bind, if_neg hlinkne, ← hp,
      hunlink, ok_bind]
    refine ((h.nodes.relink hc _).release hperm).mono ?_
    rintro t ⟨hn, hspace, htable, hhash, hlink, htotal⟩
    refine ⟨?_, hhash, hspace⟩
    have hslot : t.slot = table.slot := by
      funext size key
      rw [slot, slot, hhash]
      rfl
    have hkeep : ∀ x ∈ elems, x ≠ c → t.link x.iter = table.link x.iter := fun x hx hxc => by
      rw [hlink, h.nodes.link_relink_of_ne hc hx hxc]
    have hlinkc : t.link c.iter = table.link e.iter := by
      rw [hlink]
      refine link_relink_self ?_
      exact natOfLE_lt.trans_eq (by rw [ByteMem.length_slice]; norm_num)
    refine h.uncons hperm hn hspace (by rw [htable, table_relink]) htotal fun b q hq => ?_
    rw [htable, table_relink] at hq
    by_cases hb : b = table.index e.key
    · obtain rfl := hb
      obtain rfl := Option.some_injective _ (hget.symm.trans hq)
      refine ⟨l ++ c :: l₂, ?_, ?_⟩
      · rw [List.map_append, List.map_cons]
        rw [List.map_append, List.map_cons, List.map_cons] at hchain
        refine hchain.unlink (fun m hm => ?_) hlinkc
        rw [← List.map_append] at hm
        obtain ⟨y, hy, rfl⟩ := List.mem_map.mp hm
        have hyc : y ≠ c := by
          rintro rfl
          have hdup : (l ++ l₂ ++ [y] ++ [e]).Nodup := by
            refine (List.Perm.nodup_iff ?_).mp hlnodup
            simp only [List.append_assoc, List.singleton_append]
            refine List.Perm.append_left l ?_
            exact @List.perm_append_comm _ [y, e] l₂
          rw [List.append_assoc] at hdup
          exact (List.nodup_append'.mp hdup).2.2 hy (by simp)
        refine hkeep y (hin y ?_) hyc
        rcases List.mem_append.mp hy with hy | hy
        · exact List.mem_append_left _ hy
        · simp [hy]
      · rw [hslot]
        rwa [List.append_assoc, List.singleton_append] at hleft
    · have hb' : ∀ x ∈ elems, table.slot table.table.length x.key = b →
          t.link x.iter = table.link x.iter := by
        intro x hx hxb
        refine hkeep x hx ?_
        rintro rfl
        exact hb (hxb.symm.trans ((mem_of_perm_filter hl).mp (by simp)).2)
      refine ((h.bucket b q hq).congr (hhash.trans (hashFunc_relink)) hb').erase hperm ?_
      rw [hslot]
      exact fun heq => hb heq.symm

/-- **`vlHashTableRemoveKey`** of a key that is there removes its element. -/
theorem Inv.removeKey_spec (h : table.Inv elems) (hperm : elems.Perm (e :: rest)) :
    Returns (vlHashTableRemoveKey table e.key) fun t => t.Inv rest ∧
      t.hashFunc = table.hashFunc ∧ t.data.data.size = table.data.data.size := by
  rw [vlHashTableRemoveKey, h.find_mem (hperm.mem_iff.mpr List.mem_cons_self), ok_bind]
  exact h.removeIter_spec hperm

/-! ### Empty tables -/

/-- A table without elements, all of whose buckets are empty. -/
theorem Inv.empty (harena : table.data.Inv []) (htotal : table.totalElements = 0)
    (hpow : ∃ k, table.table.length = 2 ^ (k + 4)) (hlt : table.table.length < 2 ^ 32)
    (hspace : vlHashTableHeaderSize ≤ table.data.data.size)
    (hzero : ∀ b p : ℕ, table.table[b]? = some p → p = 0) : table.Inv [] := by
  refine ⟨⟨harena, fun x hx => (by cases hx), fun x hx => (by cases hx)⟩, fun x hx => (by cases hx),
    List.nodup_nil, htotal, ?_, hpow, hlt, hspace, fun b p hp => ?_⟩
  · obtain ⟨k, hk⟩ := hpow
    rw [hk, List.length_nil]
    have := Nat.two_pow_pos (k + 4)
    omega
  · rw [hzero b p hp]
    exact bucket_nil

/-- **`vlHashTableInit`** makes an empty table. -/
theorem vlHashTableInit_spec (contents : ByteMem) (hashFunc : List UInt8 → UInt64) :
    Returns (vlHashTableInit contents hashFunc) fun t => t.Inv [] ∧ t.hashFunc = hashFunc ∧
      t.data.data.size = 128 := by
  rw [vlHashTableInit]
  refine (vlArenaInit_spec (by norm_num) (by norm_num)).bind fun data ⟨hts, hdata⟩ => ?_
  refine returns_ok ⟨?_, rfl, by rw [hdata]⟩
  refine Inv.empty ⟨_, hts, by simp⟩ rfl ⟨0, rfl⟩ (by simp) ?_ fun b p hp => ?_
  · dsimp only
    rw [hdata, vlHashTableHeaderSize]
    norm_num
  · exact List.eq_of_mem_replicate (List.mem_of_getElem? hp)

/-- **`vlHashTableClear`** removes all elements. -/
theorem Inv.clear_spec (h : table.Inv elems) :
    Returns (vlHashTableClear table) fun t => t.Inv [] ∧ t.hashFunc = table.hashFunc ∧
      t.data.data.size = table.data.data.size := by
  rw [vlHashTableClear]
  refine (vlArenaClear_spec h.nodes.arena).bind fun data ⟨hts, hdata⟩ => ?_
  refine returns_ok ⟨?_, rfl, by rw [hdata]⟩
  refine Inv.empty ⟨_, hts, by simp⟩ rfl ?_ ?_ ?_ fun b p hp => ?_
  · rw [List.length_replicate]
    exact h.size_pow
  · rw [List.length_replicate]
    exact h.size_lt
  · dsimp only
    rw [hdata]
    exact h.space
  · exact List.eq_of_mem_replicate (List.mem_of_getElem? hp)

end VlHashTable

end VeritableLasagna
