import VeritableLasagna.HashTable.Chains

/-!
# Growth of a hash table

`vl_HashTableGrow` empties the buckets and walks over the arena once. Each element it passes goes to
the head of the chain of its new bucket, so that after the walk every chain is there again
(`VlHashTable.growLoop_spec`). Only links are written on the way: the elements stay where they are, and
so does the walk itself.

The number of buckets fits `vl_dsidx_t` as long as fewer than 1717986918 elements are there when the
table grows, four fifths of `2 ^ 31` (`VlHashTable.Inv.ensure_spec`).
-/

namespace VeritableLasagna

open Tiling

namespace VlHashTable

variable {table table' : VlHashTable} {elems elems' done todo : List VlHashElement}
  {e : VlHashElement} {l₁ l₂ : List Tile} {b p size rounds : ℕ}

/-- The arena has the same memory and the same free nodes. -/
def SameSpace (table' table : VlHashTable) : Prop :=
  table'.data.freeSet = table.data.freeSet ∧ table'.data.data.size = table.data.data.size

theorem SameSpace.trans {table'' : VlHashTable} (h : table''.SameSpace table')
    (h' : table'.SameSpace table) : table''.SameSpace table :=
  ⟨h.1.trans h'.1, h.2.trans h'.2⟩

theorem SameSpace.front_eq (h : table'.SameSpace table) :
    vlHashTableFront table' = vlHashTableFront table := by
  rw [vlHashTableFront, vlHashTableFront, h.1]
  unfold vlMemSize
  rw [h.2]

/-! ### Buckets -/

theorem Bucket.perm (h : table.Bucket size elems b p) (hp : elems.Perm elems') :
    table.Bucket size elems' b p := by
  obtain ⟨l, hchain, hl⟩ := h
  exact ⟨l, hchain, hl.trans (hp.filter _)⟩

theorem bucket_nil : table.Bucket size [] b 0 := ⟨[], rfl, List.Perm.refl _⟩

/-- A bucket starts at one of its elements, unless it is empty. -/
theorem Bucket.start (h : table.Bucket size elems b p) : p = 0 ∨ ∃ e ∈ elems, p = e.iter := by
  obtain ⟨l, hchain, hl⟩ := h
  cases l with
  | nil => exact Or.inl hchain
  | cons e l =>
    exact Or.inr ⟨e, ((mem_of_perm_filter hl).mp List.mem_cons_self).1, hchain.1⟩

/-- **Frame rule**: a bucket only needs the links of its own elements. -/
theorem Bucket.congr (h : table.Bucket size elems b p) (hhash : table'.hashFunc = table.hashFunc)
    (hlink : ∀ e ∈ elems, table.slot size e.key = b → table'.link e.iter = table.link e.iter) :
    table'.Bucket size elems b p := by
  obtain ⟨l, hchain, hl⟩ := h
  have hslot : table'.slot = table.slot := by
    funext size key
    rw [slot, slot, hhash]
  refine ⟨l, hchain.congr fun i hi => ?_, by rwa [hslot]⟩
  obtain ⟨e, he, rfl⟩ := List.mem_map.mp hi
  obtain ⟨hmem, hb⟩ := (mem_of_perm_filter hl).mp he
  exact hlink e hmem hb

/-- An element of another bucket does not matter. -/
theorem Bucket.cons_of_ne (h : table.Bucket size elems b p) (hb : table.slot size e.key ≠ b) :
    table.Bucket size (e :: elems) b p := by
  obtain ⟨l, hchain, hl⟩ := h
  exact ⟨l, hchain, by rwa [List.filter_cons_of_neg (by simpa using hb)]⟩

/-- **An element that links to the start** of its bucket is the new start. -/
theorem Bucket.push (h : table.Bucket size elems b p) (hb : table.slot size e.key = b)
    (hne : e.iter ≠ 0) (hlink : table.link e.iter = p) :
    table.Bucket size (e :: elems) b e.iter := by
  obtain ⟨l, hchain, hl⟩ := h
  refine ⟨e :: l, ⟨rfl, hne, hlink ▸ hchain⟩, ?_⟩
  rw [List.filter_cons_of_pos (by simpa using hb)]
  exact hl.cons e

/-! ### The loop -/

/-- One round of the loop: the element goes to the head of its bucket. -/
theorem grow_bucket (hnodes : table.Nodes elems) (he : e ∈ elems) (hdone : ∀ x ∈ done, x ∈ elems)
    (hfresh : e ∉ done) (hp : table.table[table.slot size e.key]? = some p)
    (hbucket : ∀ b p, table.table[b]? = some p → table.Bucket size done b p)
    (htable' : table' = { table.relink e.iter p with
      table := table.table.set (table.slot size e.key) e.iter }) :
    ∀ b q, table'.table[b]? = some q → table'.Bucket size (e :: done) b q := by
  have hhash : table'.hashFunc = table.hashFunc := by
    rw [htable']
    rfl
  have hlink : table'.link = (table.relink e.iter p).link := by
    rw [htable']
    rfl
  have hkeep : ∀ x ∈ done, table'.link x.iter = table.link x.iter := fun x hx => by
    rw [hlink, hnodes.link_relink_of_ne he (hdone x hx) fun heq => hfresh (heq ▸ hx)]
  have hlt : p < 2 ^ 64 := by
    rcases (hbucket _ p hp).start with rfl | ⟨x, hx, rfl⟩
    · norm_num
    · exact hnodes.iter_lt (hdone x hx)
  have hslot : table'.slot size e.key = table.slot size e.key := by rw [slot, slot, hhash]
  intro b q hq
  rw [htable', List.getElem?_set] at hq
  split_ifs at hq with hb
  · obtain rfl := Option.some_injective _ hq
    obtain rfl := hb
    have hold := (hbucket _ p hp).congr hhash fun x hx _ => hkeep x hx
    exact hold.push hslot (hnodes.iter_ne_zero he) (by rw [hlink, link_relink_self hlt])
  · have hold := (hbucket b q hq).congr hhash fun x hx _ => hkeep x hx
    exact hold.cons_of_ne (by rw [hslot]; exact hb)

/-- **The loop of `vl_HashTableGrow`** puts the elements that are left into the first `size`
buckets. -/
theorem growLoop_spec (hnodes : table.Nodes elems) (hpos : 0 < size)
    (hsize : size ≤ table.table.length) (hts : table.data.Tiled (l₁ ++ l₂))
    (hperm : (elems.map VlHashElement.block).Perm (blocks false 0 (l₁ ++ l₂)))
    (htodo : todo.map VlHashElement.block = blocks false (span l₁) l₂)
    (hsub : ∀ e ∈ todo, e ∈ elems) (hdone : ∀ e ∈ done, e ∈ elems)
    (hnodup : (todo ++ done).Nodup)
    (hbucket : ∀ b p, table.table[b]? = some p → table.Bucket size done b p)
    (hrounds : todo.length ≤ rounds) :
    Returns (vlHashTableGrowLoop size rounds (firstHandle (span l₁) l₂) table) fun table' =>
      table'.Nodes elems ∧ table'.table.length = table.table.length ∧
        table'.hashFunc = table.hashFunc ∧ table'.totalElements = table.totalElements ∧
        table'.SameSpace table ∧
        ∀ b p, table'.table[b]? = some p → table'.Bucket size (todo.reverse ++ done) b p := by
  induction l₂ generalizing l₁ todo done table rounds with
  | nil =>
    obtain rfl : todo = [] := List.map_eq_nil_iff.mp htodo
    refine ⟨table, ?_, hnodes, rfl, rfl, rfl, ⟨rfl, rfl⟩, hbucket⟩
    cases rounds with
    | zero => rfl
    | succ rounds => rfl
  | cons t l₂ ih =>
    obtain ⟨f, n⟩ := t
    have hcut : span (l₁ ++ [⟨f, n⟩]) = span l₁ + n := by simp
    rw [List.append_cons] at hperm
    cases f with
    | true =>
      rw [blocks_false_cons_free, ← hcut] at htodo
      rw [firstHandle_free, ← hcut]
      rw [List.append_cons] at hts
      exact ih hnodes hsize hts hperm htodo hsub hdone hnodup hbucket hrounds
    | false =>
      rw [blocks_cons_self] at htodo
      obtain ⟨e, todo, rfl, hblock, htodo⟩ := List.map_eq_cons_iff.mp htodo
      obtain ⟨rounds, rfl⟩ := Nat.exists_eq_succ_of_ne_zero (Nat.ne_zero_of_lt hrounds)
      have he := hsub e List.mem_cons_self
      have hiter : e.iter = span l₁ + 8 := by
        have hhandle := hnodes.handle e he
        have hoff : e.iter - 8 = span l₁ := congrArg Block.offset hblock
        omega
      have hmem : e.block ∈ blocks false 0 (l₁ ++ ⟨false, n⟩ :: l₂) := by
        rw [List.append_cons]
        exact hperm.mem_iff.mp (List.mem_map_of_mem he)
      have hb : table.slot size e.key < table.table.length :=
        (Nat.mod_lt _ hpos).trans_le hsize
      obtain ⟨p, hp⟩ : ∃ p, table.table[table.slot size e.key]? = some p :=
        ⟨_, List.getElem?_eq_getElem hb⟩
      -- the table behind the round
      obtain ⟨table₁, htable₁⟩ : ∃ table₁ : VlHashTable, table₁ =
          { table.relink e.iter p with table := table.table.set (table.slot size e.key) e.iter } :=
        ⟨_, rfl⟩
      have hlength : table₁.table.length = table.table.length := by rw [htable₁, List.length_set]
      have hhash : table₁.hashFunc = table.hashFunc := by
        rw [htable₁]
        rfl
      have htotal : table₁.totalElements = table.totalElements := by
        rw [htable₁]
        rfl
      have hfree : table₁.SameSpace table := by
        rw [htable₁]
        exact ⟨rfl, rfl⟩
      have hnodes₁ : table₁.Nodes elems :=
        (hnodes.relink he p).congr (by rw [htable₁]) (by rw [htable₁])
      have hts₁ : table₁.data.Tiled (l₁ ++ ⟨false, n⟩ :: l₂) := by
        rw [htable₁]
        exact hnodes.tiled_relink he hts hmem
      have hround : vlHashTableGrowLoop size (rounds + 1) e.iter table =
          vlHashTableGrowLoop size rounds (firstHandle (span l₁ + n) l₂) table₁ := by
        have hslot : (table.hashFunc e.key).toNat % size = table.slot size e.key := rfl
        rw [vlHashTableGrowLoop, if_neg (hnodes.iter_ne_zero he), hnodes.keyHash_eq he, ok_bind,
          vlHashTableIndex, if_neg hpos.ne', ok_bind, hslot, bucket_eq hp, ok_bind,
          hnodes.setNext_eq he, ok_bind, setBucket_eq (by rwa [table_relink]), ok_bind, table_relink,
          ← htable₁, hiter, vlHashTableNext_spec hts₁, ok_bind]
      rw [List.append_cons] at hts₁
      rw [List.cons_append, List.nodup_cons, List.mem_append, not_or] at hnodup
      obtain ⟨⟨hnot, hfresh⟩, hnodup⟩ := hnodup
      have hnodup₁ : (todo ++ e :: done).Nodup :=
        (List.perm_middle.nodup_iff).mpr (List.nodup_cons.mpr
          ⟨fun hx => (List.mem_append.mp hx).elim hnot hfresh, hnodup⟩)
      have hrest := ih hnodes₁ (hlength ▸ hsize) hts₁ hperm (by rw [htodo, hcut])
        (fun x hx => hsub x (List.mem_cons_of_mem _ hx)) (List.forall_mem_cons.mpr ⟨he, hdone⟩)
        hnodup₁ (grow_bucket hnodes he hdone hfresh hp hbucket htable₁)
        (Nat.le_of_succ_le_succ hrounds)
      rw [firstHandle_used, ← hiter, hround, ← hcut]
      refine hrest.mono ?_
      rintro table' ⟨hn, hl, hh, ht, hf, hbuckets⟩
      refine ⟨hn, hl.trans hlength, hh.trans hhash, ht.trans htotal, hf.trans hfree, ?_⟩
      rwa [List.reverse_cons, List.append_assoc]

/-- **Rebuilding all chains**: the buckets are empty at first, and the walk fills them. -/
theorem rebuild_spec (hnodes : table.Nodes elems) (hnodup : elems.Nodup) (hpos : 0 < size)
    (hsize : size ≤ table.table.length)
    (hempty : ∀ b p : ℕ, table.table[b]? = some p → p = 0) (hrounds : elems.length ≤ rounds) :
    Returns (do
        let front ← vlHashTableFront table
        vlHashTableGrowLoop size rounds front table) fun table' =>
      table'.Nodes elems ∧ table'.table.length = table.table.length ∧
        table'.hashFunc = table.hashFunc ∧ table'.totalElements = table.totalElements ∧
        table'.SameSpace table ∧
        ∀ b p, table'.table[b]? = some p → table'.Bucket size elems b p := by
  obtain ⟨ts, hts, hperm⟩ := hnodes.arena
  -- the elements in the order of the arena
  have hcomp : Relation.Comp (· = List.map VlHashElement.block ·) List.Perm (blocks false 0 ts)
      elems := by
    rw [List.eq_map_comp_perm]
    exact hperm.symm
  obtain ⟨todo, htodo, hsame⟩ := hcomp
  have hts₀ : table.data.Tiled ([] ++ ts) := hts
  have hnodup₀ : (todo ++ []).Nodup := by
    rw [List.append_nil]
    exact hsame.nodup_iff.mpr hnodup
  have hloop := growLoop_spec hnodes hpos hsize hts₀ hperm htodo.symm
    (fun e he => hsame.mem_iff.mp he) (fun e he => absurd he List.not_mem_nil) hnodup₀
    (fun b p hp => hempty b p hp ▸ bucket_nil) (hsame.length_eq.trans_le hrounds)
  rw [vlHashTableFront_spec hts, ok_bind]
  refine hloop.mono fun table' ⟨hn, hlength, hhash, htotal, hfree, hbuckets⟩ =>
    ⟨hn, hlength, hhash, htotal, hfree, fun b p hp => (hbuckets b p hp).perm ?_⟩
  rw [List.append_nil]
  exact (List.reverse_perm todo).trans hsame

/-! ### The table grows -/

/-- **`vl_HashTableGrow`** doubles the number of buckets and fills them again. -/
theorem Inv.grow_rebuild (h : table.Inv elems) :
    Returns (vlHashTableGrow table) fun r => r.1 = 2 * table.table.length ∧ r.2.Nodes elems ∧
      r.2.table.length = 2 * table.table.length ∧ r.2.hashFunc = table.hashFunc ∧
      r.2.totalElements = table.totalElements ∧ r.2.SameSpace table ∧
      ∀ b p, r.2.table[b]? = some p → r.2.Bucket (2 * table.table.length) elems b p := by
  have hnonempty := h.nonempty
  have hlt := h.size_lt
  have hnew : 8 * table.table.length * 2 / 8 = 2 * table.table.length := by omega
  have hlength₀ : (List.replicate (2 * table.table.length) 0).length = 2 * table.table.length :=
    List.length_replicate
  rw [vlHashTableGrow, if_neg (by omega)]
  simp only [hnew]
  have hnodes₀ : Nodes { table with table := List.replicate (2 * table.table.length) 0 } elems :=
    h.nodes.congr rfl rfl
  have hloop := rebuild_spec hnodes₀ (List.Nodup.of_map _ h.nodup_key) (by omega) hlength₀.ge
    (fun b p hp => List.eq_of_mem_replicate (List.mem_of_getElem? hp)) h.total.ge
  rw [← bind_assoc]
  refine hloop.bind fun table' ⟨hn, hlength, hhash, htotal, hfree, hbuckets⟩ => ?_
  rw [hlength₀] at hlength
  exact returns_ok ⟨rfl, hn, hlength, hhash, htotal, hfree, hbuckets⟩

/-- As long as their number fits its type, more buckets are as good. -/
theorem Inv.grow_spec (h : table.Inv elems) (hsize : 2 * table.table.length < 2 ^ 32) :
    Returns (vlHashTableGrow table) fun r => r.1 = 2 * table.table.length ∧ r.2.Inv elems ∧
      r.2.table.length = 2 * table.table.length ∧ r.2.hashFunc = table.hashFunc ∧
      r.2.SameSpace table := by
  refine h.grow_rebuild.mono fun r ⟨hnew, hn, hlength, hhash, htotal, hfree, hbuckets⟩ =>
    ⟨hnew, ⟨hn, h.key_lt, h.nodup_key, htotal.trans h.total, ?_, ?_, ?_, ?_, ?_⟩, hlength, hhash,
      hfree⟩
  · have hload := h.load
    rw [hlength]
    omega
  · obtain ⟨k, hk⟩ := h.size_pow
    exact ⟨k + 1, by rw [hlength, hk, ← Nat.pow_succ', Nat.add_right_comm]⟩
  · rwa [hlength]
  · rw [hfree.2]
    exact h.space
  · rwa [hlength]

/-- **The first lines of an insertion**: with few enough elements, the number of buckets stays in its
type, and there is room for one more element. -/
theorem Inv.ensure_spec (h : table.Inv elems) (hroom : elems.length < 1717986918) :
    Returns (vlHashTableEnsure table) fun r => r.1 = r.2.tableSize ∧ r.2.Inv elems ∧
      5 * (elems.length + 1) < 4 * r.2.table.length ∧ r.2.hashFunc = table.hashFunc ∧
      r.2.SameSpace table := by
  have hlt := h.size_lt
  have hload := h.load
  have htotal := h.total_lt
  rw [vlHashTableEnsure, tableSize, Nat.mod_eq_of_lt hlt, h.total, Nat.mod_eq_of_lt (by omega)]
  split_ifs with hfull
  · refine (h.grow_spec (by omega)).bind ?_
    rintro r ⟨hsize, hinv, hlength, hhash, hfree⟩
    obtain ⟨k, hk⟩ := h.size_pow
    have hpos := Nat.two_pow_pos k
    rw [pow_add] at hk
    exact returns_ok ⟨by rw [hsize, tableSize, hlength], hinv, by rw [hlength]; omega, hhash,
      hfree⟩
  · refine returns_ok ⟨?_, h, ?_, rfl, ⟨rfl, rfl⟩⟩
    · rw [tableSize, Nat.mod_eq_of_lt hlt]
    · dsimp only
      omega

/-- **A full table** grows to `2 ^ 32` buckets, a number that its type cannot hold. -/
theorem Inv.ensure_full (h : table.Inv elems) (hfull : 1717986918 ≤ elems.length) :
    Returns (vlHashTableEnsure table) fun r => r.1 = 0 := by
  have hload := h.load
  have hlt := h.size_lt
  have htotal := h.total_lt
  have hsize : table.table.length = 2 ^ 31 := by
    obtain ⟨k, hk⟩ := h.size_pow
    rw [hk] at hlt hload
    have hle : k + 4 < 32 := (Nat.pow_lt_pow_iff_right (by norm_num)).mp hlt
    have hge : 30 < k + 4 := (Nat.pow_lt_pow_iff_right (by norm_num : 1 < 2)).mp (by omega)
    rw [hk, show k + 4 = 31 by omega]
  rw [vlHashTableEnsure, tableSize, Nat.mod_eq_of_lt hlt, h.total, Nat.mod_eq_of_lt (by omega),
    if_pos (by omega)]
  refine h.grow_rebuild.bind ?_
  rintro r ⟨hnew, -⟩
  refine returns_ok ?_
  rw [hnew, hsize]
  norm_num

end VlHashTable

end VeritableLasagna
