import VeritableLasagna.Arena.Coalesce

/-!
# The arena invariant

`arena.Tiled ts` is the **arena invariant**: the tiles `ts` cover the memory of the arena, no two
free tiles are neighbours, the free set lists exactly the free tiles, and every used tile starts
with a header that holds its size. `arena.Inv live` forgets the tiles and keeps the live blocks, in
any order; it is what clients of the arena reason with.

Memory becomes free in one way only: a node is inserted into the free set and coalesced
(`VlArena.addFree`). On tilings that is `Tiling.release` (`VlArena.addFree_spec`).
-/

namespace VeritableLasagna

open Tiling

variable {arena arena' : VlArena} {freeSet : VlSet VlArenaNode} {ts l₁ l₂ : List Tile}
  {live : List Block} {a b : Block} {n o : ℕ}

/-! ### The free set -/

/-- The free set lists the blocks `bs`, in order. -/
def FreeNodes (freeSet : VlSet VlArenaNode) (bs : List Block) : Prop :=
  ∃ l, FreeHolds freeSet l ∧ l.map Prod.snd = bs

/-- **The first free node**, if there is one. -/
theorem FreeNodes.front {bs : List Block} (h : FreeNodes freeSet bs) :
    (vlSetFront freeSet = .ok none ∧ bs = []) ∨
      ∃ i node rest, vlSetFront freeSet = .ok (some i) ∧
        vlSetSample freeSet (some i) = some node ∧ bs = node :: rest := by
  obtain ⟨l, hl, rfl⟩ := h
  rw [hl.front]
  cases l with
  | nil => exact Or.inl ⟨rfl, rfl⟩
  | cons e l => exact Or.inr ⟨e.1, e.2, _, rfl, hl.sample List.mem_cons_self, rfl⟩

/-- **Searching for an offset** finds the free node there, if there is one. -/
theorem FreeNodes.find {bs : List Block} (h : FreeNodes freeSet bs) (o : ℕ) :
    (vlSetFind freeSet ⟨o, 0⟩ = .ok none ∧ ∀ node ∈ bs, node.offset ≠ o) ∨
      ∃ i node, vlSetFind freeSet ⟨o, 0⟩ = .ok (some i) ∧
        vlSetSample freeSet (some i) = some node ∧ node ∈ bs ∧ node.offset = o := by
  obtain ⟨l, hl, rfl⟩ := h
  rw [hl.find vlArenaNodeCompare_lawful]
  cases hfind : l.find? fun e => vlArenaNodeCompare e.2 ⟨o, 0⟩ = 0 with
  | none =>
    refine Or.inl ⟨rfl, fun node hnode => ?_⟩
    obtain ⟨e, he, rfl⟩ := List.mem_map.mp hnode
    have hne := List.find?_eq_none.mp hfind e he
    rwa [decide_eq_true_eq, vlArenaNodeCompare_eq] at hne
  | some e =>
    have heq := List.find?_some hfind
    rw [decide_eq_true_eq, vlArenaNodeCompare_eq] at heq
    have he := List.mem_of_find?_eq_some hfind
    exact Or.inr ⟨e.1, e.2, rfl, hl.sample he, List.mem_map_of_mem he, heq⟩

/-- A list of blocks splits at an offset in one way. -/
private theorem split_at_offset {as bs cs ds : List Block} (heq : as ++ bs = cs ++ ds)
    (has : ∀ a ∈ as, a.offset < o) (hbs : ∀ b ∈ bs, o < b.offset)
    (hcs : ∀ c ∈ cs, c.offset < o) (hds : ∀ d ∈ ds, o < d.offset) : cs = as ∧ ds = bs := by
  rcases List.append_eq_append_iff.mp heq with ⟨xs, rfl, rfl⟩ | ⟨xs, rfl, rfl⟩
  · cases xs with
    | nil => simp
    | cons x xs =>
      have hlt := hcs x (by simp)
      have hgt := hbs x (by simp)
      omega
  · cases xs with
    | nil => simp
    | cons x xs =>
      have hlt := has x (by simp)
      have hgt := hds x (by simp)
      omega

/-- **Inserting a free node** puts it between the nodes with lower and with higher offsets. -/
theorem vlSetInsert_free {as bs : List Block} (h : FreeNodes freeSet (as ++ bs))
    (has : ∀ a ∈ as, a.offset < o) (hbs : ∀ b ∈ bs, o < b.offset) :
    Returns (vlSetInsert freeSet ⟨o, n⟩) fun r => ∃ m₁ m₂,
      FreeHolds r.2 (m₁ ++ (r.1, ⟨o, n⟩) :: m₂) ∧ m₁.map Prod.snd = as ∧ m₂.map Prod.snd = bs := by
  obtain ⟨l, hl, hmap⟩ := h
  have hnew : ∀ e ∈ l, vlArenaNodeCompare e.2 ⟨o, n⟩ ≠ 0 := by
    intro e he heq
    have hoff : e.2.offset = o := vlArenaNodeCompare_eq.mp heq
    have hmem : e.2 ∈ as ++ bs := hmap ▸ List.mem_map_of_mem he
    rcases List.mem_append.mp hmem with hmem | hmem
    · have := has _ hmem
      omega
    · have := hbs _ hmem
      omega
  refine (hl.insert vlArenaNodeCompare_lawful hnew).mono ?_
  rintro r ⟨m₁, m₂, rfl, hr⟩
  have hsorted := freeSorted_iff.mp hr.sorted
  rw [List.map_append, List.map_cons, List.pairwise_append] at hsorted
  obtain ⟨-, habove, hbelow⟩ := hsorted
  have habove := (List.pairwise_cons.mp habove).1
  rw [List.map_append] at hmap
  obtain ⟨h₁, h₂⟩ := split_at_offset hmap.symm has hbs
    (fun c hc => by
      obtain ⟨e, he, rfl⟩ := List.mem_map.mp hc
      exact hbelow _ (List.mem_map_of_mem he) _ List.mem_cons_self)
    (fun d hd => by
      obtain ⟨e, he, rfl⟩ := List.mem_map.mp hd
      exact habove _ (List.mem_map_of_mem he))
  exact ⟨m₁, m₂, hr, h₁, h₂⟩

/-- Free blocks before a tile start before it. -/
theorem offset_lt_span (hpos : Positive l₁) (ha : a ∈ blocks true 0 l₁) : a.offset < span l₁ := by
  obtain ⟨k₁, k₂, rfl, ho⟩ := mem_blocks.mp ha
  have hsize : 0 < a.size := (positive_cons.mp (positive_append.mp hpos).2).1
  rw [ho, span_append, span_cons_mk]
  omega

/-- **Adding a free node** releases its tile. -/
theorem VlArena.addFree_spec (arena : VlArena) (hpos₁ : Positive l₁) (hpos₂ : Positive l₂) (hn : 0 < n)
    (h : FreeNodes arena.freeSet (blocks true 0 l₁ ++ blocks true (span l₁ + n) l₂)) :
    Returns (arena.addFree ⟨span l₁, n⟩) fun a =>
      a.data = arena.data ∧ FreeNodes a.freeSet (blocks true 0 (release l₁ n l₂)) := by
  have hbs : ∀ b ∈ blocks true (span l₁ + n) l₂, span l₁ < b.offset := by
    intro b hb
    have := (blocks_bounds hb).1
    omega
  rw [VlArena.addFree]
  refine (vlSetInsert_free h (fun a ha => offset_lt_span hpos₁ ha) hbs).bind ?_
  rintro ⟨i, set⟩ ⟨m₁, m₂, hset, hm₁, hm₂⟩
  obtain ⟨pre, left, right, post, o, e, hl₁, hl₂, hrel, hleft, hright, hpre, hpost⟩ :=
    blocks_around_release l₁ l₂ n hpos₁ hpos₂
  -- the entries around the new one, split as the run of free blocks is
  obtain ⟨epre, eleft, rfl, rfl, rfl⟩ := List.map_eq_append_iff.mp (hm₁.trans hl₁)
  obtain ⟨eright, epost, rfl, rfl, rfl⟩ := List.map_eq_append_iff.mp (hm₂.trans hl₂)
  refine (vlHeapCoalesce_spec hset hleft hright
    (fun z hz => hpre z.2 (List.mem_map_of_mem hz))
    (fun z hz => hpost z.2 (List.mem_map_of_mem hz))).bind fun s ⟨j, hs⟩ => ?_
  refine returns_ok ⟨rfl, _, hs, ?_⟩
  rw [hrel, List.map_append, List.map_cons]

/-! ### The invariant -/

/-- The **arena invariant**, with the tiles. -/
structure VlArena.Tiled (arena : VlArena) (ts : List Tile) : Prop where
  span_eq : span ts = arena.data.size
  bound : arena.data.size < 2 ^ 63
  nonempty : 0 < arena.data.size
  positive : Positive ts
  coalesced : Coalesced ts
  free : FreeNodes arena.freeSet (blocks true 0 ts)
  header : ∀ b ∈ blocks false 0 ts, 8 < b.size ∧ arena.data.number b.offset 8 = b.size

/-- The **arena invariant**, as clients see it: the live blocks, in any order. -/
def VlArena.Inv (arena : VlArena) (live : List Block) : Prop :=
  ∃ ts, arena.Tiled ts ∧ live.Perm (blocks false 0 ts)

/-- The bytes of the given blocks, headers included, are what they were. -/
def VlArena.Keeps (arena' arena : VlArena) (live : List Block) : Prop :=
  ∀ b ∈ live, arena'.data.bytes.slice b.offset b.size = arena.data.bytes.slice b.offset b.size

theorem VlArena.Keeps.refl (arena : VlArena) (live : List Block) : arena.Keeps arena live :=
  fun _ _ => rfl

theorem VlArena.Keeps.trans {arena'' : VlArena} (h : arena''.Keeps arena' live)
    (h' : arena'.Keeps arena live) : arena''.Keeps arena live :=
  fun b hb => (h b hb).trans (h' b hb)

theorem VlArena.Keeps.of_eq (h : arena'.data.bytes = arena.data.bytes) :
    arena'.Keeps arena live := fun _ _ => by rw [h]

theorem VlArena.Keeps.subset {live' : List Block} (h : arena'.Keeps arena live)
    (hsub : ∀ b ∈ live', b ∈ live) : arena'.Keeps arena live' := fun b hb => h b (hsub b hb)

namespace VlArena.Inv

/-- The tile of a live block. -/
theorem exists_tile (h : arena.Inv live) (hb : b ∈ live) : ∃ l₁ l₂,
    arena.Tiled (l₁ ++ ⟨false, b.size⟩ :: l₂) ∧ b.offset = span l₁ ∧
      live.Perm (b :: (blocks false 0 l₁ ++ blocks false (span l₁ + b.size) l₂)) := by
  obtain ⟨ts, hts, hperm⟩ := h
  obtain ⟨l₁, l₂, rfl, ho⟩ := mem_blocks.mp (hperm.mem_iff.mp hb)
  rw [Nat.zero_add] at ho
  refine ⟨l₁, l₂, hts, ho, ?_⟩
  rw [blocks_append, blocks_cons_self, Nat.zero_add] at hperm
  have hblock : (⟨span l₁, b.size⟩ : Block) = b := Block.ext ho.symm rfl
  rw [hblock] at hperm
  exact hperm.trans List.perm_middle

theorem header (h : arena.Inv live) (hb : b ∈ live) :
    8 < b.size ∧ arena.data.number b.offset 8 = b.size := by
  obtain ⟨ts, hts, hperm⟩ := h
  exact hts.header b (hperm.mem_iff.mp hb)

theorem stop_le (h : arena.Inv live) (hb : b ∈ live) : b.stop ≤ arena.data.size := by
  obtain ⟨ts, hts, hperm⟩ := h
  rw [← hts.span_eq]
  simpa using (blocks_bounds (hperm.mem_iff.mp hb)).2

theorem bound (h : arena.Inv live) : arena.data.size < 2 ^ 63 := by
  obtain ⟨ts, hts, -⟩ := h
  exact hts.bound

/-- Live blocks share no address. -/
theorem pairwise (h : arena.Inv live) : live.Pairwise Block.Disjoint := by
  obtain ⟨ts, hts, hperm⟩ := h
  exact (hperm.pairwise_iff fun hab => hab.symm).mpr (blocks_sorted.imp fun hab => Or.inl hab)

theorem perm {live' : List Block} (h : arena.Inv live) (hp : live.Perm live') : arena.Inv live' := by
  obtain ⟨ts, hts, hperm⟩ := h
  exact ⟨ts, hts, hp.symm.trans hperm⟩

/-- The size stored at a live block. -/
theorem loadNumber (h : arena.Inv live) (hb : b ∈ live) :
    arena.data.loadNumber b.offset 8 = .ok b.size := by
  have hsize := (h.header hb).1
  have hstop := h.stop_le hb
  rw [Block.stop] at hstop
  rw [VlMemory.loadNumber_eq (by omega), (h.header hb).2]

end VlArena.Inv

/-- **`vlArenaMemSize`** reads the header. -/
theorem vlArenaMemSize_spec (h : arena.Inv live) (hb : b ∈ live) :
    vlArenaMemSize arena (b.offset + 8) = .ok (b.size - 8) := by
  have hsize := (h.header hb).1
  have hstop := h.stop_le hb
  have hbound := h.bound
  rw [Block.stop] at hstop
  rw [vlArenaMemSize, vlArenaMemHeader, if_pos (Nat.le_add_left 8 _), ok_bind,
    Nat.add_sub_cancel, h.loadNumber hb, ok_bind]
  refine congrArg Except.ok ?_
  omega

/-- The header of a block survives where its bytes do. -/
theorem VlArena.Keeps.header (h : arena'.Keeps arena live) (hb : b ∈ live) (hsize : 8 ≤ b.size) :
    arena'.data.number b.offset 8 = arena.data.number b.offset 8 := by
  have hslice := congrArg (List.take 8) (h b hb)
  rw [ByteMem.take_slice hsize, ByteMem.take_slice hsize] at hslice
  exact VlMemory.number_congr hslice

/-- Writing the header of one block: the others keep their bytes. -/
theorem VlArena.Keeps.write (arena : VlArena) (v : ℕ) (hd : ∀ c ∈ live, b.Disjoint c) (hsize : 8 ≤ b.size) :
    VlArena.Keeps
      { arena with data := { arena.data with bytes := arena.data.bytes.write b.offset (natToLE 8 v) } }
      arena live := by
  intro c hc
  refine ByteMem.slice_write_of_disjoint ?_
  rw [length_natToLE]
  rcases hd c hc with h | h
  · rw [Block.stop] at h
    exact Or.inr (by omega)
  · exact Or.inl h

/-- **Rewriting one header**: the block gets its new size, and the others keep theirs. -/
theorem VlArena.header_rewrite {v : ℕ}
    (hrest : ∀ c ∈ live, 8 < c.size ∧ arena.data.number c.offset 8 = c.size)
    (hd : ∀ c ∈ live, b.Disjoint c) (hb : 8 ≤ b.size) (hv : 8 < v) (hlt : v < 2 ^ 64)
    (hbytes : arena'.data.bytes = arena.data.bytes.write b.offset (natToLE 8 v)) :
    ∀ c ∈ (⟨b.offset, v⟩ : Block) :: live, 8 < c.size ∧ arena'.data.number c.offset 8 = c.size := by
  intro c hc
  rcases List.mem_cons.mp hc with rfl | hc
  · refine ⟨hv, ?_⟩
    have hread : (arena.data.bytes.write b.offset (natToLE 8 v)).slice b.offset
        (natToLE 8 v).length = natToLE 8 v := ByteMem.slice_write_self
    rw [length_natToLE] at hread
    rw [VlMemory.number, hbytes, hread, natOfLE_natToLE]
    exact Nat.mod_eq_of_lt (by simpa using hlt)
  · obtain ⟨hc8, hhead⟩ := hrest c hc
    have hkeep : arena'.Keeps arena live := by
      intro d hmem
      rw [hbytes]
      exact VlArena.Keeps.write arena v hd hb d hmem
    exact ⟨hc8, (hkeep.header hc hc8.le).trans hhead⟩

end VeritableLasagna
