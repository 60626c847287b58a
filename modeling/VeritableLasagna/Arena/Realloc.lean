import VeritableLasagna.Arena.Alloc

/-!
# Reallocation

Three of the four paths of `vlArenaMemRealloc` change the arena. Shrinking frees the end of the
block and growing takes memory from the free node behind it; either way the block stays where it is
and only its header is rewritten (`VlArena.Resized`). When there is no room behind the block, a new
one is allocated for a size that already includes the header, and the old block is copied into it
header and all (`VlArena.Moved`).
-/

namespace VeritableLasagna

open Tiling

variable {arena arena' : VlArena} {l₁ l₂ us : List Tile} {live : List Block} {b node : Block}
  {size : ℕ}

/-! ### Writing into a block -/

/-- **Writing into a used block**, behind its header, keeps the tiles. -/
theorem VlArena.Tiled.write {ts : List Tile} {p : ℕ} {bs : List UInt8} (hts : arena.Tiled ts)
    (hb : b ∈ blocks false 0 ts) (hp : b.offset + 8 ≤ p) (hstop : p + bs.length ≤ b.stop) :
    VlArena.Tiled
      { arena with data := { arena.data with bytes := arena.data.bytes.write p bs } } ts := by
  refine ⟨hts.span_eq, hts.bound, hts.nonempty, hts.positive, hts.coalesced, hts.free,
    fun c hc => ?_⟩
  obtain ⟨hsize, hheader⟩ := hts.header c hc
  refine ⟨hsize, Eq.trans (VlMemory.number_congr (ByteMem.slice_write_of_disjoint ?_)) hheader⟩
  have hpair : (blocks false 0 ts).Pairwise Block.Disjoint :=
    blocks_sorted.imp fun hab => Or.inl hab
  rcases eq_or_ne c b with rfl | hne
  · exact Or.inl hp
  · rcases hpair.forall hc hb hne with hd | hd
    · rw [Block.stop] at hd
      exact Or.inl (by omega)
    · exact Or.inr (by omega)

/-- The bytes of a live block behind its header may be written. -/
theorem VlArena.Inv.store (h : arena.Inv (b :: live)) {p : ℕ} {bs : List UInt8}
    (hp : b.offset + 8 ≤ p) (hstop : p + bs.length ≤ b.stop) :
    Returns (arena.data.store p bs) fun data =>
      VlArena.Inv { arena with data := data } (b :: live) ∧
        VlArena.Keeps { arena with data := data } arena live ∧
        data = { arena.data with bytes := arena.data.bytes.write p bs } := by
  have hsize := h.stop_le List.mem_cons_self
  have hdisj := (List.pairwise_cons.mp h.pairwise).1
  obtain ⟨ts, hts, hperm⟩ := h
  have hb := hperm.mem_iff.mp List.mem_cons_self
  refine ⟨_, VlMemory.store_eq (by omega), ⟨ts, hts.write hb hp hstop, hperm⟩, fun c hc => ?_, rfl⟩
  refine ByteMem.slice_write_of_disjoint ?_
  rcases hdisj c hc with hd | hd
  · exact Or.inr (by omega)
  · rw [Block.stop] at hd
    exact Or.inl (by omega)

/-! ### The paths that keep the block in its place -/

/-- The block `b` has got the size `size`: nothing but its header was written. -/
structure VlArena.Resized (arena' arena : VlArena) (b : Block) (size : ℕ) (live : List Block) :
    Prop where
  inv : arena'.Inv (⟨b.offset, size⟩ :: live)
  keeps : arena'.Keeps arena live
  bytes : arena'.data.bytes = arena.data.bytes.write b.offset (natToLE 8 size)
  capacity : arena'.data.size = arena.data.size

/-- A tiling in which the block has its new size, with the header written. -/
private theorem resized_of_tiling (us : List Tile) (h : arena.Inv (b :: live)) (hsize : 8 < size)
    (hspan : span us = arena.data.size) (hpos : Positive us) (hco : Coalesced us)
    (hused : List.Perm (⟨b.offset, size⟩ :: live) (blocks false 0 us))
    (hfree : FreeNodes arena'.freeSet (blocks true 0 us))
    (hdata : arena'.data =
      { arena.data with bytes := arena.data.bytes.write b.offset (natToLE 8 size) }) :
    arena'.Resized arena b size live := by
  have hbound := h.bound
  have hb := h.header List.mem_cons_self
  have hdisj := (List.pairwise_cons.mp h.pairwise).1
  have hstop : (⟨b.offset, size⟩ : Block).stop ≤ span us := by
    have hmem := hused.mem_iff.mp (List.mem_cons_self (a := (⟨b.offset, size⟩ : Block)))
    simpa using (blocks_bounds hmem).2
  have hnonempty : 0 < arena.data.size := by
    have hle := h.stop_le List.mem_cons_self
    rw [Block.stop] at hle
    omega
  simp only [Block.stop_mk] at hstop
  have hbytes : arena'.data.bytes = arena.data.bytes.write b.offset (natToLE 8 size) := by
    rw [hdata]
  have hheader := VlArena.header_rewrite
    (fun c hc => h.header (List.mem_cons_of_mem _ hc)) hdisj hb.1.le hsize (by omega) hbytes
  refine ⟨⟨us, ⟨?_, ?_, ?_, hpos, hco, hfree, fun c hc => ?_⟩, hused⟩, fun c hc => ?_, hbytes, by rw [hdata]⟩
  · rw [hdata, hspan]
  · rw [hdata]
    exact hbound
  · rw [hdata]
    exact hnonempty
  · exact hheader c (hused.mem_iff.mpr hc)
  · rw [hbytes]
    exact VlArena.Keeps.write arena size hdisj hb.1.le c hc

/-- **Shrinking** frees the end of the block. -/
theorem vlArenaMemShrink_spec (h : arena.Inv (b :: live)) (hsize : 8 < size) (hlt : size < b.size) :
    Returns (vlArenaMemShrink arena b.offset size b.size) fun r =>
      r.1 = b.offset + 8 ∧ r.2.Resized arena b size live := by
  obtain ⟨l₁, l₂, hts, ho, hperm⟩ := h.exists_tile List.mem_cons_self
  obtain ⟨hpos₁, hpos₂⟩ := positive_append.mp hts.positive
  have hpos₂ := (positive_cons.mp hpos₂).2
  obtain ⟨hco₁, hco₂⟩ := coalesced_used.mp hts.coalesced
  have hspan := hts.span_eq
  have hfree := hts.free
  rw [span_append, span_cons_mk] at hspan
  rw [blocks_append, blocks_true_cons_used, Nat.zero_add] at hfree
  -- the block is a shorter tile, and the end that it loses is released behind it
  have hpos : Positive (l₁ ++ [⟨false, size⟩]) := by simp [hpos₁]; omega
  have hfreed : FreeNodes arena.freeSet (blocks true 0 (l₁ ++ [⟨false, size⟩]) ++
      blocks true (span (l₁ ++ [⟨false, size⟩]) + (b.size - size)) l₂) := by
    have hend : span l₁ + size + (b.size - size) = span l₁ + b.size := by omega
    simpa [hend] using hfree
  have hadd := VlArena.addFree_spec arena hpos hpos₂ (by omega) hfreed
  have hend : span (l₁ ++ [⟨false, size⟩]) = b.offset + size := by simp [ho]
  rw [hend] at hadd
  rw [vlArenaMemShrink]
  refine hadd.bind fun a ⟨hdata, hfree'⟩ => ?_
  rw [VlMemory.storeNumber_eq (by rw [hdata]; omega), ok_bind]
  refine returns_ok ⟨rfl, resized_of_tiling _ h hsize ?_ (positive_release hpos hpos₂ (by omega))
    (coalesced_release ?_ hco₂) ?_ hfree' (by rw [hdata])⟩
  · rw [span_release]
    simp
    omega
  · exact coalesced_used.mpr ⟨hco₁, List.isChain_nil⟩
  · have hused := hperm.cons_inv
    have hend : span l₁ + size + (b.size - size) = span l₁ + b.size := by omega
    rw [blocks_release]
    simp only [blocks_append, blocks_cons_self, blocks_nil, span_append, span_cons_mk, span_nil,
      Nat.zero_add, Nat.add_zero, hend, List.append_assoc, List.singleton_append, ho]
    exact (hused.cons _).trans List.perm_middle.symm

/-- There is a free node of `n` bytes right behind the block: the free set and the tiling around
it. -/
structure VlArena.Behind (arena : VlArena) (b : Block) (live : List Block) (i : VlPoolIdx) (n : ℕ)
    (m₁ m₂ : List (VlPoolIdx × VlArenaNode)) (l₁ l₂ : List Tile) : Prop where
  free : FreeHolds arena.freeSet (m₁ ++ (i, ⟨b.stop, n⟩) :: m₂)
  before : m₁.map Prod.snd = blocks true 0 l₁
  behind : m₂.map Prod.snd = blocks true (b.stop + n) l₂
  tiled : arena.Tiled (l₁ ++ ⟨false, b.size⟩ :: ⟨true, n⟩ :: l₂)
  offset : b.offset = span l₁
  perm : live.Perm (blocks false 0 l₁ ++ blocks false (b.stop + n) l₂)

/-- The entry of the free set at the end of a block is the tile behind it. -/
theorem VlArena.Inv.behind (h : arena.Inv (b :: live)) {m₁ m₂ : List (VlPoolIdx × VlArenaNode)}
    {x : VlPoolIdx × VlArenaNode} (hfree : FreeHolds arena.freeSet (m₁ ++ x :: m₂))
    (hx : x.2.offset = b.stop) : ∃ l₁ l₂, arena.Behind b live x.1 x.2.size m₁ m₂ l₁ l₂ := by
  obtain ⟨l₁, r, hts, ho, hperm⟩ := h.exists_tile List.mem_cons_self
  obtain ⟨l, hl, hmap⟩ := hts.free
  obtain rfl := hl.unique hfree
  rw [List.map_append, List.map_cons] at hmap
  obtain ⟨k₁, k₂, hsplit, hoff, hbefore, hbehind⟩ := blocks_split hmap.symm
  -- the block and the free node lie end to end, so the tiling splits between them
  rw [List.append_cons] at hsplit
  have hspan : span (l₁ ++ [⟨false, b.size⟩]) = span k₁ := by
    rw [hx, Block.stop, ho, Nat.zero_add] at hoff
    simpa using hoff
  have hpos := hts.positive
  rw [List.append_cons] at hpos
  obtain ⟨rfl, rfl⟩ := append_inj_of_span hsplit hspan hpos
  have hnode : (⟨b.stop, x.2.size⟩ : Block) = x.2 := Block.ext hx.symm rfl
  refine ⟨l₁, k₂, ?_, ?_, ?_, hts, ho, ?_⟩
  · rwa [hnode]
  · rw [hbefore]
    simp
  · rw [hbehind, ← hspan, Block.stop, ho]
    simp
  · have hused := hperm.cons_inv
    rwa [blocks_false_cons_free, ← ho, ← Block.stop] at hused

/-- **Growing in place** takes what is needed from the free node behind the block. -/
theorem vlArenaMemExtend_spec (h : arena.Inv (b :: live)) {i : VlPoolIdx} {n : ℕ}
    {m₁ m₂ : List (VlPoolIdx × VlArenaNode)} (hbehind : arena.Behind b live i n m₁ m₂ l₁ l₂)
    (hgt : b.size < size) (hle : size ≤ n + b.size) :
    Returns (vlArenaMemExtend arena b.offset size b.size (some i) ⟨b.stop, n⟩) fun r =>
      r.1 = b.offset + 8 ∧ r.2.Resized arena b size live := by
  have hsize := (h.header List.mem_cons_self).1
  have hts := hbehind.tiled
  obtain ⟨hpos₁, hpos₂⟩ := positive_append.mp hts.positive
  have hpos₂ := (positive_cons.mp (positive_cons.mp hpos₂).2).2
  obtain ⟨hco₁, hco₂⟩ := coalesced_used.mp hts.coalesced
  have hsplit : Coalesced ([] ++ ⟨true, n⟩ :: l₂) := hco₂
  obtain ⟨-, hco₂, -, hfirst⟩ := coalesced_free.mp hsplit
  have hspan := hts.span_eq
  have hstop : b.stop = span l₁ + b.size := by rw [Block.stop, hbehind.offset]
  have hoff := hbehind.offset
  simp only [span_append, span_cons_mk] at hspan
  rw [vlArenaMemExtend]
  refine hbehind.free.remove.bind fun freeSet hfree => ?_
  dsimp only
  by_cases hexact : n + b.size = size
  · -- the whole node is needed
    rw [if_neg (not_not.mpr hexact), ok_bind, VlMemory.storeNumber_eq (by omega), ok_bind]
    have hend : span l₁ + size = b.stop + n := by omega
    refine returns_ok ⟨rfl, resized_of_tiling (l₁ ++ ⟨false, size⟩ :: l₂) h (by omega) ?_ ?_
      (coalesced_used.mpr ⟨hco₁, hco₂⟩) ?_ ⟨_, hfree, ?_⟩ rfl⟩
    · rw [span_append, span_cons_mk]
      omega
    · exact positive_append.mpr ⟨hpos₁, positive_cons.mpr ⟨by simp only; omega, hpos₂⟩⟩
    · rw [blocks_append, blocks_cons_self, Nat.zero_add, hend, hoff]
      exact (hbehind.perm.cons _).trans List.perm_middle.symm
    · rw [List.map_append, hbehind.before, hbehind.behind, blocks_append, blocks_true_cons_used,
        Nat.zero_add, hend]
  · -- the end of the node stays free
    have hpos : 0 < b.size + n - size := by omega
    have hend : span l₁ + size + (b.size + n - size) = b.stop + n := by omega
    have hnodes : FreeNodes freeSet (blocks true 0 l₁ ++ blocks true (b.stop + n) l₂) :=
      ⟨_, hfree, by rw [List.map_append, hbehind.before, hbehind.behind]⟩
    rw [if_pos hexact]
    obtain ⟨r, hr, e₁, e₂, hset, he₁, he₂⟩ := vlSetInsert_free (o := b.offset + size)
      (n := b.size + n - size) hnodes
      (fun a ha => (offset_lt_span hpos₁ ha).trans_le (by omega))
      (fun a ha => by
        have hbound := (blocks_bounds ha).1
        omega)
    rw [hr]
    change Returns (Except.ok r.2 >>= _) _
    rw [ok_bind, VlMemory.storeNumber_eq (by omega), ok_bind]
    refine returns_ok ⟨rfl, resized_of_tiling
      (l₁ ++ ⟨false, size⟩ :: ⟨true, b.size + n - size⟩ :: l₂) h (by omega) ?_ ?_ ?_ ?_
      ⟨_, hset, ?_⟩ rfl⟩
    · simp only [span_append, span_cons_mk]
      omega
    · exact positive_append.mpr ⟨hpos₁, positive_cons.mpr ⟨by simp only; omega,
        positive_cons.mpr ⟨hpos, hpos₂⟩⟩⟩
    · refine coalesced_used.mpr ⟨hco₁, ?_⟩
      exact (@coalesced_free _ [] _).mpr ⟨List.isChain_nil, hco₂, fun t ht => (by cases ht),
        hfirst⟩
    · rw [blocks_append, blocks_cons_self, blocks_false_cons_free, Nat.zero_add, hend, hoff]
      exact (hbehind.perm.cons _).trans List.perm_middle.symm
    · rw [List.map_append, List.map_cons, he₁, he₂, blocks_append, blocks_true_cons_used,
        blocks_cons_self, Nat.zero_add, hend, hoff]

/-! ### The path that moves the block -/

/-- The block `b` has been freed, and its bytes, header included, are the first bytes behind the
handle of a new one that has `size` bytes behind its own header. -/
structure VlArena.Moved (arena' arena : VlArena) (b : Block) (size ptr : ℕ) (live : List Block) :
    Prop where
  handle : 8 ≤ ptr
  inv : arena'.Inv (⟨ptr - 8, size + 8⟩ :: live)
  keeps : arena'.Keeps arena live
  copied : arena'.data.bytes.slice ptr b.size = arena.data.bytes.slice b.offset b.size

/-- **Moving** copies the block behind the header of the new one. -/
theorem vlArenaMemMove_spec (h : arena.Inv (b :: live)) (hgt : b.size < size)
    (hlt : size + 8 < 2 ^ 64) :
    Serves (vlArenaMemMove arena b.offset size b.size) fun r =>
      r.2.Moved arena b size r.1 live := by
  have hlast : ∀ c ∈ live, c ∈ b :: live := fun c hc => List.mem_cons_of_mem _ hc
  rw [vlArenaMemMove]
  refine (vlArenaMemAlloc_inv h (by omega) hlt).bind ?_
  rintro r ⟨hptr, hinv, hkeeps⟩
  dsimp only
  have hb := hinv.stop_le (List.mem_cons_of_mem _ List.mem_cons_self)
  rw [Block.stop] at hb
  rw [VlMemory.load_eq hb, ok_bind, hkeeps b List.mem_cons_self]
  have hfit : r.1 + (arena.data.bytes.slice b.offset b.size).length ≤
      (⟨r.1 - 8, size + 8⟩ : Block).stop := by
    rw [ByteMem.length_slice, Block.stop_mk]
    omega
  refine (hinv.store (by simp only; omega) hfit).serves.bind ?_
  rintro data ⟨hinv', hkeeps', hdata⟩
  -- the old block is still live, and is freed now
  have hfree := vlArenaMemFree_inv (hinv'.perm (List.Perm.swap b _ live))
  refine hfree.serves.bind ?_
  rintro arena' ⟨hinv'', hdata'⟩
  refine serves_ok ⟨hptr, hinv'', fun c hc => ?_, ?_⟩
  · rw [hdata']
    exact (hkeeps' c (hlast c hc)).trans (hkeeps c (hlast c hc))
  · rw [hdata', hdata]
    have hread : (r.2.data.bytes.write r.1 (arena.data.bytes.slice b.offset b.size)).slice r.1
        (arena.data.bytes.slice b.offset b.size).length = arena.data.bytes.slice b.offset b.size :=
      ByteMem.slice_write_self
    rwa [ByteMem.length_slice] at hread

/-! ### The paths put together -/

/-- Behind the block there is free memory for `size` bytes in all. -/
def roomBehind (nodes : List Block) (b : Block) (size : ℕ) : Prop :=
  ∃ node ∈ nodes, node.offset = b.stop ∧ size ≤ b.size + node.size

section Realloc

variable {nodes : List Block} {m : ℕ}

/-- What the call reads first: the header of the block. -/
private theorem vlArenaMemRealloc_header (h : arena.Inv (b :: live)) (hlt : m + 8 < 2 ^ 64) :
    vlArenaMemRealloc arena (b.offset + 8) m =
      if m + 8 = b.size then .ok (b.offset, arena)
      else if b.size > m + 8 then vlArenaMemShrink arena b.offset (m + 8) b.size
      else (do
        let rightIter ← vlSetFind arena.freeSet ⟨b.stop, 0⟩
        match rightIter with
        | none => vlArenaMemMove arena b.offset (m + 8) b.size
        | some i => do
          let rightNode ← deref (vlSetSample arena.freeSet (some i))
          if rightNode.size + b.size ≥ m + 8 then
            vlArenaMemExtend arena b.offset (m + 8) b.size (some i) rightNode
          else vlArenaMemMove arena b.offset (m + 8) b.size) := by
  rw [vlArenaMemRealloc, vlArenaMemHeader, if_pos (Nat.le_add_left 8 _), ok_bind,
    Nat.add_sub_cancel]
  simp only [Nat.mod_eq_of_lt hlt, h.loadNumber List.mem_cons_self, ok_bind]
  rfl

/-- **A request for the size the block has** returns the offset of its header. -/
theorem vlArenaMemRealloc_same (h : arena.Inv (b :: live)) (hlt : m + 8 < 2 ^ 64)
    (hm : m + 8 = b.size) : vlArenaMemRealloc arena (b.offset + 8) m = .ok (b.offset, arena) := by
  rw [vlArenaMemRealloc_header h hlt, if_pos hm]

/-- Searching the free set for the end of the block finds the node behind it, if there is one. -/
private theorem vlSetFind_behind (h : arena.Inv (b :: live)) (hnodes : FreeNodes arena.freeSet nodes) :
    (vlSetFind arena.freeSet ⟨b.stop, 0⟩ = .ok none ∧ ∀ node ∈ nodes, node.offset ≠ b.stop) ∨
      ∃ i n, vlSetFind arena.freeSet ⟨b.stop, 0⟩ = .ok (some i) ∧
        vlSetSample arena.freeSet (some i) = some ⟨b.stop, n⟩ ∧
        (∀ node ∈ nodes, node.offset = b.stop → node = ⟨b.stop, n⟩) ∧ ⟨b.stop, n⟩ ∈ nodes ∧
        ∃ m₁ m₂ l₁ l₂, arena.Behind b live i n m₁ m₂ l₁ l₂ := by
  obtain ⟨l, hl, rfl⟩ := hnodes
  rw [hl.find vlArenaNodeCompare_lawful]
  cases hfind : l.find? fun e => vlArenaNodeCompare e.2 ⟨b.stop, 0⟩ = 0 with
  | none =>
    refine Or.inl ⟨rfl, fun node hnode => ?_⟩
    obtain ⟨e, he, rfl⟩ := List.mem_map.mp hnode
    have hne := List.find?_eq_none.mp hfind e he
    rwa [decide_eq_true_eq, vlArenaNodeCompare_eq] at hne
  | some e =>
    have heq := List.find?_some hfind
    rw [decide_eq_true_eq, vlArenaNodeCompare_eq] at heq
    have he := List.mem_of_find?_eq_some hfind
    have hnode : (⟨b.stop, e.2.size⟩ : Block) = e.2 := Block.ext heq.symm rfl
    have hoffsets : (l.map fun e => e.2.offset).Nodup :=
      (freeSorted_iff.mp hl.sorted).imp fun hlt => hlt.ne
    refine Or.inr ⟨e.1, e.2.size, rfl, ?_, ?_, ?_, ?_⟩
    · rw [hnode]
      exact hl.sample he
    · intro node hmem hoff
      obtain ⟨e', he', rfl⟩ := List.mem_map.mp hmem
      rw [hnode, List.inj_on_of_nodup_map hoffsets he' he (hoff.trans heq.symm)]
    · rw [hnode]
      exact List.mem_map_of_mem he
    · obtain ⟨m₁, m₂, rfl⟩ := List.append_of_mem he
      exact ⟨m₁, m₂, h.behind hl heq⟩

/-- **The paths that keep the block in its place.** -/
theorem vlArenaMemRealloc_resized (h : arena.Inv (b :: live)) (hnodes : FreeNodes arena.freeSet nodes)
    (hpos : 0 < m) (hlt : m + 8 < 2 ^ 64)
    (hm : m + 8 < b.size ∨ b.size < m + 8 ∧ roomBehind nodes b (m + 8)) :
    Returns (vlArenaMemRealloc arena (b.offset + 8) m) fun r =>
      r.1 = b.offset + 8 ∧ r.2.Resized arena b (m + 8) live := by
  rw [vlArenaMemRealloc_header h hlt, if_neg (by omega)]
  rcases hm with hshrink | ⟨hgrow, node, hmem, hoff, hroom⟩
  · rw [if_pos hshrink]
    exact vlArenaMemShrink_spec h (by omega) hshrink
  · rw [if_neg (by omega)]
    rcases vlSetFind_behind h hnodes with ⟨-, hno⟩ | ⟨i, n, hfind, hsample, huniq, -, hbehind⟩
    · exact absurd hoff (hno node hmem)
    · obtain rfl := huniq node hmem hoff
      obtain ⟨m₁, m₂, l₁, l₂, hbehind⟩ := hbehind
      rw [hfind, ok_bind]
      dsimp only
      rw [hsample, deref_some, ok_bind, if_pos (by simp only at hroom ⊢; omega)]
      exact vlArenaMemExtend_spec h hbehind hgrow (by simp only at hroom; omega)

/-- **The path that moves the block.** -/
theorem vlArenaMemRealloc_moved (h : arena.Inv (b :: live)) (hnodes : FreeNodes arena.freeSet nodes)
    (hlt : m + 16 < 2 ^ 64) (hgrow : b.size < m + 8) (hroom : ¬ roomBehind nodes b (m + 8)) :
    Serves (vlArenaMemRealloc arena (b.offset + 8) m) fun r =>
      r.2.Moved arena b (m + 8) r.1 live := by
  have hmove := vlArenaMemMove_spec h hgrow (by omega)
  rw [vlArenaMemRealloc_header h (by omega), if_neg (by omega), if_neg (by omega)]
  rcases vlSetFind_behind h hnodes with ⟨hfind, -⟩ | ⟨i, n, hfind, hsample, -, hmem, -⟩
  · rw [hfind, ok_bind]
    exact hmove
  · rw [hfind, ok_bind]
    dsimp only
    rw [hsample, deref_some, ok_bind, if_neg]
    · exact hmove
    · intro hle
      exact hroom ⟨_, hmem, rfl, by simp only at hle ⊢; omega⟩

end Realloc

end VeritableLasagna
