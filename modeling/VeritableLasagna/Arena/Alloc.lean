import VeritableLasagna.Arena.Invariant

/-!
# Allocation and release

`vlArenaMemAlloc` performs one `Tiling.Allocates` step, or fails because the grown memory would not
fit 64 bits (`vlArenaMemAlloc_spec`); `vlArenaMemFree` releases the tile of its block
(`vlArenaMemFree_spec`). Neither touches a byte of another live block. `vlArenaInit`,
`vlArenaClear` and `vlArenaReserve` establish or keep the invariant.
-/

namespace VeritableLasagna

open Tiling

variable {arena arena' : VlArena} {ts us l₁ l₂ : List Tile} {live : List Block} {b : Block}
  {size n o : ℕ} {seen rest : List (VlPoolIdx × VlArenaNode)}

/-- What an allocation of `size` bytes, header included, does to an arena with the tiles `ts`. -/
structure VlArena.Allocated (arena' arena : VlArena) (ts : List Tile) (size ptr : ℕ)
    (us : List Tile) : Prop where
  handle : 8 ≤ ptr
  allocates : Allocates size ts us (ptr - 8)
  tiled : arena'.Tiled us
  bytes : arena'.data.bytes = arena.data.bytes.write (ptr - 8) (natToLE 8 size)

/-- Other blocks keep their bytes. -/
theorem VlArena.Allocated.keeps (h : arena'.Allocated arena ts size o us) (hsize : 8 ≤ size) :
    arena'.Keeps arena (blocks false 0 ts) := by
  intro b hb
  have hkeep := VlArena.Keeps.write arena size
    (fun c hc => h.allocates.disjoint hc) hsize b hb
  rwa [h.bytes]

/-- An allocated tile with its header written makes a tiled arena again. -/
private theorem allocated_of_free (hts : arena.Tiled ts) (hall : Allocates size ts us o)
    (hsize : 8 < size) (hlt : size < 2 ^ 64)
    (hbytes : arena'.data.bytes = arena.data.bytes.write o (natToLE 8 size))
    (hspan : arena'.data.size = span us) (hbound : span us < 2 ^ 63)
    (hfree : FreeNodes arena'.freeSet (blocks true 0 us)) :
    arena'.Allocated arena ts size (o + 8) us := by
  refine ⟨Nat.le_add_left _ _, by rwa [Nat.add_sub_cancel], ?_, by rwa [Nat.add_sub_cancel]⟩
  have hnonempty := hts.nonempty
  have hgrow := hall.span_le
  have hspan' := hts.span_eq
  have hhead := VlArena.header_rewrite (b := ⟨o, size⟩) hts.header (fun c hc => hall.disjoint hc)
    hsize.le hsize hlt hbytes
  exact ⟨hspan.symm, by omega, by omega, hall.positive hts.positive (by omega),
    hall.coalesced hts.coalesced, hfree, fun c hc => hhead c (hall.perm.mem_iff.mp hc)⟩

/-- The search of `vlArenaMemAlloc` takes the first node that is large enough, or finds that none
is. -/
private theorem vlArenaMemAllocLoop_spec (seen : List (VlPoolIdx × VlArenaNode)) (hts : arena.Tiled ts)
    (hsize : 8 < size) (hlt : size < 2 ^ 64) (fuel : ℕ) (hl : FreeHolds arena.freeSet (seen ++ rest))
    (hmap : (seen ++ rest).map Prod.snd = blocks true 0 ts)
    (hsmall : ∀ x ∈ seen, x.2.size < size) (hfuel : rest.length ≤ fuel) :
    Returns (vlArenaMemAllocLoop arena size fuel (firstIter rest)) fun r =>
      (r = none ∧ ∀ b ∈ blocks true 0 ts, b.size < size) ∨
        ∃ p a us, r = some (p, a) ∧ a.Allocated arena ts size p us ∧
          a.data.size = arena.data.size := by
  induction rest generalizing seen fuel with
  | nil =>
    have hnone : vlArenaMemAllocLoop arena size fuel none = .ok none := by
      cases fuel with
      | zero => rfl
      | succ fuel => rfl
    refine ⟨none, hnone, Or.inl ⟨rfl, fun b hb => ?_⟩⟩
    rw [← hmap, List.append_nil] at hb
    obtain ⟨x, hx, rfl⟩ := List.mem_map.mp hb
    exact hsmall x hx
  | cons x rest ih =>
    obtain ⟨fuel, rfl⟩ : ∃ k, fuel = k + 1 := ⟨fuel - 1, by simp at hfuel; omega⟩
    have hx : vlSetSample arena.freeSet (some x.1) = some x.2 := hl.sample (by simp)
    rw [firstIter_cons, vlArenaMemAllocLoop, hx, deref_some, ok_bind]
    -- the node is a free tile
    rw [List.map_append, List.map_cons] at hmap
    obtain ⟨l₁, l₂, rfl, ho, hseen, hrest⟩ := blocks_split hmap.symm
    simp only [Nat.zero_add] at ho hrest
    have hspan := hts.span_eq
    have hbound := hts.bound
    simp only [span_append, span_cons_mk] at hspan
    split_ifs with heq hgt
    · have hall : Allocates size (l₁ ++ ⟨true, x.2.size⟩ :: l₂) (l₁ ++ (carve x.2.size size ++ l₂))
          (span l₁ + (x.2.size - size)) := .fit l₁ l₂ _ heq.ge
      refine hl.remove.bind fun freeSet hfree => ?_
      rw [VlMemory.storeNumber_eq (by omega), ok_bind]
      refine returns_ok (Or.inr ⟨_, _, l₁ ++ (carve x.2.size size ++ l₂), rfl, ?_, rfl⟩)
      have hoff : x.2.offset = span l₁ + (x.2.size - size) := by omega
      rw [hoff]
      refine allocated_of_free hts hall hsize hlt rfl ?_ ?_ ⟨_, hfree, ?_⟩
      · simp only [span_append, span_carve heq.ge]
        omega
      · simp only [span_append, span_carve heq.ge]
        omega
      · rw [List.map_append, hseen, hrest, blocks_append, blocks_append, blocks_true_carve,
          if_pos heq, span_carve heq.ge, List.nil_append, Nat.zero_add]
    · have hall : Allocates size (l₁ ++ ⟨true, x.2.size⟩ :: l₂) (l₁ ++ (carve x.2.size size ++ l₂))
          (span l₁ + (x.2.size - size)) := .fit l₁ l₂ _ hgt.le
      refine (hl.resize (x.2.size - size)).bind fun freeSet hfree => ?_
      rw [VlMemory.storeNumber_eq (by omega), ok_bind]
      refine returns_ok (Or.inr ⟨_, _, l₁ ++ (carve x.2.size size ++ l₂), rfl, ?_, rfl⟩)
      rw [ho]
      refine allocated_of_free hts hall hsize hlt rfl ?_ ?_ ⟨_, hfree, ?_⟩
      · simp only [span_append, span_carve hgt.le]
        omega
      · simp only [span_append, span_carve hgt.le]
        omega
      · rw [List.map_append, List.map_cons, hseen, hrest, blocks_append, blocks_append,
          blocks_true_carve, if_neg heq, span_carve hgt.le, Nat.zero_add, ho]
        rfl
    · have hl' : FreeHolds arena.freeSet ((seen ++ [x]) ++ rest) := by simpa using hl
      rw [hl.next, ok_bind]
      refine ih _ fuel hl' (by simpa using hmap) ?_ (by simpa using hfuel)
      intro y hy
      rcases List.mem_append.mp hy with hy | hy
      · exact hsmall y hy
      · rw [List.mem_singleton.mp hy]
        omega

/-- The growth of `vlArenaMemAlloc` frees the new memory but its end. -/
private theorem vlArenaMemAllocGrow_spec (hts : arena.Tiled ts) (hsize : 8 < size)
    (hlt : size < 2 ^ 64) (hsmall : ∀ b ∈ blocks true 0 ts, b.size < size) :
    ServesUnless (2 ^ 62 ≤ arena.data.size + size) (vlArenaMemAllocGrow arena size) fun r =>
      ∃ us, r.2.Allocated arena ts size r.1 us ∧
        r.2.data.size ≤ 2 * (arena.data.size + size) := by
  have hspan := hts.span_eq
  rw [vlArenaMemAllocGrow, Nat.add_comm arena.data.size]
  refine ServesUnless.bind (vlMemDouble_servesUnless hts.nonempty hts.bound)
    fun newSize (hnew : _ ∧ _ ∧ _ ∧ _) => ?_
  obtain ⟨hgt, hle, hbound, hmax⟩ := hnew
  simp only [vlMemSize] at hgt hmax
  simp only [vlMemSize, vlMemGrow_eq]
  set n := newSize - arena.data.size - size with hn
  have hpos : 0 < n := by omega
  have hfree : FreeNodes arena.freeSet
      (blocks true 0 ts ++ blocks true (span ts + n) [⟨false, size⟩]) := by
    simpa using hts.free
  have hadd := VlArena.addFree_spec
    { arena with data := { arena.data with size := newSize } }
    hts.positive (by simp; omega) hpos hfree
  rw [hspan] at hadd
  refine hadd.servesUnless.bind fun a ⟨hdata, hfree'⟩ => ?_
  have hasize : a.data.size = newSize := by rw [hdata]
  rw [VlMemory.storeNumber_eq (by omega), ok_bind]
  have hall : Allocates size ts (release ts n [⟨false, size⟩]) (span ts + n) :=
    .grow ts n hpos hsmall
  have hspan' : span (release ts n [⟨false, size⟩]) = newSize := by
    rw [span_release, span_cons_mk, span_nil]
    omega
  refine Or.inr ⟨_, rfl, release ts n [⟨false, size⟩], ?_, by dsimp only; omega⟩
  rw [← hspan]
  refine allocated_of_free hts hall hsize hlt ?_ ?_ (by omega) hfree'
  · rw [hdata]
  · rw [hspan']
    exact hasize

/-- **`vlArenaMemAlloc`** performs an allocation, and the memory grows only when no free node is
large enough. It can run out of memory only at the end of the address space. -/
theorem vlArenaMemAlloc_grows (hts : arena.Tiled ts) (hsize : 0 < size)
    (hlt : size + 8 < 2 ^ 64) :
    ServesUnless (2 ^ 62 ≤ arena.data.size + (size + 8)) (vlArenaMemAlloc arena size) fun r =>
      ∃ us, r.2.Allocated arena ts (size + 8) r.1 us ∧ (r.2.data.size = arena.data.size ∨
        (∀ b ∈ blocks true 0 ts, b.size < size + 8) ∧
          r.2.data.size ≤ 2 * (arena.data.size + (size + 8))) := by
  obtain ⟨l, hl, hmap⟩ := hts.free
  rw [vlArenaMemAlloc, if_neg hsize.ne', hl.front, ok_bind]
  simp only [Nat.mod_eq_of_lt hlt]
  refine (vlArenaMemAllocLoop_spec [] hts (by omega) hlt _ hl hmap (by simp)
    hl.totalElements.ge).servesUnless.bind ?_
  rintro r (⟨rfl, hsmall⟩ | ⟨p, a, us, rfl, halloc, hsame⟩)
  · exact (vlArenaMemAllocGrow_spec hts (by omega) hlt hsmall).mono
      fun r ⟨us, halloc, hle⟩ => ⟨us, halloc, Or.inr ⟨hsmall, hle⟩⟩
  · exact Or.inr ⟨_, rfl, us, halloc, Or.inl hsame⟩

/-- **`vlArenaMemAlloc`** performs an allocation, or runs out of memory. -/
theorem vlArenaMemAlloc_spec (hts : arena.Tiled ts) (hsize : 0 < size)
    (hlt : size + 8 < 2 ^ 64) :
    Serves (vlArenaMemAlloc arena size) fun r =>
      ∃ us, r.2.Allocated arena ts (size + 8) r.1 us :=
  ((vlArenaMemAlloc_grows hts hsize hlt).mono fun _ ⟨us, halloc, _⟩ => ⟨us, halloc⟩).serves

/-- **How far the memory grows** by an allocation: not beyond four times the blocks, each taken as large
as the largest. -/
def VlArena.GrowsTo (arena' arena : VlArena) (live : List Block) (size : ℕ) : Prop :=
  ∀ m, size ≤ m → (∀ b ∈ live, b.size ≤ m) →
    arena'.data.size ≤ max arena.data.size (4 * (live.length + 1) * m)

/-- **`vlArenaMemAlloc`** for a client: a new live block, and the others untouched. -/
theorem vlArenaMemAlloc_served (h : arena.Inv live) (hsize : 0 < size) (hlt : size + 8 < 2 ^ 64) :
    ServesUnless (2 ^ 62 ≤ arena.data.size + (size + 8)) (vlArenaMemAlloc arena size) fun r =>
      8 ≤ r.1 ∧ r.2.Inv (⟨r.1 - 8, size + 8⟩ :: live) ∧ r.2.Keeps arena live ∧
        r.2.GrowsTo arena live (size + 8) := by
  obtain ⟨ts, hts, hperm⟩ := h
  refine (vlArenaMemAlloc_grows hts hsize hlt).mono fun r ⟨us, hr, hgrow⟩ =>
    ⟨hr.handle, ?_, ?_, fun m hm hlive => ?_⟩
  · exact ⟨us, hr.tiled, (hperm.cons _).trans hr.allocates.perm.symm⟩
  · exact (hr.keeps (Nat.le_add_left 8 _)).subset fun b hb => hperm.mem_iff.mp hb
  · rcases hgrow with hsame | ⟨hsmall, hle⟩
    · exact hsame.trans_le (Nat.le_max_left _ _)
    · -- no free tile is large enough, so most of the memory is in use
      have hspan := (span_le_of_coalesced hts.coalesced (fun b hb => (hsmall b hb).le.trans hm)
        (fun b hb => hlive b (hperm.mem_iff.mpr hb))).1
      rw [← hperm.length_eq, hts.span_eq] at hspan
      refine le_max_of_le_right (hle.trans ?_)
      calc 2 * (arena.data.size + (size + 8)) ≤ 2 * ((2 * live.length + 1) * m + m) := by omega
        _ = 4 * (live.length + 1) * m := by ring

theorem vlArenaMemAlloc_inv (h : arena.Inv live) (hsize : 0 < size) (hlt : size + 8 < 2 ^ 64) :
    Serves (vlArenaMemAlloc arena size) fun r =>
      8 ≤ r.1 ∧ r.2.Inv (⟨r.1 - 8, size + 8⟩ :: live) ∧ r.2.Keeps arena live :=
  ((vlArenaMemAlloc_served h hsize hlt).mono fun _ hr => ⟨hr.1, hr.2.1, hr.2.2.1⟩).serves

/-! ### Release -/

/-- Releasing a used tile makes a tiled arena again. -/
theorem VlArena.Tiled.release (hts : arena.Tiled (l₁ ++ ⟨false, n⟩ :: l₂))
    (hdata : arena'.data = arena.data)
    (hfree : FreeNodes arena'.freeSet (blocks true 0 (Tiling.release l₁ n l₂))) :
    arena'.Tiled (Tiling.release l₁ n l₂) := by
  obtain ⟨hpos₁, hpos₂⟩ := positive_append.mp hts.positive
  obtain ⟨hn, hpos₂⟩ := positive_cons.mp hpos₂
  obtain ⟨hco₁, hco₂⟩ := coalesced_used.mp hts.coalesced
  refine ⟨?_, hdata ▸ hts.bound, hdata ▸ hts.nonempty, positive_release hpos₁ hpos₂ hn,
    coalesced_release hco₁ hco₂, hfree, fun b hb => ?_⟩
  · rw [hdata, ← hts.span_eq, span_release, span_append, span_cons_mk, Nat.add_assoc]
  · rw [hdata]
    refine hts.header b ?_
    rw [blocks_release] at hb
    rw [blocks_append, blocks_cons_self, List.mem_append, List.mem_cons]
    exact (List.mem_append.mp hb).imp id Or.inr

/-- **`vlArenaMemFree`** releases a live block and changes no byte. -/
theorem vlArenaMemFree_inv (h : arena.Inv (b :: live)) :
    Returns (vlArenaMemFree arena (b.offset + 8)) fun a => a.Inv live ∧ a.data = arena.data := by
  obtain ⟨l₁, l₂, hts, ho, hperm⟩ := h.exists_tile List.mem_cons_self
  have hsize := (h.header List.mem_cons_self).1
  obtain ⟨hpos₁, hpos₂⟩ := positive_append.mp hts.positive
  have hfree := hts.free
  rw [blocks_append, blocks_true_cons_used, Nat.zero_add] at hfree
  rw [vlArenaMemFree, vlArenaMemHeader, if_pos (Nat.le_add_left 8 _), ok_bind,
    Nat.add_sub_cancel, h.loadNumber List.mem_cons_self, ok_bind, if_neg (by omega), ho]
  refine (VlArena.addFree_spec _ hpos₁ (positive_cons.mp hpos₂).2 (by omega) hfree).mono ?_
  rintro a ⟨hdata, hfree'⟩
  refine ⟨⟨_, hts.release hdata hfree', ?_⟩, hdata⟩
  rw [blocks_release, Nat.zero_add]
  exact hperm.cons_inv

/-! ### Initialisation and growth -/

/-- An arena whose only tile is free. -/
private theorem tiled_free {freeSet : VlSet VlArenaNode} (mem : VlMemory) {i : VlPoolIdx}
    (hpos : 0 < mem.size) (hbound : mem.size < 2 ^ 63)
    (hfree : FreeHolds freeSet [(i, ⟨0, mem.size⟩)]) :
    VlArena.Tiled { data := mem, freeSet } [⟨true, mem.size⟩] :=
  ⟨by simp, hbound, hpos, by simpa using hpos, List.isChain_singleton _, ⟨_, hfree, by simp⟩,
    by simp⟩

/-- Insertion into an empty free set. -/
private theorem vlSetInsert_empty {freeSet : VlSet VlArenaNode} (h : FreeHolds freeSet [])
    (node : VlArenaNode) :
    Returns (vlSetInsert freeSet node) fun r => FreeHolds r.2 [(r.1, node)] := by
  refine (h.insert vlArenaNodeCompare_lawful (by simp)).mono ?_
  rintro r ⟨m₁, m₂, hnil, hr⟩
  obtain ⟨rfl, rfl⟩ := List.append_eq_nil_iff.mp hnil.symm
  exact hr

/-- **`vlArenaInit`** starts with one free tile. -/
theorem vlArenaInit_spec {contents : ByteMem} (hpos : 0 < size) (hbound : size < 2 ^ 63) :
    Returns (vlArenaInit contents size) fun a =>
      a.Tiled [⟨true, size⟩] ∧ a.data = ⟨contents, size⟩ := by
  have hempty : FreeHolds (vlSetInit vlArenaNodeSize vlArenaNodeCompare) [] :=
    vlSetInit_holds vlArenaNodeCompare (by decide)
  refine (vlSetInsert_empty hempty ⟨0, size⟩).bind ?_
  rintro ⟨i, freeSet⟩ hfree
  exact returns_ok ⟨tiled_free ⟨contents, size⟩ hpos hbound hfree, rfl⟩

/-- **`vlArenaClear`** leaves one free tile. -/
theorem vlArenaClear_spec (h : arena.Inv live) :
    Returns (vlArenaClear arena) fun a => a.Tiled [⟨true, arena.data.size⟩] ∧ a.data = arena.data := by
  obtain ⟨ts, hts, -⟩ := h
  obtain ⟨l, hl, -⟩ := hts.free
  refine hl.clear.bind fun s hs => ?_
  refine (vlSetInsert_empty hs ⟨0, arena.data.size⟩).bind ?_
  rintro ⟨i, freeSet⟩ hfree
  exact returns_ok ⟨tiled_free _ hts.nonempty hts.bound hfree, rfl⟩

/-- **`vlArenaTotalFree`** adds the sizes of the free tiles up. -/
theorem vlArenaTotalFree_spec (hts : arena.Tiled ts) :
    vlArenaTotalFree arena = .ok ((blocks true 0 ts).map Block.size).sum := by
  obtain ⟨l, hl, hmap⟩ := hts.free
  have hsum := sum_blocks 0 ts
  have hbound := hts.bound
  have hspan := hts.span_eq
  rw [← hmap, List.map_map] at hsum ⊢
  have hloop : ∀ (seen rest : List (VlPoolIdx × VlArenaNode)) (n : ℕ), l = seen ++ rest →
      n + (rest.map (Block.size ∘ Prod.snd)).sum < 2 ^ 64 →
      (rest.map Prod.fst).foldlM (fun sum iter => do
        let node ← deref (vlSetSample arena.freeSet (some iter))
        return (sum + node.size) % 2 ^ 64) n =
      (.ok (n + (rest.map (Block.size ∘ Prod.snd)).sum) : Except Fault ℕ) := by
    intro seen rest
    induction rest generalizing seen with
    | nil =>
      intro n _ _
      rfl
    | cons x rest ih =>
      intro n hsplit hlt
      have hx : vlSetSample arena.freeSet (some x.1) = some x.2 := hl.sample (by simp [hsplit])
      simp only [List.map_cons, List.sum_cons, Function.comp_apply] at hlt ⊢
      rw [List.foldlM_cons, hx, deref_some, ok_bind, pure_eq_ok, ok_bind,
        Nat.mod_eq_of_lt (by omega), ih (seen ++ [x]) _ (by simpa using hsplit) (by omega),
        Nat.add_assoc]
  rw [vlArenaTotalFree, hl.foreach, ok_bind, hloop [] l 0 rfl (by omega), Nat.zero_add]

/-- **`vlArenaReserve`** frees new memory behind the old, or runs out of memory. -/
theorem vlArenaReserve_inv (h : arena.Inv live) (numBytes : ℕ) :
    Serves (vlArenaReserve arena numBytes) fun a =>
      a.Inv live ∧ a.data.bytes = arena.data.bytes ∧ arena.data.size ≤ a.data.size := by
  obtain ⟨ts, hts, hperm⟩ := h
  have hspan := hts.span_eq
  rw [vlArenaReserve, vlArenaTotalFree_spec hts, ok_bind]
  dsimp only
  refine (vlMemDouble_spec hts.nonempty hts.bound).bind fun newSize ⟨hgt, hle, hbound, _⟩ => ?_
  simp only [vlMemSize] at hgt
  simp only [vlMemSize, vlMemGrow_eq]
  -- the new memory as a used tile, so that releasing it is what the source does
  set n := newSize - arena.data.size with hn
  have hfree : FreeNodes arena.freeSet (blocks true 0 ts ++ blocks true (span ts + n) []) := by
    simpa using hts.free
  have hadd := VlArena.addFree_spec
    { arena with data := { arena.data with size := newSize } }
    hts.positive positive_nil (by omega) hfree
  rw [hspan] at hadd
  refine hadd.serves.mono fun a ⟨hdata, hfree'⟩ => ?_
  refine ⟨⟨release ts n [], ⟨?_, by rw [hdata]; exact hbound, by rw [hdata]; simp only; omega,
    positive_release hts.positive positive_nil (by omega),
    coalesced_release hts.coalesced List.isChain_nil, hfree', ?_⟩, ?_⟩, by rw [hdata],
    by rw [hdata]; exact hle⟩
  · rw [span_release, hdata, span_nil]
    simp only
    omega
  · intro b hb
    rw [blocks_release, blocks_nil, List.append_nil] at hb
    rw [hdata]
    exact hts.header b hb
  · rwa [blocks_release, blocks_nil, List.append_nil]

end VeritableLasagna
