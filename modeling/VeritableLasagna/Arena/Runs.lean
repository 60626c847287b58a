import VeritableLasagna.Arena.Realloc

/-!
# Runs of the arena

A run starts at `vlArenaInit` and allocates, frees, reallocates, reserves and clears, in any order,
and in between the client writes into its blocks. Next to the arena, a state keeps the handles the
client holds.

`vlArena_partitioned` says that in every state a run reaches the free nodes and the blocks of the
handles partition the memory, and that an operation leaves the blocks of other handles alone.
`reallocContract_iff` says which requests `vlArenaMemRealloc` serves as its callers expect.
-/

namespace VeritableLasagna

open Tiling

/-- The block behind a handle, as its header tells. -/
def VlArena.block (arena : VlArena) (ptr : ℕ) : Block := ⟨ptr - 8, arena.data.number (ptr - 8) 8⟩

/-- The nodes of the free set, in order. -/
def VlArena.freeNodes (arena : VlArena) : Except Fault (List VlArenaNode) := do
  let iters ← vlSetForeach .left arena.freeSet
  iters.mapM fun iter => deref (vlSetSample arena.freeSet (some iter))

/-- The operations of a client of the arena. -/
inductive VlArenaOp
  | alloc (size : ℕ)
  | free (ptr : ℕ)
  | realloc (ptr size : ℕ)
  | reserve (numBytes : ℕ)
  | clear
  | write (ptr offset : ℕ) (bs : List UInt8)

/-- The operation is about the block of the handle. -/
def VlArenaOp.Touches : VlArenaOp → ℕ → Prop
  | alloc _, _ | reserve _, _ => False
  | free p, q | realloc p _, q | write p _ _, q => q = p
  | clear, _ => True

/-- An arena together with the handles of its client, newest first. -/
structure ArenaState where
  arena : VlArena
  live : List ℕ

/-- One operation, with the bookkeeping of the handles. A client that asks for the size its block
has already keeps its handle. -/
def arenaStep (s : ArenaState) : VlArenaOp → Except Fault ArenaState
  | .alloc size => do
    let (ptr, arena) ← vlArenaMemAlloc s.arena size
    return ⟨arena, ptr :: s.live⟩
  | .free ptr => do
    let arena ← vlArenaMemFree s.arena ptr
    return ⟨arena, s.live.erase ptr⟩
  | .realloc ptr size => do
    let origSize ← vlArenaMemSize s.arena ptr
    let (result, arena) ← vlArenaMemRealloc s.arena ptr size
    return ⟨arena, if origSize = size then s.live else result :: s.live.erase ptr⟩
  | .reserve numBytes => do
    let arena ← vlArenaReserve s.arena numBytes
    return ⟨arena, s.live⟩
  | .clear => do
    let arena ← vlArenaClear s.arena
    return ⟨arena, []⟩
  | .write ptr offset bs => do
    let data ← s.arena.data.store (ptr + offset) bs
    return ⟨{ s.arena with data }, s.live⟩

/-- The arena as a machine: only handles the client holds are used, sizes are positive, a write
stays in its block, and no sum of sizes leaves 64 bits. -/
def arenaMachine : Machine ArenaState VlArenaOp where
  guard s
    | .alloc size => 0 < size ∧ size + 8 + vlArenaTotalCapacity s.arena < 2 ^ 64
    | .free ptr => ptr ∈ s.live
    | .realloc ptr size =>
      ptr ∈ s.live ∧ 0 < size ∧ size + 16 + vlArenaTotalCapacity s.arena < 2 ^ 64
    | .reserve numBytes => numBytes + vlArenaTotalCapacity s.arena < 2 ^ 64
    | .clear => True
    | .write ptr offset bs => ptr ∈ s.live ∧ 8 + offset + bs.length ≤ (s.arena.block ptr).size
  step := arenaStep

instance (s : ArenaState) : ∀ o, Decidable (arenaMachine.guard s o)
  | .alloc size =>
    inferInstanceAs (Decidable (0 < size ∧ size + 8 + vlArenaTotalCapacity s.arena < 2 ^ 64))
  | .free ptr => inferInstanceAs (Decidable (ptr ∈ s.live))
  | .realloc ptr size => inferInstanceAs
      (Decidable (ptr ∈ s.live ∧ 0 < size ∧ size + 16 + vlArenaTotalCapacity s.arena < 2 ^ 64))
  | .reserve numBytes =>
    inferInstanceAs (Decidable (numBytes + vlArenaTotalCapacity s.arena < 2 ^ 64))
  | .clear => .isTrue trivial
  | .write ptr offset bs => inferInstanceAs
      (Decidable (ptr ∈ s.live ∧ 8 + offset + bs.length ≤ (s.arena.block ptr).size))

/-! ### What a client can observe -/

/-- **The memory is partitioned**: the nodes of the free set and the blocks of the handles cover
every address once, the free nodes are coalesced, and `vlArenaMemSize` and `vlArenaTotalFree` tell
the sizes. -/
structure VlArena.Partitioned (arena : VlArena) (live : List ℕ) : Prop where
  handle : ∀ p ∈ live, 8 ≤ p ∧ 8 < (arena.block p).size ∧
    vlArenaMemSize arena p = .ok ((arena.block p).size - 8)
  partition : ∃ nodes, arena.freeNodes = .ok nodes ∧
    Partitions (nodes ++ live.map arena.block) (vlArenaTotalCapacity arena) ∧
    ∀ a ∈ nodes, ∀ b ∈ nodes, a.stop ≠ b.offset
  totalFree : ∃ n, vlArenaTotalFree arena = .ok n ∧
    n + ((live.map arena.block).map Block.size).sum = vlArenaTotalCapacity arena

/-- The block of a handle is where it was, as long as it was, and holds the bytes it held. -/
def VlArena.KeepsHandle (arena' arena : VlArena) (p : ℕ) : Prop :=
  arena'.block p = arena.block p ∧
    arena'.data.bytes.slice (p - 8) (arena.block p).size =
      arena.data.bytes.slice (p - 8) (arena.block p).size

/-- What a client relies on when it performs an operation: the blocks of the handles it does not
touch stay, and an allocation returns a handle for the size that was asked for. -/
structure ArenaState.Served (s : ArenaState) (o : VlArenaOp) (s' : ArenaState) : Prop where
  others : ∀ p ∈ s.live, ¬ o.Touches p → p ∈ s'.live ∧ s'.arena.KeepsHandle s.arena p
  alloc : ∀ size, o = .alloc size →
    ∃ p, s'.live = p :: s.live ∧ vlArenaMemSize s'.arena p = .ok size

/-! ### The invariant -/

/-- The blocks of the handles are the live blocks of the arena. -/
structure ArenaState.Good (s : ArenaState) : Prop where
  inv : s.arena.Inv (s.live.map s.arena.block)
  handle : ∀ p ∈ s.live, 8 ≤ p

section

variable {arena arena' : VlArena} {live : List Block} {b : Block} {s s' : ArenaState} {p q n : ℕ}
  {rest : List ℕ}

/-- A live block is the block of its handle. -/
theorem VlArena.Inv.block (h : arena.Inv live) (hb : b ∈ live) : arena.block (b.offset + 8) = b := by
  rw [VlArena.block, Nat.add_sub_cancel, (h.header hb).2]

/-- The free nodes of a tiled arena. -/
theorem VlArena.freeNodes_eq {nodes : List Block} (h : FreeNodes arena.freeSet nodes) :
    arena.freeNodes = .ok nodes := by
  obtain ⟨l, hl, rfl⟩ := h
  have hread : ∀ k : List (VlPoolIdx × VlArenaNode), (∀ x ∈ k, x ∈ l) →
      (k.map Prod.fst).mapM (fun iter => deref (vlSetSample arena.freeSet (some iter))) =
        .ok (k.map Prod.snd) := by
    intro k
    induction k with
    | nil => exact fun _ => rfl
    | cons x k ih =>
      intro hk
      rw [List.map_cons, List.mapM_cons, hl.sample (hk x List.mem_cons_self), deref_some, ok_bind,
        ih fun y hy => hk y (List.mem_cons_of_mem _ hy)]
      rfl
  rw [VlArena.freeNodes, hl.foreach, ok_bind]
  exact hread l fun _ hx => hx

/-- **What the invariant means to a client.** -/
theorem ArenaState.Good.partitioned (h : s.Good) : s.arena.Partitioned s.live := by
  obtain ⟨ts, hts, hperm⟩ := h.inv
  refine ⟨fun p hp => ?_, ⟨_, VlArena.freeNodes_eq hts.free, ?_, fun a ha b hb => ?_⟩, ?_⟩
  · have hmem : s.arena.block p ∈ s.live.map s.arena.block := List.mem_map_of_mem hp
    have hsize := vlArenaMemSize_spec h.inv hmem
    have h8 := h.handle p hp
    refine ⟨h8, (h.inv.header hmem).1, ?_⟩
    rwa [show (s.arena.block p).offset + 8 = p from Nat.sub_add_cancel h8] at hsize
  · have hpart := partitions_blocks hts.positive
    rw [hts.span_eq] at hpart
    exact hpart.perm (hperm.symm.append_left _)
  · exact stop_ne_offset hts.positive hts.coalesced ha hb
  · refine ⟨_, vlArenaTotalFree_spec hts, ?_⟩
    rw [(hperm.map Block.size).sum_eq, sum_blocks, hts.span_eq]
    rfl

/-- The invariant, established for one new block and handles that keep theirs. -/
theorem VlArena.Inv.good (h : arena'.Inv (⟨p - 8, n⟩ :: rest.map arena.block)) (hp : 8 ≤ p)
    (hrest : ∀ q ∈ rest, 8 ≤ q) :
    ArenaState.Good ⟨arena', p :: rest⟩ ∧ arena'.block p = ⟨p - 8, n⟩ ∧
      ∀ q ∈ rest, arena'.block q = arena.block q := by
  have hhead : arena'.block p = ⟨p - 8, n⟩ := by
    have hblock := h.block List.mem_cons_self
    rwa [Nat.sub_add_cancel hp] at hblock
  have htail : ∀ q ∈ rest, arena'.block q = arena.block q := by
    intro q hq
    have hblock := h.block (List.mem_cons_of_mem _ (List.mem_map_of_mem hq))
    rwa [show (arena.block q).offset + 8 = q from Nat.sub_add_cancel (hrest q hq)] at hblock
  refine ⟨⟨?_, ?_⟩, hhead, htail⟩
  · rw [List.map_cons, hhead, List.map_congr_left htail]
    exact h
  · exact fun q hq => (List.mem_cons.mp hq).elim (fun h => h ▸ hp) (hrest q)

/-- A handle whose block is kept. -/
theorem VlArena.Keeps.handle (h : arena'.Keeps arena (rest.map arena.block)) (hq : q ∈ rest)
    (hblock : arena'.block q = arena.block q) : arena'.KeepsHandle arena q := by
  have hbytes := h (arena.block q) (List.mem_map_of_mem hq)
  exact ⟨hblock, hbytes⟩

/-- Take one handle out of those the client holds. -/
theorem ArenaState.Good.split (h : s.Good) (hp : p ∈ s.live) :
    s.arena.Inv (s.arena.block p :: (s.live.erase p).map s.arena.block) ∧
      (s.arena.block p).offset + 8 = p ∧ ∀ q ∈ s.live.erase p, 8 ≤ q := by
  refine ⟨h.inv.perm ((List.perm_cons_erase hp).map s.arena.block),
    Nat.sub_add_cancel (h.handle p hp), fun q hq => h.handle q (List.mem_of_mem_erase hq)⟩

theorem ArenaState.Good.perm {live' : List ℕ} (h : s.Good) (hp : s.live.Perm live') :
    ArenaState.Good ⟨s.arena, live'⟩ :=
  ⟨h.inv.perm (hp.map s.arena.block), fun q hq => h.handle q (hp.mem_iff.mpr hq)⟩

/-! ### One operation -/

theorem arenaStep_alloc (h : s.Good) {size : ℕ} (hg : arenaMachine.guard s (.alloc size)) :
    Serves (arenaStep s (.alloc size)) fun s' => s'.Good ∧ s.Served (.alloc size) s' := by
  obtain ⟨hpos, hlt⟩ := hg
  refine (vlArenaMemAlloc_inv h.inv hpos (by omega)).bind fun r ⟨hptr, hinv, hkeeps⟩ => ?_
  obtain ⟨hgood, hblock, hrest⟩ := hinv.good hptr h.handle
  refine serves_ok ⟨hgood, fun q hq _ => ⟨List.mem_cons_of_mem _ hq, ?_⟩, fun n hn => ⟨r.1, rfl, ?_⟩⟩
  · exact hkeeps.handle hq (hrest q hq)
  · obtain ⟨-, -, hsize⟩ := hgood.partitioned.handle r.1 List.mem_cons_self
    rw [hblock] at hsize
    cases hn
    exact hsize

theorem arenaStep_free (h : s.Good) (hp : p ∈ s.live) :
    Serves (arenaStep s (.free p)) fun s' => s'.Good ∧ s.Served (.free p) s' := by
  obtain ⟨hinv, hoff, hrest⟩ := h.split hp
  have hfree := vlArenaMemFree_inv hinv
  rw [hoff] at hfree
  refine hfree.serves.bind fun arena' ⟨hinv', hdata⟩ => ?_
  have hblock : arena'.block = s.arena.block := by
    funext q
    rw [VlArena.block, VlArena.block, hdata]
  refine serves_ok ⟨⟨by rwa [hblock], hrest⟩, fun q hq hne => ⟨?_, ?_, ?_⟩, fun n hn => (by cases hn)⟩
  · exact (List.mem_erase_of_ne hne).mpr hq
  · rw [hblock]
  · rw [hdata]

theorem arenaStep_reserve (h : s.Good) {numBytes : ℕ} :
    Serves (arenaStep s (.reserve numBytes)) fun s' => s'.Good ∧ s.Served (.reserve numBytes) s' := by
  refine (vlArenaReserve_inv h.inv numBytes).bind fun arena' ⟨hinv, hbytes, _⟩ => ?_
  have hblock : arena'.block = s.arena.block := by
    funext q
    rw [VlArena.block, VlArena.block, VlMemory.number, VlMemory.number, hbytes]
  refine serves_ok ⟨⟨by rwa [hblock], h.handle⟩, fun q hq _ => ⟨hq, ?_, ?_⟩,
    fun n hn => (by cases hn)⟩
  · rw [hblock]
  · rw [hbytes]

theorem arenaStep_clear (h : s.Good) :
    Serves (arenaStep s .clear) fun s' => s'.Good ∧ s.Served .clear s' := by
  refine (vlArenaClear_spec h.inv).serves.bind fun arena' ⟨hts, _⟩ => ?_
  refine serves_ok ⟨⟨⟨_, hts, by simp⟩, fun q hq => (by cases hq)⟩, fun q _ hne => ?_,
    fun n hn => (by cases hn)⟩
  exact absurd trivial hne

theorem arenaStep_write (h : s.Good) {offset : ℕ} {bs : List UInt8}
    (hg : arenaMachine.guard s (.write p offset bs)) :
    Serves (arenaStep s (.write p offset bs)) fun s' =>
      s'.Good ∧ s.Served (.write p offset bs) s' := by
  obtain ⟨hp, hfit⟩ := hg
  obtain ⟨hinv, hoff, hrest⟩ := h.split hp
  refine (hinv.store (p := p + offset) (by omega) (by rw [Block.stop]; omega)).serves.bind
    fun data ⟨hinv', hkeeps, _⟩ => ?_
  obtain ⟨hgood, hblock, hblocks⟩ := VlArena.Inv.good (p := p) hinv' (h.handle p hp) hrest
  refine serves_ok ⟨hgood.perm (List.perm_cons_erase hp).symm, fun q hq hne => ⟨hq, ?_⟩,
    fun n hn => (by cases hn)⟩
  have hmem := (List.mem_erase_of_ne hne).mpr hq
  exact hkeeps.handle hmem (hblocks q hmem)

theorem arenaStep_realloc (h : s.Good) {size : ℕ} (hg : arenaMachine.guard s (.realloc p size)) :
    Serves (arenaStep s (.realloc p size)) fun s' => s'.Good ∧ s.Served (.realloc p size) s' := by
  obtain ⟨hp, hpos, hlt⟩ := hg
  obtain ⟨hinv, hoff, hrest⟩ := h.split hp
  have hsize := (h.partitioned.handle p hp).2.2
  have hheader := (h.partitioned.handle p hp).2.1
  -- a block at its place or at a new one, and the rest of the blocks as they were
  have hmove : ∀ arena' q n, arena'.Inv (⟨q - 8, n⟩ :: (s.live.erase p).map s.arena.block) →
      8 ≤ q → arena'.Keeps s.arena ((s.live.erase p).map s.arena.block) →
      ArenaState.Good ⟨arena', q :: s.live.erase p⟩ ∧
        s.Served (.realloc p size) ⟨arena', q :: s.live.erase p⟩ := by
    intro arena' q n hinv' hq hkeeps
    obtain ⟨hgood, -, hblocks⟩ := hinv'.good hq hrest
    refine ⟨hgood, fun q' hq' hne => ⟨List.mem_cons_of_mem _ ?_, ?_⟩, fun n hn => (by cases hn)⟩
    · exact (List.mem_erase_of_ne hne).mpr hq'
    · exact hkeeps.handle ((List.mem_erase_of_ne hne).mpr hq')
        (hblocks q' ((List.mem_erase_of_ne hne).mpr hq'))
  rw [arenaStep, hsize, ok_bind]
  have hfree : ∃ nodes, FreeNodes s.arena.freeSet nodes := by
    obtain ⟨ts, hts, -⟩ := h.inv
    exact ⟨_, hts.free⟩
  obtain ⟨nodes, hnodes⟩ := hfree
  by_cases hsame : size + 8 = (s.arena.block p).size
  · have hcall := vlArenaMemRealloc_same hinv (by omega) hsame
    rw [hoff] at hcall
    rw [hcall, ok_bind]
    refine serves_ok ?_
    rw [if_pos (by omega)]
    exact ⟨h, fun q hq _ => ⟨hq, rfl, rfl⟩, fun n hn => (by cases hn)⟩
  have hne : (s.arena.block p).size - 8 ≠ size := by omega
  by_cases hstay : size + 8 < (s.arena.block p).size ∨
      (s.arena.block p).size < size + 8 ∧ roomBehind nodes (s.arena.block p) (size + 8)
  · have hcall := vlArenaMemRealloc_resized hinv hnodes hpos (by omega) hstay
    rw [hoff] at hcall
    refine hcall.serves.bind fun r ⟨hptr, hres⟩ => serves_ok ?_
    rw [if_neg hne, hptr]
    exact hmove r.2 p (size + 8) hres.inv (h.handle p hp) hres.keeps
  · have hcall := vlArenaMemRealloc_moved hinv hnodes (by omega) (by omega)
      fun hroom => hstay (Or.inr ⟨by omega, hroom⟩)
    rw [hoff] at hcall
    refine hcall.bind fun r hmoved => serves_ok ?_
    rw [if_neg hne]
    exact hmove r.2 r.1 (size + 8 + 8) hmoved.inv hmoved.handle hmoved.keeps

/-- **Every operation** keeps the invariant and serves its client, unless an allocation cannot be
served. -/
theorem arenaStep_spec (h : s.Good) {o : VlArenaOp} (hg : arenaMachine.guard s o) :
    Serves (arenaStep s o) fun s' => s'.Good ∧ s.Served o s' := by
  cases o with
  | alloc size => exact arenaStep_alloc h hg
  | free p => exact arenaStep_free h hg
  | realloc p size => exact arenaStep_realloc h hg
  | reserve numBytes => exact arenaStep_reserve h
  | clear => exact arenaStep_clear h
  | write p offset bs => exact arenaStep_write h hg

/-- **Every run** keeps the invariant. -/
theorem arenaRun_good {os : List VlArenaOp} (h : s.Good) (hrun : arenaMachine.Run s os s') :
    s'.Good :=
  hrun.invariant (fun _ _ _ hs hg hop => ((arenaStep_spec hs hg).of_ok hop).1) h

/-- The initial state has no handles. -/
theorem vlArenaInit_good {contents : ByteMem} {size : ℕ} (hpos : 0 < size) (hlt : size < 2 ^ 63) :
    Returns (vlArenaInit contents size) fun arena => ArenaState.Good ⟨arena, []⟩ :=
  (vlArenaInit_spec hpos hlt).mono fun arena ⟨hts, _⟩ =>
    ⟨⟨_, hts, by simp⟩, fun q hq => (by cases hq)⟩

end

/-- The size of the payload of a handle. -/
def VlArena.payload (arena : VlArena) (ptr : ℕ) : ℕ := (arena.block ptr).size - 8

/-- **What the callers of `vlArenaMemRealloc` expect**: a handle for exactly the size they ask for,
with the bytes both sizes have room for, and the other blocks as they were. -/
def ReallocContract (s : ArenaState) (ptr size : ℕ) : Prop :=
  Returns (vlArenaMemRealloc s.arena ptr size) fun r =>
    vlArenaMemSize r.2 r.1 = .ok size ∧
      r.2.data.bytes.slice r.1 (min (s.arena.payload ptr) size) =
        s.arena.data.bytes.slice ptr (min (s.arena.payload ptr) size) ∧
      (∀ q ∈ s.live.erase ptr, r.2.KeepsHandle s.arena q) ∧
      r.2.Partitioned (r.1 :: s.live.erase ptr)

/-- A free node starts where the block of the handle ends, and together they have room for the
size. -/
def VlArena.HasRoomBehind (arena : VlArena) (ptr size : ℕ) : Prop :=
  ∃ nodes, arena.freeNodes = .ok nodes ∧ ∃ node ∈ nodes,
    node.offset = ptr + arena.payload ptr ∧ size ≤ arena.payload ptr + node.size

section Contract

variable {s s' : ArenaState} {p size : ℕ} {arena' : VlArena}

/-- A resized block meets the contract. -/
private theorem contract_of_resized (h : s.Good) (hp : p ∈ s.live)
    (hcall : Returns (vlArenaMemRealloc s.arena p size) fun r => r.1 = p ∧
      r.2.Resized s.arena (s.arena.block p) (size + 8) ((s.live.erase p).map s.arena.block)) :
    ReallocContract s p size := by
  obtain ⟨-, -, hrest⟩ := h.split hp
  have h8 := h.handle p hp
  refine hcall.mono fun r ⟨hptr, hres⟩ => ?_
  obtain ⟨hgood, hblock, hblocks⟩ := VlArena.Inv.good (p := p) hres.inv h8 hrest
  have hpart := hgood.partitioned
  rw [hptr]
  refine ⟨?_, ?_, fun q hq => hres.keeps.handle hq (hblocks q hq), hpart⟩
  · obtain ⟨-, -, hsize⟩ := hpart.handle p List.mem_cons_self
    rwa [hblock] at hsize
  · -- only the header was written
    rw [hres.bytes]
    refine ByteMem.slice_write_of_disjoint (Or.inr ?_)
    rw [length_natToLE]
    exact (Nat.sub_add_cancel h8).le

/-- The offset of a header is no handle for the block. -/
private theorem not_contract_same (h : s.Good) (hp : p ∈ s.live) (hlt : size + 8 < 2 ^ 64)
    (hsame : size + 8 = (s.arena.block p).size) : ¬ ReallocContract s p size := by
  obtain ⟨hinv, hoff, -⟩ := h.split hp
  have hcall := vlArenaMemRealloc_same hinv hlt hsame
  rw [hoff] at hcall
  rintro ⟨r, hr, hsize, -, -, hpart⟩
  obtain rfl := Except.ok.inj (hcall.symm.trans hr)
  have h8 := h.handle p hp
  have hstop := hinv.stop_le List.mem_cons_self
  obtain ⟨hbelow, hbig, hmem⟩ := hpart.handle _ List.mem_cons_self
  have hblock : (s.arena.block (s.arena.block p).offset).size - 8 = size :=
    Except.ok.inj (hmem.symm.trans hsize)
  obtain ⟨nodes, hnodes, hparts, -⟩ := hpart.partition
  obtain ⟨nodes', hnodes', hparts', -⟩ := h.partitioned.partition
  obtain rfl := Except.ok.inj (hnodes.symm.trans hnodes')
  -- the last byte of the block is not in the block the returned offset would be the handle of
  have hlast : (s.arena.block p).Contains ((s.arena.block p).stop - 1) := by
    rw [Block.Contains, Block.stop]
    omega
  have hshort : ¬ (s.arena.block (s.arena.block p).offset).Contains
      ((s.arena.block p).stop - 1) := by
    rw [Block.Contains, Block.stop, Block.stop]
    have hoffset : (s.arena.block (s.arena.block p).offset).offset = p - 8 - 8 := rfl
    omega
  obtain ⟨b, hb, hcontains⟩ := hparts.cover ((s.arena.block p).stop - 1) (by
    change _ < s.arena.data.size
    rw [Block.stop] at hstop ⊢
    omega)
  -- and the other blocks share no byte with it
  have hdisj : ∀ b ∈ nodes ++ (s.live.erase p).map s.arena.block,
      ¬ b.Contains ((s.arena.block p).stop - 1) := by
    have hperm : (nodes ++ s.live.map s.arena.block).Perm
        (s.arena.block p :: (nodes ++ (s.live.erase p).map s.arena.block)) :=
      (((List.perm_cons_erase hp).map s.arena.block).append_left nodes).trans List.perm_middle
    intro b hb hc
    have hd := (List.pairwise_cons.mp (hparts'.perm hperm).disjoint).1 b hb
    obtain ⟨hlo, hhi⟩ := hc
    obtain ⟨hlo', hhi'⟩ := hlast
    rcases hd with hd | hd
    · omega
    · omega
  rw [List.map_cons, List.mem_append, List.mem_cons] at hb
  rcases hb with hb | rfl | hb
  · exact hdisj b (List.mem_append_left _ hb) hcontains
  · exact hshort hcontains
  · exact hdisj b (List.mem_append_right _ hb) hcontains

/-- A moved block is larger than the request. -/
private theorem not_contract_moved
    (hcall : Serves (vlArenaMemRealloc s.arena p size) fun r =>
      r.2.Moved s.arena (s.arena.block p) (size + 8) r.1 ((s.live.erase p).map s.arena.block)) :
    ¬ ReallocContract s p size := by
  rintro ⟨r, hr, hsize, -⟩
  have hmoved := hcall.of_ok hr
  have htrue := vlArenaMemSize_spec hmoved.inv List.mem_cons_self
  have hhandle : r.1 - 8 + 8 = r.1 := Nat.sub_add_cancel hmoved.handle
  simp only [hhandle] at htrue
  have hne := Except.ok.inj (htrue.symm.trans hsize)
  omega

/-- The room behind a block, as its client sees it. -/
theorem ArenaState.Good.roomBehind_iff (h : s.Good) (hp : p ∈ s.live) {ts : List Tile}
    (hts : s.arena.Tiled ts) : roomBehind (blocks true 0 ts) (s.arena.block p) (size + 8) ↔
      s.arena.HasRoomBehind p size := by
  have hnodes := VlArena.freeNodes_eq hts.free
  have hheader := (h.partitioned.handle p hp).2.1
  have hoff := (h.split hp).2.1
  have hstop : (s.arena.block p).stop = p + s.arena.payload p := by
    rw [Block.stop, VlArena.payload]
    omega
  have hpayload : (s.arena.block p).size = s.arena.payload p + 8 := by
    rw [VlArena.payload]
    omega
  constructor
  · rintro ⟨node, hmem, hnode, hsize⟩
    exact ⟨_, hnodes, node, hmem, hnode.trans hstop, by omega⟩
  · rintro ⟨nodes, heq, node, hmem, hnode, hsize⟩
    obtain rfl := Except.ok.inj (hnodes.symm.trans heq)
    exact ⟨node, hmem, hnode.trans hstop.symm, by omega⟩

theorem reallocContract_iff_of_good (h : s.Good) (hp : p ∈ s.live) (hpos : 0 < size)
    (hlt : size + 16 < 2 ^ 64) :
    ReallocContract s p size ↔ size < s.arena.payload p ∨
      s.arena.payload p < size ∧ s.arena.HasRoomBehind p size := by
  obtain ⟨hinv, hoff, -⟩ := h.split hp
  have hheader := (h.partitioned.handle p hp).2.1
  obtain ⟨ts, hts, -⟩ := h.inv
  have hpayload : (s.arena.block p).size = s.arena.payload p + 8 := by
    rw [VlArena.payload]
    omega
  rw [← h.roomBehind_iff hp hts]
  constructor
  · intro hcontract
    by_contra hno
    by_cases hsame : size + 8 = (s.arena.block p).size
    · exact not_contract_same h hp (by omega) hsame hcontract
    · have hcall := vlArenaMemRealloc_moved hinv hts.free hlt (by omega)
        fun hroom => hno (Or.inr ⟨by omega, hroom⟩)
      rw [hoff] at hcall
      exact not_contract_moved hcall hcontract
  · intro hcond
    have hcall := vlArenaMemRealloc_resized hinv hts.free hpos (by omega)
      (hcond.imp (fun hlt => by omega) fun hgrow => ⟨by omega, hgrow.2⟩)
    rw [hoff] at hcall
    exact contract_of_resized h hp hcall

end Contract

/-- **When the contract is met.** In every state a run reaches, `vlArenaMemRealloc` serves a request
as its callers expect exactly if the block shrinks, or grows into a free node right behind it. A
request for the size the block has returns the offset of its header, and a block that moves is
copied header and all, behind the header of a block 8 bytes too large. -/
theorem reallocContract_iff {contents : ByteMem} {initialSize : ℕ} (hinit : 0 < initialSize)
    (hlt : initialSize < 2 ^ 63) :
    Returns (vlArenaInit contents initialSize) fun arena =>
      ∀ os s, arenaMachine.Run ⟨arena, []⟩ os s → ∀ p ∈ s.live, ∀ size, 0 < size →
        size + 16 + vlArenaTotalCapacity s.arena < 2 ^ 64 →
        (ReallocContract s p size ↔ size < s.arena.payload p ∨
          s.arena.payload p < size ∧ s.arena.HasRoomBehind p size) := by
  refine (vlArenaInit_good hinit hlt).mono fun arena hgood os s hrun p hp size hpos hsize => ?_
  exact reallocContract_iff_of_good (arenaRun_good hgood hrun) hp hpos (by omega)

/-- The arena of 64 bytes. -/
theorem reallocContract_iff_small :
    Returns (vlArenaInit (fun _ => 0) 64) fun arena =>
      ∀ os s, arenaMachine.Run ⟨arena, []⟩ os s → ∀ p ∈ s.live, ∀ size, 0 < size →
        size + 16 + vlArenaTotalCapacity s.arena < 2 ^ 64 →
        (ReallocContract s p size ↔ size < s.arena.payload p ∨
          s.arena.payload p < size ∧ s.arena.HasRoomBehind p size) :=
  reallocContract_iff (by decide) (by norm_num)

/-- A block of 24 bytes in an arena of 64, reallocated to 24 bytes. -/
theorem not_reallocContract_same : ∃ arena os s, vlArenaInit (fun _ => 0) 64 = .ok arena ∧
    arenaMachine.Run ⟨arena, []⟩ os s ∧ 40 ∈ s.live ∧ s.arena.payload 40 = 24 ∧
      ¬ ReallocContract s 40 24 := by
  have hexec : ((vlArenaInit (fun _ => 0) 64).toOption.any fun arena =>
      (arenaMachine.exec ⟨arena, []⟩ [.alloc 24]).any fun s =>
        s.live == [40] && s.arena.payload 40 == 24) = true := by decide +kernel
  obtain ⟨arena, harena, hstep⟩ := (Option.any_eq_true _ _).mp hexec
  have hinit := eq_ok_of_toOption harena
  obtain ⟨s, hrun, htest⟩ := Machine.exists_run_of_exec hstep
  obtain ⟨hlive, hpayload⟩ := Bool.and_eq_true _ _ ▸ htest
  have hlive : s.live = [40] := eq_of_beq hlive
  have hmem : 40 ∈ s.live := by rw [hlive]; exact List.mem_cons_self
  have hpayload : s.arena.payload 40 = 24 := eq_of_beq hpayload
  have hgood := arenaRun_good ((vlArenaInit_good (by decide) (by norm_num)).of_ok hinit) hrun
  refine ⟨arena, _, s, hinit, hrun, hmem, hpayload, fun hcontract => ?_⟩
  have hcond := (reallocContract_iff_of_good hgood hmem (by decide) (by norm_num)).mp hcontract
  omega

end VeritableLasagna
