import VeritableLasagna.Arena.Runs

/-!
# Prepending and appending

`vlArenaMemPrepend` and `vlArenaMemAppend` enlarge a block and copy `length` bytes to its front or to its
end. The source may lie in the arena, even in the block itself, so its pointer is turned into an offset
before the block is reallocated. `vlArenaMemPrepend` adds the length to this offset, since the payload is
shifted by as much before the source is read.

That is right for a source in the payload itself, and wrong for one in another block. The reallocation is
right only where the block grows into a free node behind it (`reallocContract_iff`).
`vlArenaMemConcat_iff` puts both together.
-/

namespace VeritableLasagna

/-! ### The functions -/

/-- Where the source bytes of a call lie: in other memory, or from an offset of the arena on. -/
inductive VlArenaSource
  | outside (bs : List UInt8)
  | inside (offset length : ℕ)

namespace VlArenaSource

/-- The parameter `length`. -/
def length : VlArenaSource → ℕ
  | outside bs => bs.length
  | inside _ length => length

/-- The source bytes. -/
def bytes (src : VlArenaSource) (arena : VlArena) : List UInt8 :=
  match src with
  | outside bs => bs
  | inside offset length => arena.data.bytes.slice offset length

/-- `srcOffset`, which stays zero for a source that is not in the arena. -/
def srcOffset (src : VlArenaSource) (arena : VlArena) (origin : ℕ) : ℕ :=
  match src with
  | outside _ => 0
  | inside offset _ => if offset < vlMemSize arena.data then (offset + origin) % 2 ^ 64 else 0

/-- Read the source once the arena has become `arena'`. It is sampled anew where `srcOffset` is not zero;
otherwise a pointer into the arena is good as long as the memory has not grown. -/
def load (src : VlArenaSource) (arena arena' : VlArena) (srcOffset : ℕ) :
    Except Fault (List UInt8) :=
  match src with
  | outside bs => .ok bs
  | inside offset length =>
    if 0 < srcOffset then arena'.data.load srcOffset length
    else if vlMemSize arena'.data = vlMemSize arena.data then arena'.data.load offset length
    else .error .outOfBounds

end VlArenaSource

/-- `vlArenaMemPrepend`. Returns the new handle. -/
def vlArenaMemPrepend (arena : VlArena) (dstPtr : ℕ) (src : VlArenaSource) :
    Except Fault (ℕ × VlArena) := do
  let originalSize ← vlArenaMemSize arena dstPtr
  let srcOffset := src.srcOffset arena src.length
  let (dstPtr, arena') ← vlArenaMemRealloc arena dstPtr ((src.length + originalSize) % 2 ^ 64)
  let payload ← arena'.data.load dstPtr originalSize
  let data ← arena'.data.store (dstPtr + src.length) payload
  let bytes ← src.load arena { arena' with data } srcOffset
  let data ← data.store dstPtr bytes
  return (dstPtr, { arena' with data })

/-- `vlArenaMemAppend`. Returns the new handle. -/
def vlArenaMemAppend (arena : VlArena) (dstPtr : ℕ) (src : VlArenaSource) :
    Except Fault (ℕ × VlArena) := do
  let originalSize ← vlArenaMemSize arena dstPtr
  let srcOffset := src.srcOffset arena 0
  let (dstPtr, arena') ← vlArenaMemRealloc arena dstPtr ((src.length + originalSize) % 2 ^ 64)
  let bytes ← src.load arena arena' srcOffset
  let data ← arena'.data.store (dstPtr + originalSize) bytes
  return (dstPtr, { arena' with data })

/-! ### The contract -/

/-- The source lies outside the arena, where both have to fit the address space, or in the payload of a
handle. -/
def VlArenaSource.Valid (src : VlArenaSource) (s : ArenaState) : Prop :=
  match src with
  | outside bs => bs.length + 16 + vlArenaTotalCapacity s.arena ≤ 2 ^ 64
  | inside offset length =>
    ∃ q ∈ s.live, q ≤ offset ∧ offset + length ≤ q + s.arena.payload q

instance (s : ArenaState) : ∀ src : VlArenaSource, Decidable (src.Valid s)
  | .outside bs =>
    inferInstanceAs (Decidable (bs.length + 16 + vlArenaTotalCapacity s.arena ≤ 2 ^ 64))
  | .inside offset length => inferInstanceAs (Decidable
      (∃ q ∈ s.live, q ≤ offset ∧ offset + length ≤ q + s.arena.payload q))

/-- **What the callers of both functions expect**: a handle whose payload is exactly `payload`, and the
other blocks as they were. -/
structure ArenaState.Joined (s : ArenaState) (p : ℕ) (payload : List UInt8) (r : ℕ × VlArena) :
    Prop where
  size : vlArenaMemSize r.2 r.1 = .ok payload.length
  bytes : r.2.data.bytes.slice r.1 payload.length = payload
  others : ∀ q ∈ s.live.erase p, r.2.KeepsHandle s.arena q
  partitioned : r.2.Partitioned (r.1 :: s.live.erase p)

/-- The bytes of the payload of a handle. -/
def VlArena.payloadBytes (arena : VlArena) (ptr : ℕ) : List UInt8 :=
  arena.data.bytes.slice ptr (arena.payload ptr)

section Joined

variable {s : ArenaState} {p q N : ℕ} {payload bs : List UInt8} {arena' : VlArena}
  {src : VlArenaSource}

@[simp] theorem VlArena.length_payloadBytes : (s.arena.payloadBytes p).length = s.arena.payload p :=
  ByteMem.length_slice

@[simp] theorem VlArenaSource.length_bytes : (src.bytes s.arena).length = src.length := by
  cases src with
  | outside bs => rfl
  | inside offset length => exact ByteMem.length_slice

/-- As many bytes are read as the source has. -/
theorem VlArenaSource.length_load {arena : VlArena} {o : ℕ}
    (h : src.load arena arena' o = .ok bs) : bs.length = src.length := by
  have hload : ∀ {offset length : ℕ}, arena'.data.load offset length = .ok bs →
      bs.length = length := by
    intro offset length hop
    rw [VlMemory.load] at hop
    split_ifs at hop
    rw [← Except.ok.inj hop, ByteMem.length_slice]
  cases src with
  | outside bs' =>
    obtain rfl := Except.ok.inj h
    rfl
  | inside offset length =>
    rw [VlArenaSource.load] at h
    split_ifs at h
    · exact hload h
    · exact hload h

/-- The block of the handle, once it has `N` bytes: the contract is about its size and its bytes. -/
theorem joined_iff (h : s.Good) (hp : p ∈ s.live) (hq : 8 ≤ q) (hbig : 8 < N)
    (hinv : arena'.Inv (⟨q - 8, N⟩ :: (s.live.erase p).map s.arena.block))
    (hkeeps : arena'.Keeps s.arena ((s.live.erase p).map s.arena.block)) :
    s.Joined p payload (q, arena') ↔
      N = payload.length + 8 ∧ arena'.data.bytes.slice q payload.length = payload := by
  obtain ⟨-, -, hrest⟩ := h.split hp
  obtain ⟨hgood, hblock, hblocks⟩ := hinv.good hq hrest
  have hsize := (hgood.partitioned.handle q List.mem_cons_self).2.2
  rw [hblock] at hsize
  dsimp only at hsize
  constructor
  · intro hjoined
    have hlength := Except.ok.inj (hsize.symm.trans hjoined.size)
    exact ⟨by omega, hjoined.bytes⟩
  · rintro ⟨hN, hbytes⟩
    refine ⟨?_, hbytes, fun q' hq' => hkeeps.handle hq' (hblocks q' hq'), hgood.partitioned⟩
    dsimp only
    rw [hsize]
    congr 1
    omega

/-- A request for no bytes at all returns the offset of the header. -/
theorem not_joined_same (h : s.Good) (hp : p ∈ s.live) (hlt : s.arena.payload p + 16 < 2 ^ 64) :
    ¬ s.Joined p (s.arena.payloadBytes p) (p - 8, s.arena) := by
  obtain ⟨hinv, hoff, -⟩ := h.split hp
  have hheader := (h.partitioned.handle p hp).2.1
  have hpayload : s.arena.payload p + 8 = (s.arena.block p).size := by
    rw [VlArena.payload]
    omega
  intro hjoined
  have hcall := vlArenaMemRealloc_same hinv (by omega) hpayload
  rw [hoff] at hcall
  have hsize := hjoined.size
  have hbytes := hjoined.bytes
  rw [VlArena.length_payloadBytes] at hsize hbytes
  have hcontract : ReallocContract s p (s.arena.payload p) := by
    refine ⟨_, hcall, hsize, ?_, hjoined.others, hjoined.partitioned⟩
    rw [min_self]
    exact hbytes
  have hcond := (reallocContract_iff_of_good h hp (by omega) hlt).mp hcontract
  omega

/-! ### The writes behind the reallocation -/

/-- A write into the enlarged block, with its effect on the memory. -/
structure Overwritten (arena' arena : VlArena) (q N : ℕ) (live : List Block) (m : ByteMem) : Prop where
  inv : arena'.Inv (⟨q - 8, N⟩ :: live)
  keeps : arena'.Keeps arena live
  bytes : arena'.data.bytes = m
  size : arena'.data.size = arena.data.size

/-- Writing into the payload of a block of `N` bytes. -/
theorem VlArena.Inv.overwrite {arena : VlArena} {live : List Block} {o : ℕ} (bs : List UInt8)
    (h : arena.Inv (⟨q - 8, N⟩ :: live)) (hq : 8 ≤ q) (ho : q ≤ o) (hfit : o + bs.length + 8 ≤ q + N) :
    Returns (arena.data.store o bs) fun data =>
      Overwritten { arena with data } arena q N live (arena.data.bytes.write o bs) := by
  refine (h.store (by dsimp only; omega) (by rw [Block.stop_mk]; omega)).mono ?_
  rintro data ⟨hinv, hkeeps, rfl⟩
  exact ⟨hinv, hkeeps, rfl, rfl⟩

/-- **`vlArenaMemAppend` behind the reallocation**: it fails where the source cannot be read, and writes
the source behind the old payload otherwise. -/
theorem vlArenaMemAppend_cases (h : s.Good) (hp : p ∈ s.live)
    (hre : vlArenaMemRealloc s.arena p ((src.length + s.arena.payload p) % 2 ^ 64) = .ok (q, arena'))
    {live : List Block} (hinv : arena'.Inv (⟨q - 8, N⟩ :: live)) (hq : 8 ≤ q)
    (hfit : src.length + s.arena.payload p + 8 ≤ N) :
    (∃ e, src.load s.arena arena' (src.srcOffset s.arena 0) = .error e ∧
      vlArenaMemAppend s.arena p src = .error e) ∨
    ∃ bs, src.load s.arena arena' (src.srcOffset s.arena 0) = .ok bs ∧ bs.length = src.length ∧
      Returns (vlArenaMemAppend s.arena p src) fun r => r.1 = q ∧
        Overwritten r.2 arena' q N live (arena'.data.bytes.write (q + s.arena.payload p) bs) := by
  have hsize : vlArenaMemSize s.arena p = .ok (s.arena.payload p) :=
    (h.partitioned.handle p hp).2.2
  rw [vlArenaMemAppend, hsize, ok_bind]
  dsimp only
  rw [hre, ok_bind]
  dsimp only
  cases hload : src.load s.arena arena' (src.srcOffset s.arena 0) with
  | error e => exact Or.inl ⟨e, rfl, rfl⟩
  | ok bs =>
    have hlength := VlArenaSource.length_load hload
    refine Or.inr ⟨bs, rfl, hlength, ?_⟩
    rw [ok_bind]
    exact (hinv.overwrite _ hq (Nat.le_add_right _ _) (by omega)).bind fun data hdata =>
      returns_ok ⟨rfl, hdata⟩

/-- The memory once the payload is shifted. -/
def shifted (m : ByteMem) (q n len : ℕ) : ByteMem := m.write (q + len) (m.slice q n)

/-- **`vlArenaMemPrepend` behind the reallocation**: the payload is shifted, and then the source is read
and written to the front. -/
theorem vlArenaMemPrepend_cases (h : s.Good) (hp : p ∈ s.live)
    (hre : vlArenaMemRealloc s.arena p ((src.length + s.arena.payload p) % 2 ^ 64) = .ok (q, arena'))
    {live : List Block} (hinv : arena'.Inv (⟨q - 8, N⟩ :: live)) (hq : 8 ≤ q)
    (hfit : src.length + s.arena.payload p + 8 ≤ N) :
    ∃ mid : VlArena,
      mid.data = ⟨shifted arena'.data.bytes q (s.arena.payload p) src.length, arena'.data.size⟩ ∧
      ((∃ e, src.load s.arena mid (src.srcOffset s.arena src.length) = .error e ∧
        vlArenaMemPrepend s.arena p src = .error e) ∨
      ∃ bs, src.load s.arena mid (src.srcOffset s.arena src.length) = .ok bs ∧
        bs.length = src.length ∧ Returns (vlArenaMemPrepend s.arena p src) fun r => r.1 = q ∧
          r.2.Inv (⟨q - 8, N⟩ :: live) ∧ r.2.Keeps arena' live ∧
          r.2.data.bytes = (shifted arena'.data.bytes q (s.arena.payload p) src.length).write q bs) := by
  have hsize : vlArenaMemSize s.arena p = .ok (s.arena.payload p) :=
    (h.partitioned.handle p hp).2.2
  have hstop := hinv.stop_le List.mem_cons_self
  rw [Block.stop_mk] at hstop
  obtain ⟨data, hstore, hmid⟩ := hinv.overwrite (o := q + src.length)
    (arena'.data.bytes.slice q (s.arena.payload p)) hq (Nat.le_add_right _ _)
    (by rw [ByteMem.length_slice]; omega)
  have hprepend : vlArenaMemPrepend s.arena p src =
      (src.load s.arena { arena' with data } (src.srcOffset s.arena src.length) >>= fun bytes =>
        data.store q bytes >>= fun data => .ok (q, { arena' with data })) := by
    rw [vlArenaMemPrepend, hsize, ok_bind]
    dsimp only
    rw [hre, ok_bind]
    dsimp only
    rw [VlMemory.load_eq (by omega), ok_bind, hstore, ok_bind]
    rfl
  refine ⟨{ arena' with data }, ?_, ?_⟩
  · have hbytes := hmid.bytes
    have hsame := hmid.size
    dsimp only at hbytes hsame
    rw [shifted, ← hbytes, ← hsame]
  · rw [hprepend]
    cases hload : src.load s.arena { arena' with data } (src.srcOffset s.arena src.length) with
    | error e => exact Or.inl ⟨e, rfl, rfl⟩
    | ok bs =>
      have hlength := VlArenaSource.length_load hload
      refine Or.inr ⟨bs, rfl, hlength, ?_⟩
      rw [ok_bind]
      refine (hmid.inv.overwrite bs hq le_rfl (by omega)).bind fun data' hdata =>
        returns_ok ⟨rfl, hdata.inv, hdata.keeps.trans hmid.keeps, ?_⟩
      rw [hdata.bytes, hmid.bytes, shifted]

/-! ### The reallocation -/

/-- Growing a block by nothing returns the offset of its header. -/
theorem vlArenaMemRealloc_empty (h : s.Good) (hp : p ∈ s.live) (hsrc : src.length = 0)
    (hlt : s.arena.payload p + 16 < 2 ^ 64) :
    vlArenaMemRealloc s.arena p ((src.length + s.arena.payload p) % 2 ^ 64) =
      .ok (p - 8, s.arena) := by
  obtain ⟨hinv, hoff, -⟩ := h.split hp
  have hheader := (h.partitioned.handle p hp).2.1
  have hpayload : s.arena.payload p + 8 = (s.arena.block p).size := by
    rw [VlArena.payload]
    omega
  have hcall := vlArenaMemRealloc_same hinv (by omega) hpayload
  rw [hoff] at hcall
  rw [hsrc, Nat.zero_add, Nat.mod_eq_of_lt (by omega)]
  exact hcall

/-- **Growing a block**: it stays where there is room behind it, and moves otherwise. -/
theorem vlArenaMemRealloc_grow (h : s.Good) (hp : p ∈ s.live) {len : ℕ} (hlen : 0 < len)
    (hlt : len + s.arena.payload p + 16 < 2 ^ 64) :
    s.arena.HasRoomBehind p (len + s.arena.payload p) ∧
      Returns (vlArenaMemRealloc s.arena p ((len + s.arena.payload p) % 2 ^ 64)) (fun r => r.1 = p ∧
        r.2.Resized s.arena (s.arena.block p) (len + s.arena.payload p + 8)
          ((s.live.erase p).map s.arena.block)) ∨
    ¬ s.arena.HasRoomBehind p (len + s.arena.payload p) ∧
      Serves (vlArenaMemRealloc s.arena p ((len + s.arena.payload p) % 2 ^ 64)) fun r =>
        r.2.Moved s.arena (s.arena.block p) (len + s.arena.payload p + 8) r.1
          ((s.live.erase p).map s.arena.block) := by
  obtain ⟨hinv, hoff, -⟩ := h.split hp
  obtain ⟨ts, hts, -⟩ := h.inv
  have hheader := (h.partitioned.handle p hp).2.1
  have hpayload : (s.arena.block p).size = s.arena.payload p + 8 := by
    rw [VlArena.payload]
    omega
  rw [Nat.mod_eq_of_lt (by omega), ← h.roomBehind_iff hp hts]
  by_cases hroom : roomBehind (Tiling.blocks true 0 ts) (s.arena.block p)
      (len + s.arena.payload p + 8)
  · have hcall := vlArenaMemRealloc_resized hinv hts.free (by omega) (by omega)
      (Or.inr ⟨by omega, hroom⟩)
    rw [hoff] at hcall
    exact Or.inl ⟨hroom, hcall⟩
  · have hcall := vlArenaMemRealloc_moved hinv hts.free hlt (by omega) hroom
    rw [hoff] at hcall
    exact Or.inr ⟨hroom, hcall⟩

/-- Where a valid source of at least one byte lies: behind the first header, in the memory, and apart
from the headers. -/
theorem VlArenaSource.Valid.bounds {offset length : ℕ} (h : s.Good) (hp : p ∈ s.live)
    (hsrc : (VlArenaSource.inside offset length).Valid s) :
    8 ≤ offset ∧ offset + length ≤ s.arena.data.size ∧
      (offset + length ≤ p - 8 ∨ p ≤ offset) := by
  obtain ⟨q, hq, hlow, hhigh⟩ := hsrc
  obtain ⟨hinv, hoff, -⟩ := h.split hq
  have h8 := h.handle q hq
  have hstop := hinv.stop_le List.mem_cons_self
  have hheader := (h.partitioned.handle q hq).2.1
  have hend : (s.arena.block q).stop = q + s.arena.payload q := by
    rw [Block.stop, VlArena.payload]
    omega
  refine ⟨by omega, by omega, ?_⟩
  by_cases hne : p = q
  · exact Or.inr (hne ▸ hlow)
  · have hmem : s.arena.block p ∈ (s.live.erase q).map s.arena.block :=
      List.mem_map_of_mem ((List.mem_erase_of_ne hne).mpr hp)
    have hoffset : (s.arena.block p).offset = p - 8 := rfl
    have hpsize := (h.partitioned.handle p hp).2.1
    rcases (List.pairwise_cons.mp hinv.pairwise).1 _ hmem with hd | hd
    · exact Or.inl (by omega)
    · rw [Block.stop] at hd
      exact Or.inr (by omega)

/-- A moved block is too large, whatever is written into it. -/
theorem not_joined_moved (h : s.Good) (hp : p ∈ s.live) {size : ℕ} {r : ℕ × VlArena}
    (hmoved : arena'.Moved s.arena (s.arena.block p) size q ((s.live.erase p).map s.arena.block))
    (hq : r.1 = q) (hinv : r.2.Inv (⟨q - 8, size + 8⟩ :: (s.live.erase p).map s.arena.block))
    (hkeeps : r.2.Keeps arena' ((s.live.erase p).map s.arena.block))
    (hpayload : payload.length + 8 = size) : ¬ s.Joined p payload r := by
  obtain ⟨q', arena''⟩ := r
  obtain rfl : q' = q := hq
  intro hjoined
  have hsize := ((joined_iff h hp hmoved.handle (by omega) hinv
    (hkeeps.trans hmoved.keeps)).mp hjoined).1
  omega

/-- The offset of a source in the arena. -/
theorem VlArenaSource.srcOffset_eq {offset length origin : ℕ} (h : s.Good)
    (hlt : offset < s.arena.data.size) (horigin : origin < 2 ^ 63) :
    (VlArenaSource.inside offset length).srcOffset s.arena origin = offset + origin := by
  have hbound := h.inv.bound
  rw [VlArenaSource.srcOffset, vlMemSize, if_pos hlt]
  exact Nat.mod_eq_of_lt (by omega)

/-- The payload of a block that was resized. -/
theorem slice_resized {live : List Block} {size o n : ℕ} (h8 : 8 ≤ p) (ho : p ≤ o)
    (hres : arena'.Resized s.arena (s.arena.block p) size live) :
    arena'.data.bytes.slice o n = s.arena.data.bytes.slice o n := by
  rw [hres.bytes]
  refine ByteMem.slice_write_of_disjoint (Or.inr ?_)
  rw [length_natToLE]
  exact (Nat.sub_add_cancel h8).le.trans ho

/-! ### Appending -/

/-- An empty source leaves the arena alone and returns the offset of the header. -/
theorem vlArenaMemAppend_empty (h : s.Good) (hp : p ∈ s.live) (hsrc : src.length = 0)
    (hlt : s.arena.payload p + 16 < 2 ^ 64) {r : ℕ × VlArena}
    (hop : vlArenaMemAppend s.arena p src = .ok r) : r = (p - 8, s.arena) := by
  rw [vlArenaMemAppend, (h.partitioned.handle p hp).2.2, ok_bind] at hop
  change (vlArenaMemRealloc s.arena p ((src.length + s.arena.payload p) % 2 ^ 64) >>= _) = _ at hop
  rw [vlArenaMemRealloc_empty h hp hsrc hlt, ok_bind] at hop
  dsimp only at hop
  obtain ⟨bs, hload, hop⟩ := exists_of_bind_eq_ok hop
  obtain ⟨data, hstore, hop⟩ := exists_of_bind_eq_ok hop
  obtain rfl : bs = [] := List.length_eq_zero_iff.mp ((VlArenaSource.length_load hload).trans hsrc)
  rw [VlMemory.store] at hstore
  split_ifs at hstore
  obtain rfl := Except.ok.inj hstore
  obtain rfl := Except.ok.inj hop
  rw [ByteMem.write_nil]

/-- **Appending** meets the contract exactly where bytes are appended and the block has room to grow. -/
theorem vlArenaMemAppend_iff (h : s.Good) (hp : p ∈ s.live) (hsrc : src.Valid s)
    (hlt : src.length + s.arena.payload p + 16 < 2 ^ 64) :
    Returns (vlArenaMemAppend s.arena p src)
        (s.Joined p (s.arena.payloadBytes p ++ src.bytes s.arena)) ↔
      0 < src.length ∧ s.arena.HasRoomBehind p (src.length + s.arena.payload p) := by
  have hpayload : (s.arena.payloadBytes p ++ src.bytes s.arena).length + 8 =
      src.length + s.arena.payload p + 8 := by
    rw [List.length_append, VlArena.length_payloadBytes, VlArenaSource.length_bytes]
    omega
  by_cases hlen : src.length = 0
  · refine iff_of_false (fun ⟨r, hop, hjoined⟩ => ?_) (fun hcond => by omega)
    have hnil : src.bytes s.arena = [] :=
      List.length_eq_zero_iff.mp (VlArenaSource.length_bytes.trans hlen)
    rw [vlArenaMemAppend_empty h hp hlen (by omega) hop, hnil, List.append_nil] at hjoined
    exact not_joined_same h hp (by omega) hjoined
  rcases vlArenaMemRealloc_grow h hp (Nat.pos_of_ne_zero hlen) hlt with
    ⟨hroom, ⟨q, arena'⟩, hre, hq, hres⟩ | ⟨hroom, hcall⟩
  · obtain rfl : q = p := hq
    refine iff_of_true ?_ ⟨Nat.pos_of_ne_zero hlen, hroom⟩
    have h8 := h.handle q hp
    -- the source is as it was
    have hload : src.load s.arena arena' (src.srcOffset s.arena 0) = .ok (src.bytes s.arena) := by
      cases src with
      | outside bs => rfl
      | inside offset length =>
        obtain ⟨hlow, hhigh, hapart⟩ := hsrc.bounds h hp
        have hcap : arena'.data.size = s.arena.data.size := hres.capacity
        have hlength : 0 < length := Nat.pos_of_ne_zero hlen
        rw [VlArenaSource.srcOffset_eq h (by omega) (by norm_num), VlArenaSource.load,
          if_pos (by omega), Nat.add_zero, VlMemory.load_eq (by omega), VlArenaSource.bytes]
        dsimp only at hres
        rw [hres.bytes, ByteMem.slice_write_of_disjoint]
        rw [length_natToLE]
        have hoffset : (s.arena.block q).offset = q - 8 := rfl
        omega
    rcases vlArenaMemAppend_cases h hp hre hres.inv h8 (by omega) with ⟨e, herr, -⟩ |
      ⟨bs, hbs, -, hret⟩
    · cases hload.symm.trans herr
    · obtain rfl := Except.ok.inj (hload.symm.trans hbs)
      refine hret.mono fun r ⟨hq, hover⟩ => ?_
      obtain ⟨q', arena''⟩ := r
      obtain rfl : q' = q := hq
      refine (joined_iff h hp h8 (by omega) hover.inv (hover.keeps.trans hres.keeps)).mpr
        ⟨by omega, ?_⟩
      have hfront : arena'.data.bytes.slice q' (s.arena.payload q') = s.arena.payloadBytes q' :=
        slice_resized h8 le_rfl hres
      have hback : (arena'.data.bytes.write (q' + s.arena.payload q') (src.bytes s.arena)).slice
          (q' + s.arena.payload q') (src.bytes s.arena).length = src.bytes s.arena :=
        ByteMem.slice_write_self
      rw [hover.bytes, List.length_append, VlArena.length_payloadBytes, ByteMem.slice_add, hback,
        ByteMem.slice_write_of_disjoint (Or.inl le_rfl), hfront]
  · refine iff_of_false (fun ⟨r, hop, hjoined⟩ => ?_) (fun hcond => hroom hcond.2)
    rcases hcall with herr | ⟨⟨q, arena'⟩, hre, hmoved⟩
    · rw [vlArenaMemAppend, (h.partitioned.handle p hp).2.2, ok_bind] at hop
      change (vlArenaMemRealloc s.arena p ((src.length + s.arena.payload p) % 2 ^ 64) >>= _) = _
        at hop
      rw [herr] at hop
      cases hop
    · rcases vlArenaMemAppend_cases h hp hre hmoved.inv hmoved.handle (by omega) with
        ⟨e, -, herr⟩ | ⟨bs, -, -, hret⟩
      · cases hop.symm.trans herr
      · obtain ⟨hq, hover⟩ := hret.of_ok hop
        exact not_joined_moved h hp hmoved hq hover.inv hover.keeps hpayload hjoined

/-! ### Prepending -/

/-- Writing back what is there. -/
theorem write_slice_self {m : ByteMem} {o n : ℕ} : m.write o (m.slice o n) = m := by
  funext r
  rcases Nat.lt_or_ge r o with hlt | hge
  · exact ByteMem.write_of_lt hlt
  · obtain ⟨i, rfl⟩ := Nat.exists_eq_add_of_le hge
    rcases Nat.lt_or_ge i n with hlt | hge
    · rw [ByteMem.write_add (by rwa [ByteMem.length_slice]), ByteMem.getElem_slice]
    · exact ByteMem.write_of_ge (by rw [ByteMem.length_slice]; omega)

/-- An empty source leaves the arena alone and returns the offset of the header. -/
theorem vlArenaMemPrepend_empty (h : s.Good) (hp : p ∈ s.live) (hsrc : src.length = 0)
    (hlt : s.arena.payload p + 16 < 2 ^ 64) {r : ℕ × VlArena}
    (hop : vlArenaMemPrepend s.arena p src = .ok r) : r = (p - 8, s.arena) := by
  rw [vlArenaMemPrepend, (h.partitioned.handle p hp).2.2, ok_bind] at hop
  change (vlArenaMemRealloc s.arena p ((src.length + s.arena.payload p) % 2 ^ 64) >>= _) = _ at hop
  rw [vlArenaMemRealloc_empty h hp hsrc hlt, ok_bind] at hop
  dsimp only at hop
  obtain ⟨payload, hload, hop⟩ := exists_of_bind_eq_ok hop
  obtain ⟨data, hstore, hop⟩ := exists_of_bind_eq_ok hop
  obtain ⟨bs, hsource, hop⟩ := exists_of_bind_eq_ok hop
  obtain ⟨data', hstore', hop⟩ := exists_of_bind_eq_ok hop
  obtain rfl : bs = [] := List.length_eq_zero_iff.mp ((VlArenaSource.length_load hsource).trans hsrc)
  rw [VlMemory.load] at hload
  split_ifs at hload
  obtain rfl := Except.ok.inj hload
  rw [hsrc, VlMemory.store] at hstore
  split_ifs at hstore
  obtain rfl := Except.ok.inj hstore
  rw [VlMemory.store] at hstore'
  split_ifs at hstore'
  obtain rfl := Except.ok.inj hstore'
  obtain rfl := Except.ok.inj hop
  rw [ByteMem.write_nil, Nat.add_zero, ByteMem.write_slice_self]

/-- Reading the payload where it was shifted to. -/
theorem slice_shifted (m : ByteMem) (q len : ℕ) {n i k : ℕ} (h : i + k ≤ n) :
    (shifted m q n len).slice (q + len + i) k = m.slice (q + i) k := by
  refine List.map_congr_left fun j hj => ?_
  have hj := List.mem_range.mp hj
  have hlt : i + j < (m.slice q n).length := by
    rw [ByteMem.length_slice]
    omega
  rw [shifted, Nat.add_assoc, ByteMem.write_add hlt, ByteMem.getElem_slice, Nat.add_assoc]

/-- **The source is read back**: it lies outside the arena, or in the payload that is shifted, or it
happens to be followed, `length` bytes later, by a copy of itself, in the memory with the new header and
the shifted payload. -/
def VlArenaSource.ReadBack (src : VlArenaSource) (s : ArenaState) (p : ℕ) : Prop :=
  match src with
  | outside _ => True
  | inside offset length =>
    p ≤ offset ∧ offset + length ≤ p + s.arena.payload p ∨
      offset + 2 * length ≤ vlArenaTotalCapacity s.arena ∧
        (shifted (s.arena.data.bytes.write (p - 8) (natToLE 8 (length + s.arena.payload p + 8))) p
          (s.arena.payload p) length).slice (offset + length) length =
            s.arena.data.bytes.slice offset length

/-- What `vlArenaMemPrepend` reads once the payload is shifted. -/
theorem VlArenaSource.load_iff (h : s.Good) (hp : p ∈ s.live) (hsrc : src.Valid s)
    (hlen : 0 < src.length) {live : List Block} {mid : VlArena}
    (hres : arena'.Resized s.arena (s.arena.block p) (src.length + s.arena.payload p + 8) live)
    (hmid : mid.data =
      ⟨shifted arena'.data.bytes p (s.arena.payload p) src.length, arena'.data.size⟩) :
    src.load s.arena mid (src.srcOffset s.arena src.length) = .ok (src.bytes s.arena) ↔
      src.ReadBack s p := by
  have h8 := h.handle p hp
  cases src with
  | outside bs => exact iff_of_true rfl trivial
  | inside offset length =>
    obtain ⟨hlow, hhigh, -⟩ := hsrc.bounds h hp
    have hcap : arena'.data.size = s.arena.data.size := hres.capacity
    have hbound := h.inv.bound
    have hlength : 0 < length := hlen
    have hbytes := hres.bytes
    rw [VlArenaSource.length] at hmid hbytes ⊢
    rw [VlArenaSource.srcOffset_eq h (by omega) (by omega), VlArenaSource.load, if_pos (by omega),
      VlArenaSource.ReadBack, VlMemory.load, hmid, VlArenaSource.bytes, hcap]
    dsimp only
    have hoffset : (s.arena.block p).offset = p - 8 := rfl
    rw [hoffset] at hbytes
    rw [← hbytes, vlArenaTotalCapacity, vlMemSize]
    constructor
    · intro hload
      split_ifs at hload with hfit
      exact Or.inr ⟨by omega, Except.ok.inj hload⟩
    · rintro (⟨hfirst, hlast⟩ | ⟨hfit, hcopy⟩)
      · -- the payload is shifted as far as the source is read behind its place
        have hstop := hres.inv.stop_le List.mem_cons_self
        rw [Block.stop_mk, VlArenaSource.length] at hstop
        obtain ⟨i, rfl⟩ := Nat.exists_eq_add_of_le hfirst
        have hslice := slice_shifted arena'.data.bytes p length
          (show i + length ≤ s.arena.payload p by omega)
        rw [slice_resized h8 (Nat.le_add_right p i) hres] at hslice
        rw [if_pos (by omega), show p + i + length = p + length + i by omega, hslice]
      · rw [if_pos (by omega), hcopy]

/-- **Prepending** meets the contract exactly where bytes are prepended, the block has room to grow, and
the source is read back. -/
theorem vlArenaMemPrepend_iff (h : s.Good) (hp : p ∈ s.live) (hsrc : src.Valid s)
    (hlt : src.length + s.arena.payload p + 16 < 2 ^ 64) :
    Returns (vlArenaMemPrepend s.arena p src)
        (s.Joined p (src.bytes s.arena ++ s.arena.payloadBytes p)) ↔
      0 < src.length ∧ s.arena.HasRoomBehind p (src.length + s.arena.payload p) ∧
        src.ReadBack s p := by
  have hpayload : (src.bytes s.arena ++ s.arena.payloadBytes p).length + 8 =
      src.length + s.arena.payload p + 8 := by
    rw [List.length_append, VlArena.length_payloadBytes, VlArenaSource.length_bytes]
  by_cases hlen : src.length = 0
  · refine iff_of_false (fun ⟨r, hop, hjoined⟩ => ?_) (fun hcond => by omega)
    have hnil : src.bytes s.arena = [] :=
      List.length_eq_zero_iff.mp (VlArenaSource.length_bytes.trans hlen)
    rw [vlArenaMemPrepend_empty h hp hlen (by omega) hop, hnil, List.nil_append] at hjoined
    exact not_joined_same h hp (by omega) hjoined
  have hpos : 0 < src.length := Nat.pos_of_ne_zero hlen
  rcases vlArenaMemRealloc_grow h hp hpos hlt with
    ⟨hroom, ⟨q, arena'⟩, hre, hq, hres⟩ | ⟨hroom, hcall⟩
  · obtain rfl : q = p := hq
    have h8 := h.handle q hp
    dsimp only at hres
    obtain ⟨mid, hmid, hcases⟩ := vlArenaMemPrepend_cases h hp hre hres.inv h8 (by omega)
    have hiff := VlArenaSource.load_iff h hp hsrc hpos hres hmid
    rcases hcases with ⟨e, hload, herr⟩ | ⟨bs, hload, hlength, hret⟩
    · refine iff_of_false (fun ⟨r, hop, _⟩ => (by cases hop.symm.trans herr)) fun hcond => ?_
      cases (hiff.mpr hcond.2.2).symm.trans hload
    · -- the contract is about the bytes that were read
      have hresult : ∀ r : ℕ × VlArena, r.1 = q ∧
          r.2.Inv (⟨q - 8, src.length + s.arena.payload q + 8⟩ ::
            (s.live.erase q).map s.arena.block) ∧
          r.2.Keeps arena' ((s.live.erase q).map s.arena.block) ∧ r.2.data.bytes =
            (shifted arena'.data.bytes q (s.arena.payload q) src.length).write q bs →
          (s.Joined q (src.bytes s.arena ++ s.arena.payloadBytes q) r ↔ bs = src.bytes s.arena) := by
        rintro ⟨q', arena''⟩ ⟨hq, hinv, hkeeps, hbytes⟩
        obtain rfl : q' = q := hq
        dsimp only at hinv hkeeps hbytes
        have hfront : ((shifted arena'.data.bytes q' (s.arena.payload q') src.length).write q'
            bs).slice q' bs.length = bs := ByteMem.slice_write_self
        have hback := slice_shifted arena'.data.bytes q' src.length (i := 0)
          (Nat.zero_add (s.arena.payload q')).le
        rw [Nat.add_zero, Nat.add_zero, slice_resized h8 le_rfl hres] at hback
        rw [hlength] at hfront
        have hread : arena''.data.bytes.slice q' (src.length + s.arena.payload q') =
            bs ++ s.arena.payloadBytes q' := by
          rw [hbytes, ByteMem.slice_add, hfront,
            ByteMem.slice_write_of_disjoint (Or.inr (by rw [hlength])), hback]
          rfl
        have htotal : (src.bytes s.arena ++ s.arena.payloadBytes q').length =
            src.length + s.arena.payload q' := by omega
        rw [joined_iff h hp h8 (by omega) hinv (hkeeps.trans hres.keeps), htotal, hread,
          List.append_cancel_right_eq]
        exact ⟨fun hcond => hcond.2, fun heq => ⟨rfl, heq⟩⟩
      constructor
      · rintro ⟨r, hop, hjoined⟩
        obtain rfl := (hresult r (hret.of_ok hop)).mp hjoined
        exact ⟨hpos, hroom, hiff.mp hload⟩
      · rintro ⟨-, -, hback⟩
        have hsame := Except.ok.inj ((hiff.mpr hback).symm.trans hload)
        exact hret.mono fun r hr => (hresult r hr).mpr hsame.symm
  · refine iff_of_false (fun ⟨r, hop, hjoined⟩ => ?_) (fun hcond => hroom hcond.2.1)
    rcases hcall with herr | ⟨⟨q, arena'⟩, hre, hmoved⟩
    · rw [vlArenaMemPrepend, (h.partitioned.handle p hp).2.2, ok_bind] at hop
      change (vlArenaMemRealloc s.arena p ((src.length + s.arena.payload p) % 2 ^ 64) >>= _) = _
        at hop
      rw [herr] at hop
      cases hop
    · obtain ⟨mid, -, hcases⟩ :=
        vlArenaMemPrepend_cases h hp hre hmoved.inv hmoved.handle (by omega)
      rcases hcases with ⟨e, -, herr⟩ | ⟨bs, -, -, hret⟩
      · cases hop.symm.trans herr
      · obtain ⟨hq, hinv, hkeeps, -⟩ := hret.of_ok hop
        exact not_joined_moved h hp hmoved hq hinv hkeeps hpayload hjoined

/-! ### Runs -/

/-- The sum of the sizes stays in 64 bits. -/
theorem VlArenaSource.Valid.length_lt (h : s.Good) (hp : p ∈ s.live) (hsrc : src.Valid s) :
    src.length + s.arena.payload p + 16 < 2 ^ 64 := by
  obtain ⟨hinv, hoff, -⟩ := h.split hp
  have hbound := h.inv.bound
  have hsize : ∀ q ∈ s.live, s.arena.payload q + 8 ≤ s.arena.data.size := by
    intro q hq
    have hstop := (h.split hq).1.stop_le List.mem_cons_self
    have hheader := (h.partitioned.handle q hq).2.1
    rw [Block.stop] at hstop
    rw [VlArena.payload]
    omega
  have hle := hsize p hp
  cases src with
  | outside bs =>
    have hfit : bs.length + 16 + s.arena.data.size ≤ 2 ^ 64 := hsrc
    rw [VlArenaSource.length]
    omega
  | inside offset length =>
    obtain ⟨q, hq, hlow, hhigh⟩ := hsrc
    have hle' := hsize q hq
    rw [VlArenaSource.length]
    omega

/-- Whether the block stays or moves, the handle is that of a block with enough bytes. -/
theorem vlArenaMemRealloc_block (h : s.Good) (hp : p ∈ s.live) {len : ℕ} (hlen : 0 < len)
    (hlt : len + s.arena.payload p + 16 < 2 ^ 64)
    (hre : vlArenaMemRealloc s.arena p ((len + s.arena.payload p) % 2 ^ 64) = .ok (q, arena')) :
    8 ≤ q ∧ ∃ N, len + s.arena.payload p + 8 ≤ N ∧
      arena'.Inv (⟨q - 8, N⟩ :: (s.live.erase p).map s.arena.block) := by
  rcases vlArenaMemRealloc_grow h hp hlen hlt with ⟨-, hcall⟩ | ⟨-, hcall⟩
  · obtain ⟨hq, hres⟩ := hcall.of_ok hre
    obtain rfl : q = p := hq
    exact ⟨h.handle q hp, _, le_rfl, hres.inv⟩
  · have hmoved := hcall.of_ok hre
    exact ⟨hmoved.handle, _, Nat.le_add_right _ 8, hmoved.inv⟩

/-- Appending at least one byte leaves a block for the new handle. -/
theorem vlArenaMemAppend_good (h : s.Good) (hp : p ∈ s.live) (hsrc : src.Valid s)
    (hlen : 0 < src.length) {r : ℕ × VlArena} (hop : vlArenaMemAppend s.arena p src = .ok r) :
    ArenaState.Good ⟨r.2, r.1 :: s.live.erase p⟩ := by
  obtain ⟨-, -, hrest⟩ := h.split hp
  have hcall := hop
  rw [vlArenaMemAppend, (h.partitioned.handle p hp).2.2, ok_bind] at hcall
  obtain ⟨⟨q, arena'⟩, hre, -⟩ := exists_of_bind_eq_ok hcall
  obtain ⟨hq, N, hfit, hinv⟩ := vlArenaMemRealloc_block h hp hlen (hsrc.length_lt h hp) hre
  rcases vlArenaMemAppend_cases h hp hre hinv hq hfit with ⟨e, -, herr⟩ | ⟨bs, -, -, hret⟩
  · cases hop.symm.trans herr
  · obtain ⟨rfl, hover⟩ := hret.of_ok hop
    exact (hover.inv.good hq hrest).1

/-- Prepending at least one byte leaves a block for the new handle. -/
theorem vlArenaMemPrepend_good (h : s.Good) (hp : p ∈ s.live) (hsrc : src.Valid s)
    (hlen : 0 < src.length) {r : ℕ × VlArena} (hop : vlArenaMemPrepend s.arena p src = .ok r) :
    ArenaState.Good ⟨r.2, r.1 :: s.live.erase p⟩ := by
  obtain ⟨-, -, hrest⟩ := h.split hp
  have hcall := hop
  rw [vlArenaMemPrepend, (h.partitioned.handle p hp).2.2, ok_bind] at hcall
  obtain ⟨⟨q, arena'⟩, hre, -⟩ := exists_of_bind_eq_ok hcall
  obtain ⟨hq, N, hfit, hinv⟩ := vlArenaMemRealloc_block h hp hlen (hsrc.length_lt h hp) hre
  obtain ⟨mid, -, hcases⟩ := vlArenaMemPrepend_cases h hp hre hinv hq hfit
  rcases hcases with ⟨e, -, herr⟩ | ⟨bs, -, -, hret⟩
  · cases hop.symm.trans herr
  · obtain ⟨rfl, hinv', -, -⟩ := hret.of_ok hop
    exact (hinv'.good hq hrest).1

end Joined

/-- The operations of a client that also prepends and appends. -/
inductive VlArenaConcatOp
  | base (o : VlArenaOp)
  | prepend (ptr : ℕ) (src : VlArenaSource)
  | append (ptr : ℕ) (src : VlArenaSource)

/-- One operation, with the bookkeeping of the handles. A client that adds no bytes keeps its handle. -/
def concatStep (s : ArenaState) : VlArenaConcatOp → Except Fault ArenaState
  | .base o => arenaStep s o
  | .prepend ptr src => do
    let (result, arena) ← vlArenaMemPrepend s.arena ptr src
    return ⟨arena, if src.length = 0 then s.live else result :: s.live.erase ptr⟩
  | .append ptr src => do
    let (result, arena) ← vlArenaMemAppend s.arena ptr src
    return ⟨arena, if src.length = 0 then s.live else result :: s.live.erase ptr⟩

/-- The arena as the machine of such a client. -/
def concatMachine : Machine ArenaState VlArenaConcatOp where
  guard s
    | .base o => arenaMachine.guard s o
    | .prepend ptr src | .append ptr src => ptr ∈ s.live ∧ src.Valid s
  step := concatStep

instance (s : ArenaState) : ∀ o, Decidable (concatMachine.guard s o)
  | .base o => inferInstanceAs (Decidable (arenaMachine.guard s o))
  | .prepend ptr src | .append ptr src =>
    inferInstanceAs (Decidable (ptr ∈ s.live ∧ src.Valid s))

/-- **Every run** keeps the invariant. -/
theorem concatRun_good {s s' : ArenaState} {os : List VlArenaConcatOp} (h : s.Good)
    (hrun : concatMachine.Run s os s') : s'.Good := by
  refine hrun.invariant (I := ArenaState.Good) (fun s o s' hs hg hop => ?_) h
  have hop : concatStep s o = .ok s' := hop
  cases o with
  | base o => exact ((arenaStep_spec hs hg).of_ok hop).1
  | prepend p src =>
    obtain ⟨hp, hsrc⟩ := hg
    obtain ⟨r, hcall, hop⟩ := exists_of_bind_eq_ok hop
    obtain rfl := Except.ok.inj hop
    split_ifs with hlen
    · rw [vlArenaMemPrepend_empty hs hp hlen (by have := hsrc.length_lt hs hp; omega) hcall]
      exact hs
    · exact vlArenaMemPrepend_good hs hp hsrc (Nat.pos_of_ne_zero hlen) hcall
  | append p src =>
    obtain ⟨hp, hsrc⟩ := hg
    obtain ⟨r, hcall, hop⟩ := exists_of_bind_eq_ok hop
    obtain rfl := Except.ok.inj hop
    split_ifs with hlen
    · rw [vlArenaMemAppend_empty hs hp hlen (by have := hsrc.length_lt hs hp; omega) hcall]
      exact hs
    · exact vlArenaMemAppend_good hs hp hsrc (Nat.pos_of_ne_zero hlen) hcall

/-- **When prepending and appending do what their callers expect**, in every state a run reaches: exactly
where bytes are added, a free node behind the block has room for them and, for prepending, the source is
read back. -/
theorem vlArenaMemConcat_iff {contents : ByteMem} {initialSize : ℕ} (hinit : 0 < initialSize)
    (hlt : initialSize < 2 ^ 63) :
    Returns (vlArenaInit contents initialSize) fun arena =>
      ∀ os s, concatMachine.Run ⟨arena, []⟩ os s → ∀ p ∈ s.live, ∀ src : VlArenaSource,
        src.Valid s →
        (Returns (vlArenaMemPrepend s.arena p src)
            (s.Joined p (src.bytes s.arena ++ s.arena.payloadBytes p)) ↔
          0 < src.length ∧ s.arena.HasRoomBehind p (src.length + s.arena.payload p) ∧
            src.ReadBack s p) ∧
        (Returns (vlArenaMemAppend s.arena p src)
            (s.Joined p (s.arena.payloadBytes p ++ src.bytes s.arena)) ↔
          0 < src.length ∧ s.arena.HasRoomBehind p (src.length + s.arena.payload p)) := by
  refine (vlArenaInit_good hinit hlt).mono fun arena hgood os s hrun p hp src hsrc => ?_
  have hs := concatRun_good hgood hrun
  have hfit := hsrc.length_lt hs hp
  exact ⟨vlArenaMemPrepend_iff hs hp hsrc hfit, vlArenaMemAppend_iff hs hp hsrc hfit⟩

/-- The arena of 64 bytes. -/
theorem vlArenaMemConcat_iff_small :
    Returns (vlArenaInit (fun _ => 0) 64) fun arena =>
      ∀ os s, concatMachine.Run ⟨arena, []⟩ os s → ∀ p ∈ s.live, ∀ src : VlArenaSource,
        src.Valid s →
        (Returns (vlArenaMemPrepend s.arena p src)
            (s.Joined p (src.bytes s.arena ++ s.arena.payloadBytes p)) ↔
          0 < src.length ∧ s.arena.HasRoomBehind p (src.length + s.arena.payload p) ∧
            src.ReadBack s p) ∧
        (Returns (vlArenaMemAppend s.arena p src)
            (s.Joined p (s.arena.payloadBytes p ++ src.bytes s.arena)) ↔
          0 < src.length ∧ s.arena.HasRoomBehind p (src.length + s.arena.payload p)) :=
  vlArenaMemConcat_iff (by decide) (by norm_num)

/-- Three blocks of 8 bytes in an arena of 64, and the one at 56 freed again. Prepending the bytes at 24
to the block at 40 reads from 32, the header of that block. -/
theorem not_vlArenaMemPrepend_other : ∃ arena os s, vlArenaInit (fun _ => 0) 64 = .ok arena ∧
    concatMachine.Run ⟨arena, []⟩ os s ∧ 40 ∈ s.live ∧
      (VlArenaSource.inside 24 8).Valid s ∧
      ¬ Returns (vlArenaMemPrepend s.arena 40 (.inside 24 8))
        (s.Joined 40 ((VlArenaSource.inside 24 8).bytes s.arena ++ s.arena.payloadBytes 40)) := by
  have hexec : ((vlArenaInit (fun _ => 0) 64).toOption.any fun arena =>
      (concatMachine.exec ⟨arena, []⟩
        [.base (.alloc 8), .base (.alloc 8), .base (.alloc 8), .base (.free 56)]).any fun s =>
        decide (s.live = [24, 40]) && (decide ((VlArenaSource.inside 24 8).Valid s) &&
          (vlArenaMemPrepend s.arena 40 (.inside 24 8)).toOption.all fun r =>
            decide (r.2.data.bytes.slice r.1 16 ≠
              (VlArenaSource.inside 24 8).bytes s.arena ++ s.arena.payloadBytes 40) &&
            decide (((VlArenaSource.inside 24 8).bytes s.arena ++
              s.arena.payloadBytes 40).length = 16))) = true := by decide +kernel
  obtain ⟨arena, harena, hstep⟩ := (Option.any_eq_true _ _).mp hexec
  obtain ⟨s, hrun, htest⟩ := Machine.exists_run_of_exec hstep
  obtain ⟨hlive, htest⟩ := Bool.and_eq_true _ _ ▸ htest
  obtain ⟨hvalid, htest⟩ := Bool.and_eq_true _ _ ▸ htest
  have hlive := of_decide_eq_true hlive
  refine ⟨arena, _, s, eq_ok_of_toOption harena, hrun, by simp [hlive], of_decide_eq_true hvalid, ?_⟩
  rintro ⟨r, hop, hjoined⟩
  rw [hop] at htest
  obtain ⟨hne, hlength⟩ := Bool.and_eq_true _ _ ▸ htest
  have hbytes := hjoined.bytes
  rw [of_decide_eq_true hlength] at hbytes
  exact of_decide_eq_true hne hbytes

end VeritableLasagna
