import VeritableLasagna.Stream.Basic
import VeritableLasagna.Memory.Vector

/-!
# Streams on a block of memory

A memory stream reads and writes a block of the caller's at a cursor. What is left of the block is the
difference of two unsigned numbers, seeks mix signed offsets with them, and both are sound only as long as the
cursor does not pass the end. What such a stream is for is an array of fixed length with a cursor
(`fixedCall`), and **`vlStreamMemory_refines`** is that it is one on every run.
-/

namespace VeritableLasagna

/-- `vl_stream_ctx_mem`. A null block is `none`. -/
structure VlStreamCtxMem where
  start : Option VlMemory
  size : ℕ
  cursor : ℕ
  readOnly : Bool

/-- `StreamMemRead`. -/
def streamMemRead (room size : ℕ) (ctx : VlStreamCtxMem) :
    Except Fault ((List UInt8 × ℕ) × VlStreamCtxMem) := do
  let available := (ctx.size + 2 ^ 64 - ctx.cursor) % 2 ^ 64
  if available = 0 then return (([], 0), ctx)
  else
    let size := if size > available then available else size
    let mem ← deref ctx.start
    let bs ← mem.load ctx.cursor size
    let copied ← memcpyOut room bs
    return ((copied, size), { ctx with cursor := (ctx.cursor + size) % 2 ^ 64 })

/-- `StreamMemWrite`. -/
def streamMemWrite (src : List UInt8) (size : ℕ) (ctx : VlStreamCtxMem) :
    Except Fault (ℕ × VlStreamCtxMem) := do
  if ctx.readOnly then return (0, ctx)
  else
    let available := (ctx.size + 2 ^ 64 - ctx.cursor) % 2 ^ 64
    if available = 0 then return (0, ctx)
    else
      let size := if size > available then available else size
      let mem ← deref ctx.start
      let mem ← mem.memcpy ctx.cursor size src
      return (size, { ctx with start := some mem, cursor := (ctx.cursor + size) % 2 ^ 64 })

/-- The switch of `StreamMemSeek`. -/
def streamMemNewPos (offset : ℤ) (ctx : VlStreamCtxMem) : VlStreamOrigin → Except Fault ℤ
  | .seekSet => .ok offset
  | .seekCur => addInt64 (toInt64 ctx.cursor) offset
  | .seekEnd => addInt64 (toInt64 ctx.size) offset

/-- `StreamMemSeek`. -/
def streamMemSeek (offset : ℤ) (origin : VlStreamOrigin) (ctx : VlStreamCtxMem) :
    Except Fault (Bool × VlStreamCtxMem) := do
  let newPos ← streamMemNewPos offset ctx origin
  if newPos < 0 then return (false, ctx)
  else
    let newPos := if newPos > toInt64 ctx.size then toInt64 ctx.size else newPos
    return (true, { ctx with cursor := (newPos % 2 ^ 64).toNat })

/-- `StreamMemTell`. -/
def streamMemTell (ctx : VlStreamCtxMem) : ℤ := toInt64 ctx.cursor

/-- `InternalOpenMem`, when its own allocations are served. -/
def internalOpenMem (mem : Option VlMemory) (size : ℕ) (readOnly : Bool) :
    Option (VlStream VlStreamCtxMem) :=
  if mem.isNone ∧ size > 0 then none
  else
    let s := vlStreamNew (⟨mem, size, 0, readOnly⟩ : VlStreamCtxMem)
    let s := { s with read := some streamMemRead }
    let s := if readOnly then s else { s with write := some streamMemWrite }
    some { s with seek := some streamMemSeek, tell := some streamMemTell }

/-- `vlStreamOpenMemory`. -/
def vlStreamOpenMemory (memory : Option VlMemory) (size : ℕ) : Option (VlStream VlStreamCtxMem) :=
  internalOpenMem memory size true

/-- `vlStreamOpenMemoryMutable`. -/
def vlStreamOpenMemoryMutable (memory : Option VlMemory) (size : ℕ) : Option (VlStream VlStreamCtxMem) :=
  internalOpenMem memory size false

/-! ### The array -/

/-- The bytes behind the cursor. -/
def ByteVector.remaining (v : ByteVector) : ℕ := v.bytes.length - v.cursor

/-- A write in the array leaves its length as it is. -/
theorem ByteVector.length_write {v : ByteVector} {bs : List UInt8}
    (h : v.cursor + bs.length ≤ v.bytes.length) : (v.write bs).bytes.length = v.bytes.length := by
  rw [ByteVector.write]
  dsimp only
  rw [List.length_append, List.length_append, List.length_take_of_le (by omega), List.length_drop]
  omega

/-- Where the origin of a seek stands. -/
def ByteVector.base (v : ByteVector) : VlStreamOrigin → ℕ
  | .seekSet => 0
  | .seekCur => v.cursor
  | .seekEnd => v.bytes.length

/-- The call on an array of fixed length with a cursor. A missing object takes and gives nothing. -/
def fixedCall (readOnly : Bool) (v : ByteVector) : StreamCall → StreamAnswer × ByteVector
  | .read none _ => (.read [] 0, v)
  | .read (some _) n =>
    let count := min n v.remaining
    (.read ((v.bytes.drop v.cursor).take count) count, v.seek (v.cursor + count))
  | .write none _ => (.write 0, v)
  | .write (some src) n =>
    if readOnly then (.write 0, v)
    else
      let count := min n v.remaining
      (.write count, v.write (src.take count))
  | .seek offset origin =>
    let target := v.base origin + offset
    if target < 0 then (.seek false, v) else (.seek true, v.seek (min target.toNat v.bytes.length))
  | .tell => (.tell v.cursor, v)

/-- No call changes the length. -/
theorem length_fixedCall {readOnly : Bool} {v : ByteVector} {o : StreamCall}
    (hle : v.cursor ≤ v.bytes.length) : (fixedCall readOnly v o).2.bytes.length = v.bytes.length := by
  cases o with
  | read outBuffer n => cases outBuffer <;> rfl
  | write inBuffer n =>
    cases inBuffer with
    | none => rfl
    | some src =>
      rw [fixedCall]
      split_ifs
      · rfl
      · refine ByteVector.length_write ?_
        rw [List.length_take, ByteVector.remaining]
        omega
  | seek offset origin =>
    rw [fixedCall]
    split_ifs <;> rfl
  | tell => rfl

/-- No call changes a read-only array. -/
theorem bytes_fixedCall {v : ByteVector} {o : StreamCall} : (fixedCall true v o).2.bytes = v.bytes := by
  cases o with
  | read outBuffer n => cases outBuffer <;> rfl
  | write inBuffer n => cases inBuffer <;> rfl
  | seek offset origin =>
    rw [fixedCall]
    split_ifs <;> rfl
  | tell => rfl

/-- Where the origin of a seek stands. -/
def VlStreamCtxMem.base (ctx : VlStreamCtxMem) : VlStreamOrigin → ℕ
  | .seekSet => 0
  | .seekCur => ctx.cursor
  | .seekEnd => ctx.size

/-- The memory stream as a component. No sum of a seek overflows. -/
def streamMem : Component (VlStream VlStreamCtxMem) StreamCall StreamAnswer where
  guard stream o := o.WellFormed ∧ FitsInt64 (o.target stream.userData.base)
  call := vlStreamCall

instance (stream : VlStream VlStreamCtxMem) (o : StreamCall) : Decidable (streamMem.guard stream o) :=
  inferInstanceAs (Decidable (_ ∧ _))

/-! ### The simulation -/

section Simulation

variable {start : Option VlMemory} {readOnly : Bool} {ctx : VlStreamCtxMem} {v : ByteVector}

/-- The context stands for the array: the block is the one the stream was opened on, with the bytes of the
array in it. -/
structure VlStreamCtxMem.Shows (ctx : VlStreamCtxMem) (start : Option VlMemory) (readOnly : Bool)
    (v : ByteVector) : Prop where
  readOnly_eq : ctx.readOnly = readOnly
  start_eq : ctx.start = start.map fun mem => ⟨mem.bytes.write 0 v.bytes, mem.size⟩
  size_eq : ctx.size = v.bytes.length
  cursor_eq : ctx.cursor = v.cursor
  cursor_le : v.cursor ≤ v.bytes.length
  bound : v.bytes.length < 2 ^ 63
  whole : ∀ mem ∈ start, mem.size = v.bytes.length
  null : start = none → v.bytes = []

namespace VlStreamCtxMem.Shows

/-- The difference of the unsigned numbers is what is left. -/
theorem available_eq (h : ctx.Shows start readOnly v) :
    (ctx.size + 2 ^ 64 - ctx.cursor) % 2 ^ 64 = v.remaining := by
  have hle := h.cursor_le
  have hbound := h.bound
  rw [h.size_eq, h.cursor_eq, ByteVector.remaining]
  omega

/-- Where something is left, there is a block. -/
theorem exists_start (h : ctx.Shows start readOnly v) (hpos : v.remaining ≠ 0) :
    ∃ mem, start = some mem ∧ deref ctx.start = .ok ⟨mem.bytes.write 0 v.bytes, mem.size⟩ ∧
      mem.size = v.bytes.length := by
  cases hstart : start with
  | none => exact absurd (by rw [ByteVector.remaining, h.null hstart]; exact Nat.zero_sub _) hpos
  | some mem => exact ⟨mem, rfl, by rw [h.start_eq, hstart]; rfl, h.whole mem hstart⟩

/-- The cursor moves in the array. -/
theorem seek (h : ctx.Shows start readOnly v) {cursor : ℕ} (hle : cursor ≤ v.bytes.length) :
    ({ ctx with cursor := cursor } : VlStreamCtxMem).Shows start readOnly (v.seek cursor) :=
  ⟨h.readOnly_eq, h.start_eq, h.size_eq, rfl, hle, h.bound, h.whole, h.null⟩

theorem base_eq (h : ctx.Shows start readOnly v) (origin : VlStreamOrigin) :
    ctx.base origin = v.base origin := by
  cases origin with
  | seekSet => rfl
  | seekCur => exact h.cursor_eq
  | seekEnd => exact h.size_eq

end VlStreamCtxMem.Shows

/-- **`StreamMemRead` reads the array.** -/
theorem streamMemRead_spec (h : ctx.Shows start readOnly v) {room n : ℕ} (hroom : n ≤ room) :
    Returns (streamMemRead room n ctx) fun r =>
      .read r.1.1 r.1.2 = (fixedCall readOnly v (.read (some room) n)).1 ∧
        r.2.Shows start readOnly (fixedCall readOnly v (.read (some room) n)).2 := by
  have hle := h.cursor_le
  have hbound := h.bound
  have hcount : (if n > v.remaining then v.remaining else n) = min n v.remaining := by
    split_ifs <;> omega
  rw [streamMemRead, h.available_eq, fixedCall]
  dsimp only
  rw [hcount]
  split_ifs with hnone
  · -- nothing is left
    refine returns_ok ⟨by rw [hnone, Nat.min_zero]; rfl, ?_⟩
    rw [hnone, Nat.min_zero, Nat.add_zero]
    exact h
  · obtain ⟨mem, hmem, hderef, hsize⟩ := h.exists_start hnone
    have hfit : v.cursor + min n v.remaining ≤ v.bytes.length := by
      rw [ByteVector.remaining]
      omega
    have hread : (mem.bytes.write 0 v.bytes).slice v.cursor (min n v.remaining) =
        (v.bytes.drop v.cursor).take (min n v.remaining) := by
      have hpart := ByteMem.slice_write_part (m := mem.bytes) (p := 0) hfit
      rwa [Nat.zero_add] at hpart
    have hcursor : (v.cursor + min n v.remaining) % 2 ^ 64 = v.cursor + min n v.remaining :=
      Nat.mod_eq_of_lt (by omega)
    rw [hderef, ok_bind, h.cursor_eq, VlMemory.load_eq (by dsimp only; omega), ok_bind,
      hread, memcpyOut_eq, ok_bind, hcursor]
    · exact returns_ok ⟨rfl, h.seek hfit⟩
    · rw [List.length_take]
      omega

/-- **`StreamMemWrite` writes the array**, unless the block is read-only. -/
theorem streamMemWrite_spec (h : ctx.Shows start readOnly v) {src : List UInt8} {n : ℕ}
    (hsrc : n ≤ src.length) :
    Returns (streamMemWrite src n ctx) fun r =>
      .write r.1 = (fixedCall readOnly v (.write (some src) n)).1 ∧
        r.2.Shows start readOnly (fixedCall readOnly v (.write (some src) n)).2 := by
  have hle := h.cursor_le
  have hbound := h.bound
  have hcount : (if n > v.remaining then v.remaining else n) = min n v.remaining := by
    split_ifs <;> omega
  rw [streamMemWrite, h.readOnly_eq, h.available_eq, fixedCall]
  dsimp only
  rw [hcount]
  split_ifs with hreadOnly hnone
  · exact returns_ok ⟨rfl, h⟩
  · -- nothing is left
    refine returns_ok ⟨by rw [hnone, Nat.min_zero], ?_⟩
    have hstay : v.write [] = v := by
      rw [ByteVector.write, List.append_nil, List.length_nil, Nat.add_zero, List.take_append_drop]
    rw [hnone, Nat.min_zero, List.take_zero, hstay]
    exact h
  · obtain ⟨mem, hmem, hderef, hsize⟩ := h.exists_start hnone
    have hfit : v.cursor + min n v.remaining ≤ v.bytes.length := by
      rw [ByteVector.remaining]
      omega
    have hlength : (src.take (min n v.remaining)).length = min n v.remaining :=
      List.length_take_of_le (by omega)
    have hwrite : (mem.bytes.write 0 v.bytes).write v.cursor (src.take (min n v.remaining)) =
        mem.bytes.write 0 (v.write (src.take (min n v.remaining))).bytes := by
      have hpart : (mem.bytes.write 0 v.bytes).write (0 + v.cursor) (src.take (min n v.remaining)) = _ :=
        ByteMem.write_write_part (by rwa [hlength])
      rwa [Nat.zero_add] at hpart
    have hcursor : (v.cursor + min n v.remaining) % 2 ^ 64 = v.cursor + min n v.remaining :=
      Nat.mod_eq_of_lt (by omega)
    have hbytes : (v.write (src.take (min n v.remaining))).bytes.length = v.bytes.length :=
      ByteVector.length_write (by rwa [hlength])
    rw [hderef, ok_bind, h.cursor_eq, VlMemory.memcpy, if_pos (by omega),
      VlMemory.store_eq (by dsimp only; omega), ok_bind, hcursor, hwrite]
    refine returns_ok ⟨rfl, rfl, ?_, by rw [hbytes]; exact h.size_eq, ?_, ?_, by rwa [hbytes], ?_, ?_⟩
    · rw [hmem]
      rfl
    · rw [ByteVector.write, hlength]
    · rw [hbytes, ByteVector.write, hlength]
      exact hfit
    · rw [hbytes]
      exact h.whole
    · intro hnull
      cases hnull.symm.trans hmem

/-- **`StreamMemSeek` seeks in the array.** -/
theorem streamMemSeek_spec (h : ctx.Shows start readOnly v) {offset : ℤ} {origin : VlStreamOrigin}
    (hsum : FitsInt64 (ctx.base origin + offset)) :
    Returns (streamMemSeek offset origin ctx) fun r =>
      .seek r.1 = (fixedCall readOnly v (.seek offset origin)).1 ∧
        r.2.Shows start readOnly (fixedCall readOnly v (.seek offset origin)).2 := by
  have hle := h.cursor_le
  have hbound := h.bound
  have hbase := h.base_eq origin
  rw [hbase] at hsum
  have hsize : toInt64 ctx.size = v.bytes.length := by rw [h.size_eq, toInt64_eq hbound]
  have hnewPos : streamMemNewPos offset ctx origin = .ok (v.base origin + offset) := by
    cases origin with
    | seekSet => exact congrArg Except.ok (Int.zero_add offset).symm
    | seekCur =>
      rw [streamMemNewPos, h.cursor_eq, toInt64_eq (hle.trans_lt hbound)]
      exact addInt64_eq hsum
    | seekEnd =>
      rw [streamMemNewPos, hsize]
      exact addInt64_eq hsum
  rw [streamMemSeek, hnewPos, ok_bind, fixedCall, hsize]
  dsimp only
  generalize (v.base origin : ℤ) + offset = target
  split_ifs with hneg hpast
  · exact returns_ok ⟨rfl, h⟩
  · have hend : ((v.bytes.length : ℤ) % 2 ^ 64).toNat = min target.toNat v.bytes.length := by omega
    rw [hend]
    exact returns_ok ⟨rfl, h.seek (Nat.min_le_right _ _)⟩
  · have hinside : (target % 2 ^ 64).toNat = min target.toNat v.bytes.length := by omega
    rw [hinside]
    exact returns_ok ⟨rfl, h.seek (Nat.min_le_right _ _)⟩

/-- **`StreamMemTell` tells the cursor.** -/
theorem streamMemTell_spec (h : ctx.Shows start readOnly v) : streamMemTell ctx = v.cursor := by
  rw [streamMemTell, h.cursor_eq, toInt64_eq (h.cursor_le.trans_lt h.bound)]

/-- The stream has the functions it was opened with, and its context stands for the array. -/
structure VlStream.OnMemory (stream : VlStream VlStreamCtxMem) (start : Option VlMemory) (readOnly : Bool)
    (v : ByteVector) : Prop where
  read_eq : stream.read = some streamMemRead
  write_eq : stream.write = if readOnly then none else some streamMemWrite
  seek_eq : stream.seek = some streamMemSeek
  tell_eq : stream.tell = some streamMemTell
  shows : stream.userData.Shows start readOnly v

variable {stream : VlStream VlStreamCtxMem}

/-- **Step lemma**: a call returns what the array says, and the stream stands for what the array becomes. -/
theorem vlStreamCall_fixed (h : stream.OnMemory start readOnly v) {o : StreamCall}
    (hg : streamMem.guard stream o) :
    ∃ stream', vlStreamCall stream o = .ok ((fixedCall readOnly v o).1, stream') ∧
      stream'.OnMemory start readOnly (fixedCall readOnly v o).2 := by
  cases o with
  | read outBuffer outLength =>
    cases outBuffer with
    | none => exact ⟨stream, vlStreamCall_read_none, h⟩
    | some room =>
      obtain ⟨r, hop, hanswer, hshows⟩ := streamMemRead_spec h.shows (hg.1.2 room rfl)
      obtain ⟨total, hcall⟩ := vlStreamCall_read h.read_eq hop
      rw [hcall, hanswer]
      exact ⟨_, rfl, h.read_eq, h.write_eq, h.seek_eq, h.tell_eq, hshows⟩
  | write inBuffer inLength =>
    cases inBuffer with
    | none => exact ⟨stream, vlStreamCall_write_none, h⟩
    | some src =>
      cases readOnly with
      | true => exact ⟨stream, vlStreamCall_write_unset h.write_eq, h⟩
      | false =>
        obtain ⟨r, hop, hanswer, hshows⟩ := streamMemWrite_spec h.shows (hg.1.2 src rfl)
        obtain ⟨total, hcall⟩ := vlStreamCall_write h.write_eq hop
        rw [hcall, hanswer]
        exact ⟨_, rfl, h.read_eq, h.write_eq, h.seek_eq, h.tell_eq, hshows⟩
  | seek offset origin =>
    obtain ⟨r, hop, hanswer, hshows⟩ := streamMemSeek_spec h.shows hg.2
    rw [vlStreamCall_seek h.seek_eq hop, hanswer]
    exact ⟨_, rfl, h.read_eq, h.write_eq, h.seek_eq, h.tell_eq, hshows⟩
  | tell =>
    refine ⟨stream, ?_, h⟩
    rw [vlStreamCall_tell h.tell_eq, streamMemTell_spec h.shows]
    rfl

/-- The bytes of a block. A null block has none. -/
def blockBytes (memory : Option VlMemory) : List UInt8 :=
  memory.elim [] fun mem => mem.bytes.slice 0 mem.size

/-- The block with its own bytes written to it. -/
theorem map_write_blockBytes :
    start.map (fun mem => ⟨mem.bytes.write 0 (blockBytes start), mem.size⟩) = start := by
  cases start with
  | none => rfl
  | some mem => rw [Option.map_some, blockBytes, Option.elim_some, ByteMem.write_slice_self]

/-- **A new stream** stands for the bytes of its block, with the cursor in front. -/
theorem internalOpenMem_spec {size : ℕ} (hsize : size < 2 ^ 63) (hblock : ∀ mem ∈ start, mem.size = size)
    (hopen : internalOpenMem start size readOnly = some stream) :
    stream.OnMemory start readOnly ⟨blockBytes start, 0⟩ ∧ (blockBytes start).length = size := by
  have hnull : start = none → size = 0 := by
    rintro rfl
    by_contra hpos
    rw [internalOpenMem, if_pos ⟨rfl, Nat.pos_of_ne_zero hpos⟩] at hopen
    cases hopen
  have hlength : (blockBytes start).length = size := by
    cases hstart : start with
    | none => exact (hnull hstart).symm
    | some mem => exact ByteMem.length_slice.trans (hblock mem hstart)
  have hshows : (⟨start, size, 0, readOnly⟩ : VlStreamCtxMem).Shows start readOnly ⟨blockBytes start, 0⟩ :=
    ⟨rfl, map_write_blockBytes.symm, hlength.symm, rfl, Nat.zero_le _, hlength.trans_lt hsize,
      fun mem hmem => (hblock mem hmem).trans hlength.symm,
      fun hnone => List.eq_nil_of_length_eq_zero (hlength.trans (hnull hnone))⟩
  rw [internalOpenMem] at hopen
  split_ifs at hopen with hrefused hro
  · obtain rfl := Option.some_injective _ hopen
    exact ⟨⟨rfl, by rw [hro]; rfl, rfl, rfl, hshows⟩, hlength⟩
  · obtain rfl := Option.some_injective _ hopen
    exact ⟨⟨rfl, by rw [if_neg hro], rfl, rfl, hshows⟩, hlength⟩

end Simulation

/-- **A memory stream refines an array of fixed length with a cursor.** Whatever was called before, a call whose
sum does not overflow returns what the array says; the block has the bytes of the array, and those behind it
are left alone; the cursor does not pass the end; and nothing changes a read-only block. -/
theorem vlStreamMemory_refines {memory : Option VlMemory} {size : ℕ} {readOnly : Bool}
    {stream : VlStream VlStreamCtxMem} (hsize : size < 2 ^ 63) (hblock : ∀ mem ∈ memory, mem.size = size)
    (hopen : internalOpenMem memory size readOnly = some stream) :
    streamMem.Refines (.pure (fixedCall readOnly)) stream ⟨blockBytes memory, 0⟩ ∧
      ∀ (ops : List StreamCall) (s : VlStream VlStreamCtxMem) (v : ByteVector),
        (streamMem.against (.pure (fixedCall readOnly))).Run (stream, ⟨blockBytes memory, 0⟩) ops (s, v) →
        s.userData.start = memory.map (fun mem => ⟨mem.bytes.write 0 v.bytes, mem.size⟩) ∧
          v.bytes.length = size ∧ s.userData.cursor = v.cursor ∧ s.userData.cursor ≤ size ∧
          (readOnly = true → s.userData.start = memory) := by
  obtain ⟨hinit, hlength⟩ := internalOpenMem_spec hsize hblock hopen
  have hsim : streamMem.Simulation (.pure (fixedCall readOnly)) fun s v =>
      s.OnMemory memory readOnly v ∧ v.bytes.length = size ∧
        (readOnly = true → v.bytes = blockBytes memory) := by
    rintro s v o ⟨hs, hv, hro⟩ hg
    obtain ⟨s', hcall, hs'⟩ := vlStreamCall_fixed hs hg
    refine ⟨_, s', _, hcall, rfl, hs', (length_fixedCall hs.shows.cursor_le).trans hv, ?_⟩
    rintro rfl
    exact bytes_fixedCall.trans (hro rfl)
  refine ⟨Component.refines_of_simulation hsim ⟨hinit, hlength, fun _ => rfl⟩, fun ops s v hrun => ?_⟩
  obtain ⟨hs, hv, hro⟩ := hsim.run hrun ⟨hinit, hlength, fun _ => rfl⟩
  have hcursor := hs.shows.cursor_eq
  refine ⟨hs.shows.start_eq, hv, hcursor, hcursor.trans_le (hs.shows.cursor_le.trans_eq hv), fun h => ?_⟩
  rw [hs.shows.start_eq, hro h, map_write_blockBytes]

instance (D : Component ByteVector StreamCall StreamAnswer) (s : VlStream VlStreamCtxMem × ByteVector)
    (o : StreamCall) : Decidable ((streamMem.against D).guard s o) :=
  inferInstanceAs (Decidable (streamMem.guard s.1 o))

/-- Of two bytes one fits behind the last but one, and a seek before the start goes nowhere. -/
theorem vlStreamMemory_refines_truncated : ∃ (stream s : VlStream VlStreamCtxMem) (v : ByteVector),
    vlStreamOpenMemoryMutable (some ⟨fun q => UInt8.ofNat q, 4⟩) 4 = some stream ∧
      (streamMem.against (.pure (fixedCall false))).Run (stream, ⟨[0, 1, 2, 3], 0⟩)
        [.seek (-1) .seekEnd, .write (some [7, 8]) 2, .seek (-9) .seekCur] (s, v) ∧
      v.bytes = [0, 1, 2, 7] ∧ v.cursor = 4 ∧
      s.userData.start = some ⟨ByteMem.write (fun q => UInt8.ofNat q) 0 v.bytes, 4⟩ := by
  have hexec : ((streamMem.against (.pure (fixedCall false))).exec
      (⟨some streamMemRead, some streamMemWrite, some streamMemSeek, some streamMemTell,
        ⟨some ⟨fun q => UInt8.ofNat q, 4⟩, 4, 0, false⟩, 0, 0⟩, ⟨[0, 1, 2, 3], 0⟩)
      [.seek (-1) .seekEnd, .write (some [7, 8]) 2, .seek (-9) .seekCur]).any
      (fun s => decide (s.2.bytes = [0, 1, 2, 7] ∧ s.2.cursor = 4)) = true := by decide +kernel
  obtain ⟨⟨s, v⟩, hrun, hend⟩ := Machine.exists_run_of_exec hexec
  obtain ⟨hbytes, hcursor⟩ := of_decide_eq_true hend
  have hblock : ∀ mem ∈ (some ⟨fun q => UInt8.ofNat q, 4⟩ : Option VlMemory), mem.size = 4 := by
    rintro _ ⟨⟩
    rfl
  obtain ⟨-, hstates⟩ := vlStreamMemory_refines (by norm_num) hblock rfl
  exact ⟨_, s, v, rfl, hrun, hbytes, hcursor, (hstates _ s v hrun).1⟩

end VeritableLasagna
