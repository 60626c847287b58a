import VeritableLasagna.Stream.Basic
import VeritableLasagna.Memory.Vector

/-!
# Streams on a buffer

A buffer stream hands its calls to the functions of `vl_buffer`, whose sums and differences are unsigned.
`vlBufferRead` takes the bytes from the offset to the end for a difference that does not wrap, and copies all
the bytes that were asked for, not those that are left; a seek relative to the offset goes before the start
where the other two do not.

`StreamCall.Regular` says for which calls this makes no difference, and **`vlStreamBuffer_bounded_iff`** that it
makes one for all others, in whatever state a run reaches.
-/

namespace VeritableLasagna

/-- `vlBufferSeekRelative`. The sum is unsigned. -/
def vlBufferSeekRelative (buffer : VlBuffer) (offset : ℤ) : VlBuffer :=
  { buffer with offset := (((buffer.offset : ℤ) + offset) % 2 ^ 64).toNat }

/-- The count of `vlBufferRead`. Sum and difference are unsigned. -/
def vlBufferActualRead (buffer : VlBuffer) (size : ℕ) : ℕ :=
  if (buffer.offset + size) % 2 ^ 64 > buffer.size then (buffer.size + 2 ^ 64 - buffer.offset) % 2 ^ 64
  else size

/-- `vlBufferRead`, to a destination with the given room: the bytes that are copied, and the count. -/
def vlBufferRead (buffer : VlBuffer) (size room : ℕ) : Except Fault ((List UInt8 × ℕ) × VlBuffer) := do
  let actualRead := vlBufferActualRead buffer size
  let copied ← if actualRead > 0 then do
      let bs ← buffer.data.load buffer.offset size
      memcpyOut room bs
    else .ok []
  return ((copied, actualRead), { buffer with offset := (buffer.offset + actualRead) % 2 ^ 64 })

/-- `vl_stream_ctx_buffer`. -/
structure VlStreamCtxBuffer where
  buffer : VlBuffer
  ownsBuffer : Bool

/-- `StreamBufferRead`. -/
def streamBufferRead (room size : ℕ) (ctx : VlStreamCtxBuffer) :
    Except Fault ((List UInt8 × ℕ) × VlStreamCtxBuffer) := do
  let (r, buffer) ← vlBufferRead ctx.buffer size room
  return (r, { ctx with buffer := buffer })

/-- `StreamBufferWrite`. -/
def streamBufferWrite (src : List UInt8) (size : ℕ) (ctx : VlStreamCtxBuffer) :
    Except Fault (ℕ × VlStreamCtxBuffer) := do
  -- where the sum wraps, the block is too small for the copy, however far it grows
  if 2 ^ 64 ≤ size + ctx.buffer.offset then .error .outOfBounds
  else
    let (oldOffset, buffer) ← vlBufferWrite ctx.buffer size (some src)
    return (buffer.offset - oldOffset, { ctx with buffer := buffer })

/-- `StreamBufferSeek`. -/
def streamBufferSeek (offset : ℤ) (origin : VlStreamOrigin) (ctx : VlStreamCtxBuffer) :
    Except Fault (Bool × VlStreamCtxBuffer) :=
  match origin with
  | .seekSet =>
    if offset < 0 then .ok (false, ctx)
    else .ok (true, { ctx with buffer := vlBufferSeek ctx.buffer offset.toNat })
  | .seekCur => .ok (true, { ctx with buffer := vlBufferSeekRelative ctx.buffer offset })
  | .seekEnd => do
    let endPos ← addInt64 (toInt64 ctx.buffer.size) offset
    if endPos < 0 then return (false, ctx)
    else return (true, { ctx with buffer := vlBufferSeek ctx.buffer endPos.toNat })

/-- `StreamBufferTell`. -/
def streamBufferTell (ctx : VlStreamCtxBuffer) : ℤ := toInt64 ctx.buffer.offset

/-- `vlStreamOpenBuffer`, when its own allocations are served. A missing buffer is `none`. -/
def vlStreamOpenBuffer (buffer : Option VlBuffer) (takeOwnership : Bool) :
    Option (VlStream VlStreamCtxBuffer) :=
  buffer.map fun buffer =>
    { vlStreamNew (⟨buffer, takeOwnership⟩ : VlStreamCtxBuffer) with
      read := some streamBufferRead
      write := some streamBufferWrite
      seek := some streamBufferSeek
      tell := some streamBufferTell }

/-! ### What the calls are to do -/

/-- Where the origin of a seek stands. -/
def VlBuffer.base (buffer : VlBuffer) : VlStreamOrigin → ℕ
  | .seekSet => 0
  | .seekCur => buffer.offset
  | .seekEnd => buffer.size

namespace StreamCall

/-- A read gives the bytes that are left, as far as they are asked for, and goes behind them; a seek to before
the start fails and changes nothing. -/
def Bounded (stream : VlStream VlStreamCtxBuffer) : StreamCall → Prop
  | .read (some room) n =>
    let buffer := stream.userData.buffer
    let count := min n (buffer.size - buffer.offset)
    ∃ stream', vlStreamCall stream (.read (some room) n) =
        .ok (.read (buffer.data.bytes.slice buffer.offset count) count, stream') ∧
      stream'.userData.buffer = { buffer with offset := buffer.offset + count }
  | .seek offset origin =>
    (StreamCall.seek offset origin).target stream.userData.buffer.base < 0 →
      vlStreamCall stream (.seek offset origin) = .ok (.seek false, stream)
  | _ => True

/-- A read stays in the recorded size, or begins at its end and does not wrap; a seek to before the start is
not relative to the offset. -/
def Regular (buffer : VlBuffer) : StreamCall → Prop
  | .read (some _) n =>
    buffer.offset + n ≤ buffer.size ∨ buffer.offset = buffer.size ∧ buffer.offset + n < 2 ^ 64
  | .seek offset origin => 0 ≤ (StreamCall.seek offset origin).target buffer.base ∨ origin ≠ .seekCur
  | _ => True

/-- The one sum that is signed does not overflow. -/
def NoOverflow (buffer : VlBuffer) : StreamCall → Prop
  | .seek offset .seekEnd => FitsInt64 (buffer.size + offset)
  | _ => True

end StreamCall

/-- Calls on a buffer stream. -/
def streamBuffer : Machine (VlStream VlStreamCtxBuffer) StreamCall where
  guard stream o := o.WellFormed ∧ o.NoOverflow stream.userData.buffer
  step stream o := do
    let (_, stream) ← vlStreamCall stream o
    return stream

/-! ### Reads -/

/-- What every function of a buffer keeps. -/
structure VlBuffer.Sound (buffer : VlBuffer) : Prop where
  size_le : buffer.size ≤ buffer.data.size
  bound : buffer.data.size < 2 ^ 63
  offset_lt : buffer.offset < 2 ^ 64

section Reads

variable {buffer buffer' : VlBuffer} {n room count : ℕ} {bs : List UInt8}

/-- **What a read does**: where its count is not zero, it copies all it was asked for. -/
theorem vlBufferRead_cases (hop : vlBufferRead buffer n room = .ok ((bs, count), buffer')) :
    count = vlBufferActualRead buffer n ∧ (0 < count → bs.length = n ∧ buffer.offset + n ≤ buffer.data.size) ∧
      buffer' = { buffer with offset := (buffer.offset + count) % 2 ^ 64 } := by
  rw [vlBufferRead] at hop
  split_ifs at hop with hpos
  · obtain ⟨loaded, hload, hop⟩ := exists_of_bind_eq_ok hop
    obtain ⟨copied, hout, hret⟩ := exists_of_bind_eq_ok hop
    obtain ⟨⟨⟩, rfl⟩ := Prod.mk.inj (Except.ok.inj hret)
    rw [VlMemory.load] at hload
    split_ifs at hload with hfit
    obtain rfl := Except.ok.inj hload
    rw [memcpyOut] at hout
    split_ifs at hout
    obtain rfl := Except.ok.inj hout
    exact ⟨rfl, fun _ => ⟨ByteMem.length_slice, hfit⟩, rfl⟩
  · obtain ⟨⟨⟩, rfl⟩ := Prod.mk.inj (Except.ok.inj hop)
    exact ⟨rfl, fun hcount => absurd hcount hpos, rfl⟩

/-- **A regular read** gives what is left, as far as it is asked for. -/
theorem vlBufferRead_regular (h : buffer.Sound) (hroom : n ≤ room)
    (hreg : (StreamCall.read (some room) n).Regular buffer) :
    vlBufferRead buffer n room =
      .ok ((buffer.data.bytes.slice buffer.offset (min n (buffer.size - buffer.offset)),
          min n (buffer.size - buffer.offset)),
        { buffer with offset := buffer.offset + min n (buffer.size - buffer.offset) }) := by
  have hsize := h.size_le
  have hbound := h.bound
  have hactual : vlBufferActualRead buffer n = min n (buffer.size - buffer.offset) := by
    rw [vlBufferActualRead]
    rw [StreamCall.Regular] at hreg
    split_ifs <;> omega
  have hoffset : (buffer.offset + min n (buffer.size - buffer.offset)) % 2 ^ 64 =
      buffer.offset + min n (buffer.size - buffer.offset) := by
    rw [StreamCall.Regular] at hreg
    omega
  rw [vlBufferRead, hactual]
  dsimp only
  rw [hoffset]
  split_ifs with hpos
  · rw [StreamCall.Regular] at hreg
    have hall : min n (buffer.size - buffer.offset) = n := by omega
    rw [hall, VlMemory.load_eq (by omega), ok_bind, memcpyOut_eq (by rwa [ByteMem.length_slice])]
    rfl
  · have hnone : min n (buffer.size - buffer.offset) = 0 := by omega
    rw [hnone]
    rfl

/-- **Only regular reads** give what is left. -/
theorem regular_of_vlBufferRead (h : buffer.Sound) (hn : n < 2 ^ 64)
    (hop : vlBufferRead buffer n room =
      .ok ((buffer.data.bytes.slice buffer.offset (min n (buffer.size - buffer.offset)),
        min n (buffer.size - buffer.offset)), buffer')) :
    (StreamCall.read (some room) n).Regular buffer := by
  have hsize := h.size_le
  have hbound := h.bound
  have hoffset := h.offset_lt
  obtain ⟨hcount, hall, -⟩ := vlBufferRead_cases hop
  rw [ByteMem.length_slice] at hall
  rw [StreamCall.Regular]
  rw [vlBufferActualRead] at hcount
  split_ifs at hcount <;> omega

end Reads

/-! ### What every call keeps -/

/-- The loop passes its bound, wherever it starts. -/
theorem vlMemDouble_bounds {bound fuel size newSize : ℕ} (hop : vlMemDouble bound fuel size = .ok newSize)
    (hsize : size < 2 ^ 63) : bound < newSize ∧ size ≤ newSize ∧ newSize < 2 ^ 63 := by
  induction fuel generalizing size with
  | zero => cases hop
  | succ fuel ih =>
    rw [vlMemDouble] at hop
    split_ifs at hop with hle hbig
    · obtain ⟨hgt, hge, hlt⟩ := ih hop (by omega)
      exact ⟨hgt, by omega, hlt⟩
    · obtain rfl := Except.ok.inj hop
      exact ⟨by omega, le_rfl, hsize⟩

/-- A copy leaves the size of the block as it is. -/
theorem memcpy_size {mem mem' : VlMemory} {p n : ℕ} {src : List UInt8}
    (hop : mem.memcpy p n src = .ok mem') : mem'.size = mem.size := by
  rw [VlMemory.memcpy] at hop
  split_ifs at hop
  rw [VlMemory.store] at hop
  split_ifs at hop
  obtain rfl := Except.ok.inj hop
  rfl

namespace VlBuffer.Sound

variable {buffer buffer' : VlBuffer} {n room : ℕ}

theorem seek (h : buffer.Sound) {offset : ℕ} (hoffset : offset < 2 ^ 64) :
    ({ buffer with offset := offset } : VlBuffer).Sound :=
  ⟨h.size_le, h.bound, hoffset⟩

theorem read (h : buffer.Sound) {r : List UInt8 × ℕ} (hop : vlBufferRead buffer n room = .ok (r, buffer')) :
    buffer'.Sound := by
  obtain ⟨-, -, rfl⟩ := vlBufferRead_cases hop
  exact h.seek (Nat.mod_lt _ (by norm_num))

theorem write (h : buffer.Sound) {src : List UInt8} {oldOffset : ℕ}
    (hop : vlBufferWrite buffer n (some src) = .ok (oldOffset, buffer')) : buffer'.Sound := by
  obtain ⟨newSize, hdouble, hop⟩ := exists_of_bind_eq_ok hop
  obtain ⟨hgt, hge, hlt⟩ := vlMemDouble_bounds hdouble h.bound
  have hle : buffer.size ≤ newSize := h.size_le.trans hge
  have hdata : (if newSize > vlMemSize buffer.data then vlMemRealloc buffer.data newSize
      else buffer.data).size = newSize := by
    split_ifs with hgrow
    · rfl
    · exact Nat.le_antisymm hge (Nat.not_lt.mp hgrow)
  obtain ⟨data, hcopy, hret⟩ := exists_of_bind_eq_ok hop
  have hcopied : data.size = newSize := (memcpy_size hcopy).trans hdata
  obtain ⟨-, rfl⟩ := Prod.mk.inj (Except.ok.inj hret)
  have hmax : (if buffer.offset + n > buffer.size then buffer.offset + n else buffer.size) ≤ newSize := by
    split_ifs <;> omega
  refine ⟨hmax.trans_eq hcopied.symm, hcopied.trans_lt hlt, ?_⟩
  dsimp only
  omega

end VlBuffer.Sound

/-- A seek keeps the buffer sound. -/
theorem streamBufferSeek_sound {ctx ctx' : VlStreamCtxBuffer} {offset : ℤ} {origin : VlStreamOrigin}
    {result : Bool} (h : ctx.buffer.Sound) (hoffset : FitsInt64 offset)
    (hop : streamBufferSeek offset origin ctx = .ok (result, ctx')) : ctx'.buffer.Sound := by
  have hlt := hoffset.2
  cases origin with
  | seekSet =>
    rw [streamBufferSeek] at hop
    split_ifs at hop
    · obtain ⟨-, rfl⟩ := Prod.mk.inj (Except.ok.inj hop)
      exact h
    · obtain ⟨-, rfl⟩ := Prod.mk.inj (Except.ok.inj hop)
      exact h.seek (by omega)
  | seekCur =>
    obtain ⟨-, rfl⟩ := Prod.mk.inj (Except.ok.inj hop)
    exact h.seek (by omega)
  | seekEnd =>
    obtain ⟨endPos, hsum, hop⟩ := exists_of_bind_eq_ok hop
    rw [addInt64] at hsum
    split_ifs at hsum with hfits
    obtain rfl := Except.ok.inj hsum
    have hend := hfits.2
    split_ifs at hop
    · obtain ⟨-, rfl⟩ := Prod.mk.inj (Except.ok.inj hop)
      exact h
    · obtain ⟨-, rfl⟩ := Prod.mk.inj (Except.ok.inj hop)
      exact h.seek (by omega)

/-- A seek relative to the offset always succeeds. -/
theorem streamBufferSeek_cur (offset : ℤ) (ctx : VlStreamCtxBuffer) :
    streamBufferSeek offset .seekCur ctx =
      .ok (true, { ctx with buffer := vlBufferSeekRelative ctx.buffer offset }) := rfl

/-- **The other seeks** reject what is before the start. -/
theorem streamBufferSeek_neg {ctx : VlStreamCtxBuffer} {offset : ℤ} {origin : VlStreamOrigin}
    (h : ctx.buffer.Sound) (hcur : origin ≠ .seekCur)
    (hsum : (StreamCall.seek offset origin).NoOverflow ctx.buffer)
    (hneg : (StreamCall.seek offset origin).target ctx.buffer.base < 0) :
    streamBufferSeek offset origin ctx = .ok (false, ctx) := by
  cases origin with
  | seekSet =>
    have hoffset : offset < 0 := (Int.zero_add offset).symm.trans_lt hneg
    rw [streamBufferSeek, if_pos hoffset]
  | seekCur => exact absurd rfl hcur
  | seekEnd =>
    have hend : addInt64 (toInt64 ctx.buffer.size) offset = .ok (ctx.buffer.size + offset) := by
      rw [toInt64_eq (h.size_le.trans_lt h.bound)]
      exact addInt64_eq hsum
    rw [streamBufferSeek, hend, ok_bind]
    exact if_pos hneg

theorem streamBufferRead_eq {ctx : VlStreamCtxBuffer} {buffer : VlBuffer} {r : List UInt8 × ℕ} {n room : ℕ}
    (hop : vlBufferRead ctx.buffer n room = .ok (r, buffer)) :
    streamBufferRead room n ctx = .ok (r, { ctx with buffer := buffer }) := by
  rw [streamBufferRead, hop]
  rfl

/-- The stream has the functions it was opened with, and its buffer is sound. -/
structure VlStream.OnBuffer (stream : VlStream VlStreamCtxBuffer) : Prop where
  read_eq : stream.read = some streamBufferRead
  write_eq : stream.write = some streamBufferWrite
  seek_eq : stream.seek = some streamBufferSeek
  tell_eq : stream.tell = some streamBufferTell
  sound : stream.userData.buffer.Sound

section Calls

variable {stream stream' : VlStream VlStreamCtxBuffer} {o : StreamCall} {n : ℕ}

/-- **Step lemma**: every call keeps the functions of the stream and its buffer sound. -/
theorem streamBuffer_step (h : stream.OnBuffer) (hg : streamBuffer.guard stream o)
    (hstep : streamBuffer.step stream o = .ok stream') : stream'.OnBuffer := by
  obtain ⟨⟨r, stream''⟩, hcall, hret⟩ := exists_of_bind_eq_ok hstep
  obtain rfl := Except.ok.inj hret
  obtain ⟨⟨hread, hwrite, hseek, htell⟩, hcases⟩ := vlStreamCall_cases hcall
  refine ⟨hread.trans h.read_eq, hwrite.trans h.write_eq, hseek.trans h.seek_eq, htell.trans h.tell_eq, ?_⟩
  rcases hcases with ⟨room, n, read, bs, count, rfl, hset, hop⟩ | ⟨src, n, write, count, rfl, hset, hop⟩ |
    ⟨offset, origin, seek, result, rfl, hset, hop⟩ | rfl
  · obtain rfl := Option.some_injective _ (h.read_eq.symm.trans hset)
    obtain ⟨⟨r, buffer⟩, hbuffer, hret⟩ := exists_of_bind_eq_ok hop
    obtain ⟨-, hctx⟩ := Prod.mk.inj (Except.ok.inj hret)
    rw [← hctx]
    exact h.sound.read hbuffer
  · obtain rfl := Option.some_injective _ (h.write_eq.symm.trans hset)
    rw [streamBufferWrite] at hop
    split_ifs at hop
    obtain ⟨⟨oldOffset, buffer⟩, hbuffer, hret⟩ := exists_of_bind_eq_ok hop
    obtain ⟨-, hctx⟩ := Prod.mk.inj (Except.ok.inj hret)
    rw [← hctx]
    exact h.sound.write hbuffer
  · obtain rfl := Option.some_injective _ (h.seek_eq.symm.trans hset)
    exact streamBufferSeek_sound h.sound hg.1 hop
  · exact h.sound

/-- **A call is bounded exactly where it is regular**. -/
theorem bounded_iff_regular (h : stream.OnBuffer) (hg : streamBuffer.guard stream o) :
    o.Bounded stream ↔ o.Regular stream.userData.buffer := by
  cases o with
  | read outBuffer n =>
    cases outBuffer with
    | none => exact Iff.rfl
    | some room =>
      constructor
      · rintro ⟨stream', hcall, -⟩
        obtain ⟨⟨r, buffer'⟩, hbuffer, hret⟩ := exists_of_bind_eq_ok (read_of_vlStreamCall h.read_eq hcall)
        obtain ⟨rfl, -⟩ := Prod.mk.inj (Except.ok.inj hret)
        exact regular_of_vlBufferRead h.sound hg.1.1 hbuffer
      · intro hreg
        have hread := vlBufferRead_regular h.sound (hg.1.2 room rfl) hreg
        obtain ⟨total, hcall⟩ := vlStreamCall_read h.read_eq (streamBufferRead_eq hread)
        exact ⟨_, hcall, rfl⟩
  | write inBuffer n => cases inBuffer <;> exact Iff.rfl
  | seek offset origin =>
    by_cases hcur : origin = .seekCur
    · subst hcur
      have hcall := vlStreamCall_seek h.seek_eq (streamBufferSeek_cur offset stream.userData)
      constructor
      · intro hbounded
        refine Or.inl (not_lt.mp fun hneg => ?_)
        cases hcall.symm.trans (hbounded hneg)
      · rintro (hpos | hne)
        · exact fun hneg => absurd hneg (not_lt.mpr hpos)
        · exact absurd rfl hne
    · refine iff_of_true (fun hneg => ?_) (Or.inr hcur)
      exact vlStreamCall_seek h.seek_eq (streamBufferSeek_neg h.sound hcur hg.2 hneg)
  | tell => exact Iff.rfl

/-- **Run lemma**: every state a run reaches has the functions and a sound buffer. -/
theorem streamBuffer_run {buffer : VlBuffer} {takeOwnership : Bool} (hbuffer : buffer.Sound)
    (hopen : vlStreamOpenBuffer (some buffer) takeOwnership = some stream) {ops : List StreamCall}
    (hrun : streamBuffer.Run stream ops stream') : stream'.OnBuffer := by
  refine hrun.invariant (fun _ _ _ hs hg hstep => streamBuffer_step hs hg hstep) ?_
  obtain rfl := Option.some_injective _ hopen
  exact ⟨rfl, rfl, rfl, rfl, hbuffer⟩

end Calls

/-- **The calls of a buffer stream are bounded exactly where they are regular**, in every state that writes,
seeks and reads of any kind reach. -/
theorem vlStreamBuffer_bounded_iff {buffer : VlBuffer} {takeOwnership : Bool}
    {stream s : VlStream VlStreamCtxBuffer} (hbuffer : buffer.Sound)
    (hopen : vlStreamOpenBuffer (some buffer) takeOwnership = some stream) {ops : List StreamCall}
    (hrun : streamBuffer.Run stream ops s) {o : StreamCall} (hg : streamBuffer.guard s o) :
    o.Bounded s ↔ o.Regular s.userData.buffer :=
  bounded_iff_regular (streamBuffer_run hbuffer hopen hrun) hg

instance (buffer : VlBuffer) : ∀ o : StreamCall, Decidable (o.NoOverflow buffer)
  | .seek _ .seekEnd => inferInstanceAs (Decidable (FitsInt64 _))
  | .seek _ .seekSet => .isTrue trivial
  | .seek _ .seekCur => .isTrue trivial
  | .read _ _ => .isTrue trivial
  | .write _ _ => .isTrue trivial
  | .tell => .isTrue trivial

instance (stream : VlStream VlStreamCtxBuffer) (o : StreamCall) : Decidable (streamBuffer.guard stream o) :=
  inferInstanceAs (Decidable (_ ∧ _))

/-- A new buffer is sound. -/
theorem sound_vlBufferInit (contents : ByteMem) : (vlBufferInit contents).Sound := by
  refine ⟨Nat.zero_le _, ?_, Nat.two_pow_pos 64⟩
  change 1024 < 2 ^ 63
  norm_num

/-- A stream on a new buffer, with one byte written to it, at the start. -/
theorem exists_run_one_byte : ∃ stream s : VlStream VlStreamCtxBuffer,
    vlStreamOpenBuffer (some (vlBufferInit fun _ => 0)) false = some stream ∧
      streamBuffer.Run stream [.write (some [7]) 1, .seek 0 .seekSet] s ∧
      s.userData.buffer.offset = 0 ∧ s.userData.buffer.size = 1 := by
  have hexec : (streamBuffer.exec
      ⟨some streamBufferRead, some streamBufferWrite, some streamBufferSeek, some streamBufferTell,
        ⟨vlBufferInit fun _ => 0, false⟩, 0, 0⟩ [.write (some [7]) 1, .seek 0 .seekSet]).any
      (fun s => decide (s.userData.buffer.offset = 0 ∧ s.userData.buffer.size = 1)) = true := by
    decide +kernel
  obtain ⟨s, hrun, hend⟩ := Machine.exists_run_of_exec hexec
  exact ⟨_, s, rfl, hrun, of_decide_eq_true hend⟩

/-- A read of two bytes where one is left copies both, and a seek to before the start succeeds. -/
theorem not_bounded_one_byte : ∃ stream s : VlStream VlStreamCtxBuffer,
    vlStreamOpenBuffer (some (vlBufferInit fun _ => 0)) false = some stream ∧
      streamBuffer.Run stream [.write (some [7]) 1, .seek 0 .seekSet] s ∧
      (streamBuffer.guard s (.read (some 2) 2) ∧ ¬ (StreamCall.read (some 2) 2).Bounded s) ∧
      (streamBuffer.guard s (.seek (-1) .seekCur) ∧ ¬ (StreamCall.seek (-1) .seekCur).Bounded s) := by
  obtain ⟨stream, s, hopen, hrun, hoffset, hsize⟩ := exists_run_one_byte
  have hs := streamBuffer_run (sound_vlBufferInit _) hopen hrun
  have hread : streamBuffer.guard s (.read (some 2) 2) :=
    ⟨⟨by norm_num, fun room hroom => (Option.some_injective _ hroom).le⟩, trivial⟩
  have hseek : streamBuffer.guard s (.seek (-1) .seekCur) :=
    ⟨by norm_num [StreamCall.WellFormed, FitsInt64], trivial⟩
  refine ⟨stream, s, hopen, hrun, ⟨hread, ?_⟩, hseek, ?_⟩
  · rw [bounded_iff_regular hs hread, StreamCall.Regular, hoffset, hsize]
    norm_num
  · rw [bounded_iff_regular hs hseek, StreamCall.Regular, StreamCall.target, VlBuffer.base, hoffset]
    norm_num

/-- The one byte is read. -/
theorem vlStreamBuffer_bounded_iff_one_byte : ∃ stream s : VlStream VlStreamCtxBuffer,
    vlStreamOpenBuffer (some (vlBufferInit fun _ => 0)) false = some stream ∧
      streamBuffer.Run stream [.write (some [7]) 1, .seek 0 .seekSet] s ∧
      (StreamCall.read (some 1) 1).Bounded s := by
  obtain ⟨stream, s, hopen, hrun, hoffset, hsize⟩ := exists_run_one_byte
  have hread : streamBuffer.guard s (.read (some 1) 1) :=
    ⟨⟨by norm_num, fun room hroom => (Option.some_injective _ hroom).le⟩, trivial⟩
  refine ⟨stream, s, hopen, hrun, (vlStreamBuffer_bounded_iff (sound_vlBufferInit _) hopen hrun hread).mpr ?_⟩
  rw [StreamCall.Regular, hoffset, hsize]
  exact Or.inl le_rfl

end VeritableLasagna
