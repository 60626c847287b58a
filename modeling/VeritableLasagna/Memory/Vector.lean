import VeritableLasagna.Memory.Buffer

/-!
# Buffers as byte vectors

What a buffer is for can be said without capacities: it is a vector of bytes with a cursor
(`ByteVector`), and a write overwrites from the cursor on and extends the end where it has to. The
buffer keeps three numbers that move on their own, its capacity, its recorded size and its offset.
`VlBuffer.Represents` ties them to the vector, one lemma per operation shows that it is kept, and
**`vlBuffer_refines`** is the result along every run.

Nothing is known of the bytes behind the block, and a reallocation brings some of them into it. The
runs therefore have a step `elsewhere` in which another owner of the heap changes those bytes.
-/

namespace VeritableLasagna

/-- `vlBufferSeek`. -/
def vlBufferSeek (buffer : VlBuffer) (offset : ℕ) : VlBuffer := { buffer with offset := offset }

/-- `vlBufferSeekBegin`. -/
def vlBufferSeekBegin (buffer : VlBuffer) : VlBuffer := { buffer with offset := 0 }

/-- `vlBufferShrinkToFit`. -/
def vlBufferShrinkToFit (buffer : VlBuffer) : VlBuffer :=
  if buffer.size > 0 then { buffer with data := vlMemRealloc buffer.data buffer.size } else buffer

/-- Another owner of the heap changes the bytes behind the block to those of `contents`. -/
def VlMemory.elsewhere (mem : VlMemory) (contents : ByteMem) : VlMemory :=
  { mem with bytes := fun p => if p < mem.size then mem.bytes p else contents p }

/-! ### The vector -/

/-- A vector of bytes with a cursor. -/
structure ByteVector where
  bytes : List UInt8
  cursor : ℕ

namespace ByteVector

/-- Overwrite from the cursor on, extend the end as needed, and move the cursor behind. -/
def write (v : ByteVector) (bs : List UInt8) : ByteVector :=
  ⟨v.bytes.take v.cursor ++ bs ++ v.bytes.drop (v.cursor + bs.length), v.cursor + bs.length⟩

/-- Move the cursor. -/
def seek (v : ByteVector) (cursor : ℕ) : ByteVector := { v with cursor := cursor }

end ByteVector

/-! ### Buffers that stand for a vector -/

namespace VlBuffer

variable {buffer : VlBuffer} {v : ByteVector}

/-- The buffer stands for the vector: its bytes up to the recorded size are those of the vector, its
offset is the cursor, and offset, size and capacity are in order. -/
structure Represents (buffer : VlBuffer) (v : ByteVector) : Prop where
  nonempty : 0 < buffer.data.size
  bound : buffer.data.size < 2 ^ 63
  bytes_eq : buffer.data.bytes.slice 0 buffer.size = v.bytes
  offset_eq : buffer.offset = v.cursor
  offset_le : buffer.offset ≤ buffer.size
  size_le : buffer.size ≤ buffer.data.size

/-- A new buffer is empty. -/
theorem represents_init (contents : ByteMem) {initialSize : ℕ} (hpos : 0 < initialSize)
    (hbound : initialSize < 2 ^ 63) :
    (vlBufferInitExt contents initialSize).Represents ⟨[], 0⟩ :=
  ⟨hpos, hbound, rfl, rfl, le_rfl, Nat.zero_le _⟩

namespace Represents

theorem seek (h : buffer.Represents v) {offset : ℕ} (hoffset : offset ≤ buffer.size) :
    (vlBufferSeek buffer offset).Represents (v.seek offset) :=
  ⟨h.nonempty, h.bound, h.bytes_eq, rfl, hoffset, h.size_le⟩

theorem seekBegin (h : buffer.Represents v) : (vlBufferSeekBegin buffer).Represents (v.seek 0) :=
  ⟨h.nonempty, h.bound, h.bytes_eq, rfl, Nat.zero_le _, h.size_le⟩

/-- Without a byte in it, the block is left alone, so its capacity stays positive. -/
theorem shrinkToFit (h : buffer.Represents v) : (vlBufferShrinkToFit buffer).Represents v := by
  rw [vlBufferShrinkToFit]
  split_ifs with hpos
  · exact ⟨hpos, h.size_le.trans_lt h.bound, h.bytes_eq, h.offset_eq, h.offset_le, le_rfl⟩
  · exact h

theorem elsewhere (h : buffer.Represents v) (contents : ByteMem) :
    ({ buffer with data := buffer.data.elsewhere contents } : VlBuffer).Represents v := by
  refine ⟨h.nonempty, h.bound, ?_, h.offset_eq, h.offset_le, h.size_le⟩
  rw [← h.bytes_eq]
  refine ByteMem.slice_congr fun q _ hq => ?_
  have hlt : q < buffer.data.size := by
    have hsize : q < 0 + buffer.size := hq
    have := h.size_le
    omega
  exact if_pos hlt

end Represents

end VlBuffer

/-- **`vlBufferWrite` writes to the vector.** Only a write that ends beyond half of the address space
may find no room. -/
theorem VlBuffer.Represents.write {buffer : VlBuffer} {v : ByteVector} (h : buffer.Represents v)
    {size : ℕ} {src : List UInt8} (hsize : size ≤ src.length) :
    ServesUnless (2 ^ 62 ≤ size + buffer.offset) (vlBufferWrite buffer size (some src)) fun r =>
      r.1 = v.cursor ∧ r.2.Represents (v.write (src.take size)) := by
  refine (vlMemDouble_servesUnless h.nonempty h.bound).bind fun newSize ⟨hgt, hle, hbound, _⟩ => ?_
  have hdata : (if newSize > vlMemSize buffer.data then vlMemRealloc buffer.data newSize
      else buffer.data) = { buffer.data with size := newSize } := by
    split_ifs with hgrow
    · rfl
    · obtain rfl : newSize = buffer.data.size := Nat.le_antisymm (Nat.not_lt.mp hgrow) hle
      rfl
  have hlen : (src.take size).length = size := List.length_take_of_le hsize
  have hcopy : VlMemory.memcpy { buffer.data with size := newSize } buffer.offset size src =
      .ok ⟨buffer.data.bytes.write buffer.offset (src.take size), newSize⟩ := by
    rw [VlMemory.memcpy, if_pos hsize, VlMemory.store_eq (by simp only [hlen]; omega)]
  have hmax : (if buffer.offset + size > buffer.size then buffer.offset + size else buffer.size) =
      max (buffer.offset + size) buffer.size := by
    split_ifs <;> omega
  have hcap := h.size_le
  rw [hdata]
  simp only
  rw [hcopy, ok_bind, hmax]
  refine (returns_ok ⟨h.offset_eq, ?_⟩).servesUnless
  refine ⟨h.nonempty.trans_le hle, hbound, ?_, ?_, Nat.le_max_left _ _, ?_⟩
  · have hwrite : (buffer.data.bytes.write buffer.offset (src.take size)).slice 0
        (max (buffer.offset + (src.take size).length) buffer.size) = _ :=
      ByteMem.slice_write_max h.offset_le
    rw [hlen] at hwrite
    simp only [ByteVector.write]
    rw [hwrite, h.bytes_eq, h.offset_eq, hlen]
  · simp only [ByteVector.write]
    rw [hlen, h.offset_eq]
  · simp only
    omega

/-! ### Runs -/

/-- The operations of a buffer, and what happens around it. -/
inductive BufferOp
  | write (size : ℕ) (src : List UInt8)
  | seek (offset : ℕ)
  | seekBegin
  | shrinkToFit
  | elsewhere (contents : ByteMem)

/-- A buffer, beside the vector it is to stand for. -/
structure BufferState where
  buffer : VlBuffer
  vector : ByteVector

/-- A buffer and a vector that get the same operations. A caller writes from an object of at least
the bytes it names, and seeks in the recorded size. -/
def bufferMachine : Machine BufferState BufferOp where
  guard s
    | .write size src => size ≤ src.length ∧ size + s.buffer.offset < 2 ^ 64
    | .seek offset => offset ≤ s.buffer.size
    | .seekBegin => True
    | .shrinkToFit => True
    | .elsewhere _ => True
  step s
    | .write size src => do
      let (_, buffer) ← vlBufferWrite s.buffer size (some src)
      return ⟨buffer, s.vector.write (src.take size)⟩
    | .seek offset => .ok ⟨vlBufferSeek s.buffer offset, s.vector.seek offset⟩
    | .seekBegin => .ok ⟨vlBufferSeekBegin s.buffer, s.vector.seek 0⟩
    | .shrinkToFit => .ok ⟨vlBufferShrinkToFit s.buffer, s.vector⟩
    | .elsewhere contents =>
      .ok ⟨{ s.buffer with data := s.buffer.data.elsewhere contents }, s.vector⟩

/-- The end of what an operation asks for, as far as it may need room. -/
def BufferOp.reach (buffer : VlBuffer) : BufferOp → ℕ
  | .write size _ => size + buffer.offset
  | _ => 0

/-- **Step rule**: a buffer that stands for its vector serves every operation, and stands for the new
vector then. -/
theorem bufferMachine_step {s : BufferState} {o : BufferOp} (h : s.buffer.Represents s.vector)
    (hg : bufferMachine.guard s o) :
    ServesUnless (2 ^ 62 ≤ o.reach s.buffer) (bufferMachine.step s o) fun s' =>
      s'.buffer.Represents s'.vector := by
  cases o with
  | write size src => exact (h.write hg.1).bind fun r hr => Or.inr ⟨_, rfl, hr.2⟩
  | seek offset => exact Or.inr ⟨_, rfl, h.seek hg⟩
  | seekBegin => exact Or.inr ⟨_, rfl, h.seekBegin⟩
  | shrinkToFit => exact Or.inr ⟨_, rfl, h.shrinkToFit⟩
  | elsewhere contents => exact Or.inr ⟨_, rfl, h.elsewhere contents⟩

/-- **A buffer refines a vector of bytes with a cursor.** After any writes, seeks in the recorded size
and shrinks, the bytes up to the recorded size are those of the vector, the offset is its cursor, and
offset, size and capacity are in order; and the next operation goes through as well, unless it ends
beyond half of the address space. -/
theorem vlBuffer_refines (contents : ByteMem) {initialSize : ℕ} (hpos : 0 < initialSize)
    (hbound : initialSize < 2 ^ 63) {ops : List BufferOp} {s : BufferState}
    (hrun : bufferMachine.Run ⟨vlBufferInitExt contents initialSize, ⟨[], 0⟩⟩ ops s) :
    s.buffer.data.bytes.slice 0 s.buffer.size = s.vector.bytes ∧
      s.buffer.offset = s.vector.cursor ∧ s.buffer.offset ≤ s.buffer.size ∧
      s.buffer.size ≤ vlMemSize s.buffer.data ∧
      ∀ o, bufferMachine.guard s o →
        ServesUnless (2 ^ 62 ≤ o.reach s.buffer) (bufferMachine.step s o) fun _ => True := by
  have h : s.buffer.Represents s.vector := by
    refine hrun.invariant (I := fun s => s.buffer.Represents s.vector) (fun t o t' ht hg hstep => ?_)
      (VlBuffer.represents_init contents hpos hbound)
    exact (bufferMachine_step ht hg).serves.of_ok hstep
  refine ⟨h.bytes_eq, h.offset_eq, h.offset_le, h.size_le, fun o hg => ?_⟩
  exact (bufferMachine_step h hg).mono fun _ _ => trivial

instance (s : BufferState) (o : BufferOp) : Decidable (bufferMachine.guard s o) :=
  match o with
  | .write _ _ => inferInstanceAs (Decidable (_ ∧ _))
  | .seek _ => inferInstanceAs (Decidable (_ ≤ _))
  | .seekBegin => .isTrue trivial
  | .shrinkToFit => .isTrue trivial
  | .elsewhere _ => .isTrue trivial

/-- Four bytes are left when two are written over the last of three. -/
theorem vlBuffer_refines_overwrite : ∃ s : BufferState,
    bufferMachine.Run ⟨vlBufferInitExt (fun _ => 7) 1, ⟨[], 0⟩⟩
        [.write 3 [1, 2, 3], .shrinkToFit, .elsewhere fun _ => 9, .seek 2, .write 2 [4, 5]] s ∧
      s.vector.bytes = [1, 2, 4, 5] ∧ s.buffer.data.bytes.slice 0 s.buffer.size = s.vector.bytes := by
  have hexec : (bufferMachine.exec ⟨vlBufferInitExt (fun _ => 7) 1, ⟨[], 0⟩⟩
      [.write 3 [1, 2, 3], .shrinkToFit, .elsewhere fun _ => 9, .seek 2, .write 2 [4, 5]]).any
      (fun s => decide (s.vector.bytes = [1, 2, 4, 5])) = true := by decide
  obtain ⟨s, hrun, hbytes⟩ := Machine.exists_run_of_exec hexec
  refine ⟨s, hrun, of_decide_eq_true hbytes, ?_⟩
  exact (vlBuffer_refines (fun _ => 7) (by decide) (by decide) hrun).1

end VeritableLasagna
