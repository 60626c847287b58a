import VeritableLasagna.Memory.Basic

/-!
# Buffers

`vl_buffer` is a growing block of memory with a write offset. `vlBufferWrite` grows the block by
doubling until the bytes fit, copies them behind the offset and moves it; without a source it only
claims the space.
-/

namespace VeritableLasagna

/-- `vl_buffer`. -/
structure VlBuffer where
  data : VlMemory
  offset : ℕ
  size : ℕ

/-- `VL_DEFAULT_MEMORY_SIZE`. -/
def vlDefaultMemorySize : ℕ := 1024

/-- `vlBufferInit`, when the heap holds the bytes `contents` in the new block. -/
def vlBufferInit (contents : ByteMem) : VlBuffer :=
  ⟨vlMemAlloc contents vlDefaultMemorySize, 0, 0⟩

/-- `vlBufferInitExt`, when the heap holds the bytes `contents` in the new block. Where the block is
aligned makes no difference to the buffer. -/
def vlBufferInitExt (contents : ByteMem) (initialSize : ℕ) : VlBuffer :=
  ⟨vlMemAlloc contents initialSize, 0, 0⟩

/-- `vlBufferReset`. -/
def vlBufferReset (buffer : VlBuffer) (newCapacity : ℕ) : VlBuffer :=
  ⟨vlMemRealloc buffer.data newCapacity, 0, 0⟩

/-- `memcpy` of `size` bytes from an object with the bytes `src`. -/
def VlMemory.memcpy (mem : VlMemory) (p size : ℕ) (src : List UInt8) : Except Fault VlMemory :=
  if size ≤ src.length then mem.store p (src.take size) else .error .outOfBounds

/-- `vlBufferWrite`, with the old offset. A missing source is `none`. -/
def vlBufferWrite (buffer : VlBuffer) (size : ℕ) (src : Option (List UInt8)) :
    Except Fault (ℕ × VlBuffer) := do
  let initSize := vlMemSize buffer.data
  let newSize ← vlMemDouble (size + buffer.offset) 65 initSize
  let data := if newSize > initSize then vlMemRealloc buffer.data newSize else buffer.data
  let data ← match src with
    | some bs => data.memcpy buffer.offset size bs
    | none => .ok data
  let offset := buffer.offset + size
  return (buffer.offset, ⟨data, offset, if offset > buffer.size then offset else buffer.size⟩)

namespace VlBuffer

variable {buffer : VlBuffer} {bs : List UInt8} {n : ℕ}

/-- The write offset is in the block, and the block is an object of the program. -/
structure WellFormed (buffer : VlBuffer) : Prop where
  nonempty : 0 < buffer.data.size
  bound : buffer.data.size < 2 ^ 63
  offset_le : buffer.offset ≤ buffer.data.size

/-- What was written so far. -/
def written (buffer : VlBuffer) : List UInt8 := buffer.data.bytes.slice 0 buffer.offset

theorem length_written : buffer.written.length = buffer.offset := ByteMem.length_slice

end VlBuffer

/-- **Writing appends**: what was written before stays, the first `n` bytes of the source come
behind it, and the block is large enough. Without a source, whatever the block holds there comes
behind it. -/
theorem vlBufferWrite_spec {buffer : VlBuffer} (h : buffer.WellFormed) {n : ℕ}
    (src : Option (List UInt8)) (hsrc : ∀ bs ∈ src, n ≤ bs.length) :
    Serves (vlBufferWrite buffer n src) fun r =>
      r.1 = buffer.offset ∧ r.2.WellFormed ∧ r.2.offset = buffer.offset + n ∧
        ∃ bs, bs.length = n ∧ (∀ cs ∈ src, bs = cs.take n) ∧
          r.2.written = buffer.written ++ bs := by
  refine (vlMemDouble_spec h.nonempty h.bound).bind fun newSize ⟨hgt, hle, hbound, _⟩ => ?_
  have hdata : (if newSize > vlMemSize buffer.data then vlMemRealloc buffer.data newSize
      else buffer.data) = { buffer.data with size := newSize } := by
    split_ifs with hgrow
    · rfl
    · obtain rfl : newSize = buffer.data.size := Nat.le_antisymm (Nat.not_lt.mp hgrow) hle
      rfl
  rw [hdata]
  cases src with
  | none =>
    refine serves_ok ⟨rfl, ⟨?_, hbound, ?_⟩, rfl, buffer.data.bytes.slice buffer.offset n,
      ByteMem.length_slice, fun cs hcs => (by cases hcs), ?_⟩
    · exact h.nonempty.trans_le hle
    · simp only
      omega
    · simp only [VlBuffer.written, ByteMem.slice_add, Nat.zero_add]
  | some bs =>
    have hlen : (bs.take n).length = n := List.length_take_of_le (hsrc bs rfl)
    have hcopy : VlMemory.memcpy { buffer.data with size := newSize } buffer.offset n bs =
        .ok ⟨buffer.data.bytes.write buffer.offset (bs.take n), newSize⟩ := by
      rw [VlMemory.memcpy, if_pos (hsrc bs rfl), VlMemory.store_eq (by simp only [hlen]; omega)]
    simp only
    rw [hcopy, ok_bind]
    refine serves_ok ⟨rfl, ⟨?_, hbound, ?_⟩, rfl, bs.take n, hlen, fun cs hcs => ?_, ?_⟩
    · exact h.nonempty.trans_le hle
    · simp only
      omega
    · rw [Option.some_injective _ hcs]
    · have hslice : (buffer.data.bytes.write buffer.offset (bs.take n)).slice buffer.offset n =
          bs.take n := by
        have hself : (buffer.data.bytes.write buffer.offset (bs.take n)).slice buffer.offset
            (bs.take n).length = bs.take n := ByteMem.slice_write_self
        rwa [hlen] at hself
      simp only [VlBuffer.written, ByteMem.slice_add, Nat.zero_add, hslice]
      rw [ByteMem.slice_write_of_disjoint (Or.inl (by omega))]

end VeritableLasagna
