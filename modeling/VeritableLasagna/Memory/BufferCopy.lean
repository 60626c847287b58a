import VeritableLasagna.Memory.Buffer

/-!
# Copying between buffers

`vlBufferCopy` writes bytes of one buffer to another one and moves both offsets. It is to copy up to
the end of the source where that has fewer bytes than asked for. What it computes there is not what
is left of the source but what is missing from it: `offset + len - size` in place of `size - offset`.
So it is right when the source has enough, and, by accident, when as many bytes are missing as are
left (**`vlBufferCopy_transfers_iff`**).
-/

namespace VeritableLasagna

/-- `vlBufferCopy`, of two buffers, with the count it returns. The source of the copy ends with the
block of the source buffer. -/
def vlBufferCopy (src dest : VlBuffer) (len : ℕ) : Except Fault (ℕ × VlBuffer × VlBuffer) := do
  let len := if src.offset + len > src.size then src.offset + len - src.size else len
  let (_, dest) ← vlBufferWrite dest len
    (some (src.data.bytes.slice src.offset (vlMemSize src.data - src.offset)))
  return (len, { src with offset := src.offset + len }, dest)

namespace VlBuffer

/-- What a copy of `len` bytes may take from the source: what is left of it. -/
def available (src : VlBuffer) (len : ℕ) : ℕ := min len (src.size - src.offset)

/-- The source with other bytes in its block. -/
def withBytes (src : VlBuffer) (bytes : ByteMem) : VlBuffer :=
  { src with data := { src.data with bytes := bytes } }

/-- **The copy transfers what is available**: it returns the number of bytes that are left, or what
was asked for if that is less, it writes exactly these bytes to the destination, and the source moves
its offset behind them and keeps the rest. It does so whatever the block of the source holds from its
recorded size on, so it reads nothing there. -/
def Transfers (src dest : VlBuffer) (len : ℕ) : Prop :=
  ∀ bytes : ByteMem, bytes.slice 0 src.size = src.data.bytes.slice 0 src.size →
    ∃ (start : ℕ) (dest' : VlBuffer),
      vlBufferWrite dest (src.available len)
          (some (src.data.bytes.slice src.offset (src.available len))) = .ok (start, dest') ∧
        vlBufferCopy (src.withBytes bytes) dest len = .ok (src.available len,
          { src.withBytes bytes with offset := src.offset + src.available len }, dest')

end VlBuffer

section Write

variable {buffer : VlBuffer} {n : ℕ} {bs cs : List UInt8}

/-- A write depends on the bytes it copies only. -/
theorem vlBufferWrite_congr (hbs : n ≤ bs.length) (hcs : n ≤ cs.length)
    (h : bs.take n = cs.take n) :
    vlBufferWrite buffer n (some bs) = vlBufferWrite buffer n (some cs) := by
  have hcopy : ∀ mem : VlMemory,
      mem.memcpy buffer.offset n bs = mem.memcpy buffer.offset n cs := by
    intro mem
    rw [VlMemory.memcpy, VlMemory.memcpy, if_pos hbs, if_pos hcs, h]
  simp only [vlBufferWrite, hcopy]

/-- A write of an object's bytes goes through or finds no room. -/
theorem vlBufferWrite_serves (hnonempty : 0 < buffer.data.size) (hbound : buffer.data.size < 2 ^ 63)
    (hbs : n ≤ bs.length) : Serves (vlBufferWrite buffer n (some bs)) fun _ => True := by
  refine (vlMemDouble_spec hnonempty hbound).bind fun newSize ⟨hgt, hle, _, _⟩ => ?_
  have hlen : (bs.take n).length = n := List.length_take_of_le hbs
  have hdata : ∀ mem : VlMemory, mem.size = newSize →
      mem.memcpy buffer.offset n bs =
        .ok { mem with bytes := mem.bytes.write buffer.offset (bs.take n) } := by
    intro mem hmem
    rw [VlMemory.memcpy, if_pos hbs, VlMemory.store_eq (by rw [hlen, hmem]; omega)]
  simp only
  rw [hdata]
  · exact serves_ok trivial
  · split_ifs with hgrow
    · rfl
    · exact Nat.le_antisymm hle (Nat.not_lt.mp hgrow)

end Write

/-- The copy, with the count it computes. -/
theorem vlBufferCopy_eq {src dest : VlBuffer} {len m : ℕ}
    (hcount : (if src.offset + len > src.size then src.offset + len - src.size else len) = m) :
    vlBufferCopy src dest len = (do
      let (_, dest) ← vlBufferWrite dest m
        (some (src.data.bytes.slice src.offset (vlMemSize src.data - src.offset)))
      return (m, { src with offset := src.offset + m }, dest)) := by
  rw [← hcount]
  rfl

end VeritableLasagna
