import VeritableLasagna.Memory.Buffer
import VeritableLasagna.Pool.Basic

/-!
# The stack

`vl_stack` packs elements of any size into one growing buffer. Before each element stands a header
with its size and the offset of the header below it; a push writes behind the cursor of the buffer,
and a pop moves the cursor back to the topmost header.

The layout of a stack is `StackFrames bytes elements head cursor`: the elements, topmost first and each
with the offset its push returned, lie in front of the cursor, one right behind the other. All that is
written is behind the cursor, so a push leaves the elements below it alone (`StackFrames.congr`).
-/

namespace VeritableLasagna

/-- `vl_stack`. The depth is a `vl_dsidx_t`. -/
structure VlStack where
  depth : UInt32
  headOffset : ℕ
  buffer : VlBuffer

/-- `sizeof(vl_stack_header)`: two numbers of eight bytes. -/
def vlStackHeaderSize : ℕ := 16

/-- Write a `vl_stack_header`. -/
def VlMemory.storeStackHeader (mem : VlMemory) (p size previousOffset : ℕ) :
    Except Fault VlMemory := do
  let mem ← mem.storeNumber p 8 size
  mem.storeNumber (p + 8) 8 previousOffset

/-- `vlStackInit`, when the heap holds the bytes `contents` in the new buffer. -/
def vlStackInit (contents : ByteMem) : Except Fault VlStack := do
  let buffer := vlBufferInit contents
  let data ← buffer.data.storeStackHeader 0 0 0
  return { depth := 0, headOffset := 0, buffer := { buffer with data } }

/-- `vlStackReset`. -/
def vlStackReset (stack : VlStack) : VlStack :=
  { depth := 0, headOffset := 0, buffer := { stack.buffer with offset := 0 } }

/-- The bytes a header and an element take up. -/
def vlStackAlignedSize (size : ℕ) : ℕ :=
  vlMemoryPadUp (size + vlStackHeaderSize) vlDefaultMemoryAlign

/-- `vlStackPush`, with the offset of the element. -/
def vlStackPush (stack : VlStack) (size : ℕ) : Except Fault (ℕ × VlStack) := do
  let (head, buffer) ← vlBufferWrite stack.buffer (vlStackAlignedSize size) none
  let data ← buffer.data.storeStackHeader head size stack.headOffset
  return (head + vlStackHeaderSize,
    { depth := stack.depth + 1, headOffset := head, buffer := { buffer with data } })

/-- `vlStackSample`: the element at an offset, as a place in the buffer. -/
def vlStackSample (_ : VlStack) (offset : ℕ) : ℕ := offset

/-- `vlStackPushValue`, with the offset of the element. -/
def vlStackPushValue (stack : VlStack) (data : List UInt8) (size : ℕ) :
    Except Fault (ℕ × VlStack) := do
  let (offset, stack) ← vlStackPush stack size
  let mem ← stack.buffer.data.memcpy (vlStackSample stack offset) size data
  return (offset, { stack with buffer := { stack.buffer with data := mem } })

/-- `vlStackSampleSize`. -/
def vlStackSampleSize (stack : VlStack) (offset : ℕ) : Except Fault ℕ :=
  stack.buffer.data.loadNumber (offset - vlStackHeaderSize) 8

/-- `vlStackPeek`, as a place in the buffer. -/
def vlStackPeek (stack : VlStack) : ℕ := stack.headOffset + vlStackHeaderSize

/-- `vlStackPeekSize`. -/
def vlStackPeekSize (stack : VlStack) : Except Fault ℕ :=
  stack.buffer.data.loadNumber stack.headOffset 8

/-- `vlStackPop`. -/
def vlStackPop (stack : VlStack) : Except Fault VlStack :=
  if stack.depth ≤ 0 then .ok stack
  else do
    let previousOffset ← stack.buffer.data.loadNumber (stack.headOffset + 8) 8
    return { depth := stack.depth - 1, headOffset := previousOffset,
             buffer := { stack.buffer with offset := stack.headOffset } }

/-! ### The layout -/

/-- The elements of a stack in memory, topmost first: `head` is the offset of the topmost header, and
`cursor` the end of what the elements take up. -/
def StackFrames (m : ByteMem) : List (ℕ × List UInt8) → ℕ → ℕ → Prop
  | [], head, cursor => head = 0 ∧ cursor = 0
  | (offset, bs) :: rest, head, cursor =>
    offset = head + vlStackHeaderSize ∧ cursor = head + vlStackAlignedSize bs.length ∧
      natOfLE (m.slice head 8) = bs.length ∧ m.slice offset bs.length = bs ∧
      StackFrames m rest (natOfLE (m.slice (head + 8) 8)) head

section Frames

variable {m m' : ByteMem} {elements : List (ℕ × List UInt8)} {head cursor offset size p : ℕ}
  {bs : List UInt8}

theorem le_vlStackAlignedSize : size + vlStackHeaderSize ≤ vlStackAlignedSize size :=
  le_vlMemoryPadUp (by decide)

/-- **Frame rule**: what is behind the cursor does not matter. -/
theorem StackFrames.congr (h : StackFrames m elements head cursor)
    (heq : ∀ q < cursor, m q = m' q) : StackFrames m' elements head cursor := by
  induction elements generalizing head cursor with
  | nil => exact h
  | cons element rest ih =>
    obtain ⟨offset, bs⟩ := element
    obtain ⟨hoffset, hcursor, hsize, hbytes, hrest⟩ := h
    have hle : bs.length + vlStackHeaderSize ≤ vlStackAlignedSize bs.length := le_vlStackAlignedSize
    rw [vlStackHeaderSize] at hle hoffset
    have hslice : ∀ p n, p + n ≤ cursor → m.slice p n = m'.slice p n :=
      fun p n hp => ByteMem.slice_congr fun q _ hq => heq q (by omega)
    refine ⟨hoffset, hcursor, ?_, ?_, ?_⟩
    · rw [← hslice head 8 (by omega)]
      exact hsize
    · rw [← hslice offset bs.length (by omega)]
      exact hbytes
    · rw [← hslice (head + 8) 8 (by omega)]
      exact ih hrest fun q hq => heq q (by omega)

/-- Every element is in front of the cursor, behind its header. -/
theorem StackFrames.of_mem (h : StackFrames m elements head cursor) (he : (offset, bs) ∈ elements) :
    vlStackHeaderSize ≤ offset ∧ offset + bs.length ≤ cursor ∧ m.slice offset bs.length = bs ∧
      natOfLE (m.slice (offset - vlStackHeaderSize) 8) = bs.length := by
  induction elements generalizing head cursor with
  | nil => cases he
  | cons element rest ih =>
    obtain ⟨top, cs⟩ := element
    obtain ⟨hoffset, hcursor, hsize, hbytes, hrest⟩ := h
    have hle : cs.length + vlStackHeaderSize ≤ vlStackAlignedSize cs.length := le_vlStackAlignedSize
    rcases List.mem_cons.mp he with heq | he
    · obtain ⟨rfl, rfl⟩ := Prod.mk.inj heq
      have hheader : offset - vlStackHeaderSize = head := by omega
      exact ⟨by omega, by omega, hbytes, by rw [hheader]; exact hsize⟩
    · obtain ⟨hlow, hhigh, hrest'⟩ := ih hrest he
      exact ⟨hlow, by omega, hrest'⟩

end Frames

/-- The **stack invariant**: the elements are laid out in front of the cursor, and the depth counts
them in 32 bits. -/
structure VlStack.Inv (stack : VlStack) (elements : List (ℕ × List UInt8)) : Prop where
  buffer : stack.buffer.WellFormed
  frames : StackFrames stack.buffer.data.bytes elements stack.headOffset stack.buffer.offset
  head_le : stack.headOffset ≤ stack.buffer.offset
  depth_eq : stack.depth = UInt32.ofNat elements.length

/-! ### Specifications of the operations -/

section Specs

variable {stack : VlStack} {elements rest : List (ℕ × List UInt8)} {mem : VlMemory}
  {p size previousOffset offset : ℕ} {bs : List UInt8}

/-- A header in the block. -/
theorem storeStackHeader_eq (h : p + vlStackHeaderSize ≤ mem.size) :
    mem.storeStackHeader p size previousOffset =
      .ok { mem with
        bytes := (mem.bytes.write p (natToLE 8 size)).write (p + 8) (natToLE 8 previousOffset) } := by
  rw [vlStackHeaderSize] at h
  rw [VlMemory.storeStackHeader, VlMemory.storeNumber_eq (by omega), ok_bind,
    VlMemory.storeNumber_eq (by dsimp only; omega)]

/-- An empty stack. -/
theorem vlStackInit_spec (contents : ByteMem) :
    Returns (vlStackInit contents) fun stack => stack.Inv [] := by
  have hsize : (vlBufferInit contents).data.size = vlDefaultMemorySize := rfl
  have hheader : 0 + vlStackHeaderSize ≤ (vlBufferInit contents).data.size := by
    rw [hsize]
    decide
  rw [vlStackInit, storeStackHeader_eq hheader, ok_bind]
  refine returns_ok ⟨⟨?_, ?_, Nat.zero_le _⟩, ⟨rfl, rfl⟩, le_rfl, rfl⟩
  · dsimp only
    rw [hsize]
    decide
  · dsimp only
    rw [hsize]
    norm_num [vlDefaultMemorySize]

/-- **`vlStackReset`** leaves no element. -/
theorem vlStackReset_spec (h : stack.Inv elements) : (vlStackReset stack).Inv [] :=
  ⟨⟨h.buffer.nonempty, h.buffer.bound, Nat.zero_le _⟩, ⟨rfl, rfl⟩, le_rfl, rfl⟩

/-- Once there is room in the buffer, an element is put behind the cursor, and the others are left
alone. -/
theorem vlStackPushValue_of_write (h : stack.Inv elements) {head : ℕ} {buffer : VlBuffer}
    (hop : vlBufferWrite stack.buffer (vlStackAlignedSize bs.length) none = .ok (head, buffer)) :
    Returns (vlStackPushValue stack bs bs.length) fun r =>
      r.2.Inv ((r.1, bs) :: elements) ∧
        r.2.buffer.offset = stack.buffer.offset + vlStackAlignedSize bs.length := by
  have hle : bs.length + vlStackHeaderSize ≤ vlStackAlignedSize bs.length := le_vlStackAlignedSize
  rw [vlStackHeaderSize] at hle
  have hwrite := (vlBufferWrite_spec (n := vlStackAlignedSize bs.length) h.buffer none
    fun cs hcs => (by cases hcs)).of_ok hop
  obtain ⟨hhead, hwell, hoffset, claimed, hclaimed, -, hwritten⟩ := hwrite
  dsimp only at hhead hwell hoffset hwritten
  rw [vlStackPushValue, vlStackPush, hop, ok_bind]
  dsimp only
  have hin := hwell.offset_le
  have hbound := hwell.bound
  have hheader : head + vlStackHeaderSize ≤ buffer.data.size := by
    rw [vlStackHeaderSize]
    omega
  rw [storeStackHeader_eq hheader, ok_bind, pure_eq_ok, ok_bind]
  dsimp only
  have hcopy : head + vlStackHeaderSize + bs.length ≤ buffer.data.size := by
    rw [vlStackHeaderSize]
    omega
  rw [vlStackSample, VlMemory.memcpy, if_pos le_rfl, List.take_length, VlMemory.store_eq (by exact hcopy),
    ok_bind]
  -- the bytes in front of the old cursor are what they were
  have hold : ∀ q < stack.buffer.offset,
      stack.buffer.data.bytes q = buffer.data.bytes q := by
    have htake := congrArg (List.take stack.buffer.offset) hwritten
    rw [VlBuffer.written, VlBuffer.written, ByteMem.take_slice (by omega),
      List.take_left' ByteMem.length_slice] at htake
    exact fun q hq => (ByteMem.slice_eq_iff.mp htake q (Nat.zero_le _) (by omega)).symm
  refine returns_ok ⟨⟨⟨hwell.nonempty, hbound, hin⟩, ⟨rfl, ?_, ?_, ?_, ?_⟩, ?_, ?_⟩, hoffset⟩
  · rw [hhead]
    exact hoffset
  · have hsize : bs.length % 256 ^ 8 = bs.length := Nat.mod_eq_of_lt (by omega)
    dsimp only
    rw [ByteMem.slice_write_of_disjoint (Or.inl (by rw [vlStackHeaderSize]; omega)),
      ByteMem.slice_write_of_disjoint (Or.inl le_rfl)]
    have hself : (buffer.data.bytes.write head (natToLE 8 bs.length)).slice head
        (natToLE 8 bs.length).length = _ := ByteMem.slice_write_self
    rw [length_natToLE] at hself
    rw [hself, natOfLE_natToLE, hsize]
  · exact ByteMem.slice_write_self
  · have hprevious : stack.headOffset % 256 ^ 8 = stack.headOffset :=
      Nat.mod_eq_of_lt (by have := h.head_le; omega)
    have hself : ((buffer.data.bytes.write head (natToLE 8 bs.length)).write (head + 8)
        (natToLE 8 stack.headOffset)).slice (head + 8) (natToLE 8 stack.headOffset).length = _ :=
      ByteMem.slice_write_self
    rw [length_natToLE] at hself
    dsimp only
    rw [ByteMem.slice_write_of_disjoint (Or.inl (by rw [vlStackHeaderSize])), hself,
      natOfLE_natToLE, hprevious]
    have hframes := h.frames
    rw [← hhead] at hframes
    refine hframes.congr fun q hq => ?_
    rw [ByteMem.write_of_lt (by rw [vlStackHeaderSize]; omega), ByteMem.write_of_lt (by omega),
      ByteMem.write_of_lt hq]
    exact hold q (by omega)
  · dsimp only
    omega
  · dsimp only
    rw [h.depth_eq, List.length_cons]
    exact (UInt32.ofNat_add _ _).symm

/-- **`vlStackPushValue`** returns unless the buffer cannot grow. -/
theorem vlStackPushValue_spec (h : stack.Inv elements) (bs : List UInt8) :
    Serves (vlStackPushValue stack bs bs.length) fun r => r.2.Inv ((r.1, bs) :: elements) := by
  have hwrite := vlBufferWrite_spec (n := vlStackAlignedSize bs.length) h.buffer none
    fun cs hcs => (by cases hcs)
  rcases hwrite with hfull | ⟨⟨head, buffer⟩, hop, -⟩
  · left
    rw [vlStackPushValue, vlStackPush, hfull]
    rfl
  · exact ((vlStackPushValue_of_write h hop).mono fun r hr => hr.1).serves

/-- **`vlStackPop`** of an empty stack does nothing. -/
theorem vlStackPop_nil (h : stack.Inv []) : vlStackPop stack = .ok stack := by
  rw [vlStackPop, if_pos]
  rw [h.depth_eq]
  decide

/-- **`vlStackPop`** takes the topmost element off, as long as the depth can count the elements. -/
theorem vlStackPop_cons (h : stack.Inv ((offset, bs) :: rest)) (hlt : rest.length + 1 < 2 ^ 32) :
    Returns (vlStackPop stack) fun stack' => stack'.Inv rest := by
  have hdepth : stack.depth.toNat = rest.length + 1 := by
    rw [h.depth_eq, List.length_cons]
    exact UInt32.toNat_ofNat_of_lt' hlt
  have hpos : ¬ stack.depth ≤ 0 := by
    intro hle
    have hzero : stack.depth.toNat ≤ 0 := UInt32.le_iff_toNat_le.mp hle
    omega
  obtain ⟨-, hcursor, -, -, hrest⟩ := h.frames
  have hle : bs.length + vlStackHeaderSize ≤ vlStackAlignedSize bs.length := le_vlStackAlignedSize
  rw [vlStackHeaderSize] at hle
  have hin := h.buffer.offset_le
  rw [vlStackPop, if_neg hpos, VlMemory.loadNumber_eq (by omega), ok_bind]
  refine returns_ok ⟨⟨h.buffer.nonempty, h.buffer.bound, ?_⟩, hrest, ?_, ?_⟩
  · dsimp only
    omega
  · dsimp only
    rw [VlMemory.number]
    cases rest with
    | nil => exact hrest.1.trans_le (Nat.zero_le _)
    | cons element rest =>
      obtain ⟨-, hcursor', -⟩ := hrest
      omega
  · dsimp only
    rw [h.depth_eq, List.length_cons]
    exact UInt32.toNat_inj.mp (by
      rw [UInt32.ofNat_add]
      simp)

end Specs

end VeritableLasagna
