import VeritableLasagna.MsgPack.Scalars

/-!
# Containers

Opening a container writes five bytes of any content and pushes a frame that knows where they are;
closing it turns them into a header of one, three or five bytes. `Opened` is what an open container
looks like while its content is written, and `vlMsgPackEncodePop_spec` says that closing replaces the
five bytes by the header and leaves the content alone.
-/

namespace VeritableLasagna

open VlMsgPackEncoder

variable {enc enc' : VlMsgPackEncoder} {frame : VlMsgPackEncFrame}
  {stack : List VlMsgPackEncFrame} {pre room content : List UInt8} {isArray : Bool} {n : ℕ}

/-- The encoder with an open container: what was written before it, the room for its header, and its
content so far. -/
structure VlMsgPackEncoder.Opened (enc : VlMsgPackEncoder) (isArray : Bool) (n : ℕ)
    (stack : List VlMsgPackEncFrame) (pre content : List UInt8) : Prop where
  wellFormed : enc.buffer.WellFormed
  stateStack : enc.stateStack =
    ⟨isArray, pre.length, pre.length + 1, pre.length + 5, n⟩ :: stack
  written : ∃ room : List UInt8, room.length = 5 ∧ enc.buffer.written = pre ++ room ++ content

/-- The three ranges of an open container. -/
theorem VlMsgPackEncoder.Opened.slices (h : enc.Opened isArray n stack pre content) :
    enc.buffer.offset = pre.length + 5 + content.length ∧
      enc.buffer.data.bytes.slice 0 pre.length = pre ∧
      enc.buffer.data.bytes.slice (pre.length + 5) content.length = content := by
  obtain ⟨room, hroom, hwritten⟩ := h.written
  have hlen := congrArg List.length hwritten
  rw [VlBuffer.length_written, List.length_append, List.length_append, hroom] at hlen
  rw [VlBuffer.written, hlen, ByteMem.slice_add, ByteMem.slice_add] at hwritten
  simp only [Nat.zero_add, List.append_assoc] at hwritten
  obtain ⟨hpre, htail⟩ := List.append_inj hwritten ByteMem.length_slice
  obtain ⟨-, hcontent⟩ := List.append_inj htail (ByteMem.length_slice.trans hroom.symm)
  exact ⟨hlen, hpre, hcontent⟩

/-- **Opening** a container. -/
theorem vlMsgPackEncodePush_spec (h : enc.buffer.WellFormed) :
    Serves (vlMsgPackEncodePush enc isArray) fun enc' =>
      enc'.Opened isArray 0 enc.stateStack enc.buffer.written [] ∧ enc'.error = enc.error := by
  rw [vlMsgPackEncodePush]
  refine (claim_spec h).bind fun r₁ ⟨hoff₁, bs₁, hlen₁, h₁⟩ => ?_
  refine (claim_spec h₁.wellFormed).bind fun r₂ ⟨hoff₂, bs₂, hlen₂, h₂⟩ => ?_
  have hpre : enc.buffer.written.length = enc.buffer.offset := VlBuffer.length_written
  refine serves_ok ⟨⟨h₂.wellFormed, ?_, bs₁ ++ bs₂, ?_, ?_⟩, h₂.error.trans h₁.error⟩
  · have hstack := h₂.stateStack.trans h₁.stateStack
    simp only [hstack, hoff₁, hoff₂, h₂.offset, h₁.offset, hlen₁, hlen₂, hpre, Nat.add_assoc]
  · rw [List.length_append, hlen₁, hlen₂]
  · simp only [h₂.written, h₁.written, List.append_assoc, List.append_nil]

/-! ### Closing -/

/-- The header of a container. -/
def msgPackContainer (isArray : Bool) (count : ℕ) : MsgPackItem :=
  if isArray then .array count else .map count

/-- The header `vl_MsgPackEncodeFrame` chooses: the tag, and behind it as many bytes of the count as
are left of the four. -/
def msgPackContainerHeader (isArray : Bool) (count : ℕ) : List UInt8 :=
  if count ≤ 0xF then [UInt8.ofNat ((if isArray then 0x90 else 0x80) ||| (count &&& 0xF))]
  else if count ≤ 0xFFFF then
    UInt8.ofNat (if isArray then VlMsgPackIO.array16 else VlMsgPackIO.map16) :: natToBE 2 count
  else UInt8.ofNat (if isArray then VlMsgPackIO.array32 else VlMsgPackIO.map32) :: natToBE 4 count

theorem encodes_container (h : n < 2 ^ 32) :
    MsgPackItem.Encodes (msgPackContainerHeader isArray n) (msgPackContainer isArray n) := by
  have hor : ∀ k ≤ 0xF, 0x90 ||| (k &&& 0xF) = 0x90 + k ∧ 0x80 ||| (k &&& 0xF) = 0x80 + k := by
    decide +kernel
  cases isArray with
  | false =>
    simp only [msgPackContainerHeader, Bool.false_eq_true, if_false]
    split_ifs with hfix h16
    · refine encodes_value ?_
      rw [(hor _ hfix).2, UInt8.toNat_ofNat', Nat.mod_eq_of_lt (by omega),
        MsgPackForm.ofTag_masked (by omega), if_neg (by omega), if_pos (by omega),
        Nat.add_sub_cancel_left]
      rfl
    · exact encodes_number (k := 2) rfl (by omega)
    · exact encodes_number (k := 4) rfl (by omega)
  | true =>
    simp only [msgPackContainerHeader, if_true]
    split_ifs with hfix h16
    · refine encodes_value ?_
      rw [(hor _ hfix).1, UInt8.toNat_ofNat', Nat.mod_eq_of_lt (by omega),
        MsgPackForm.ofTag_masked (by omega), if_neg (by omega), if_neg (by omega),
        if_pos (by omega), Nat.add_sub_cancel_left]
      rfl
    · exact encodes_number (k := 2) rfl (by omega)
    · exact encodes_number (k := 4) rfl (by omega)

/-- The count a container is closed with: a map counts pairs. -/
def msgPackCount (isArray : Bool) (n : ℕ) : ℕ := if isArray then n else n / 2

/-- **What `vl_MsgPackEncodeFrame` chooses** is the header: the tag, and behind it the bytes of the
count that are left of four. -/
theorem vlMsgPackEncodeFrame_spec (isArray : Bool) (n startOffset sizeOffset dataOffset : ℕ) :
    ∃ typeTag offset, offset ≤ 4 ∧ (offset = 0 ∨ offset = 2 ∨ offset = 4) ∧
      vlMsgPackEncodeFrame ⟨isArray, startOffset, sizeOffset, dataOffset, n⟩ =
        (typeTag, offset, ⟨isArray, startOffset, sizeOffset, dataOffset, msgPackCount isArray n⟩) ∧
      msgPackContainerHeader isArray (msgPackCount isArray n) =
        UInt8.ofNat typeTag ::
          (if offset = 4 then [] else natToBE (4 - offset) (msgPackCount isArray n)) := by
  have hframe : (if isArray then (⟨isArray, startOffset, sizeOffset, dataOffset, n⟩ :
      VlMsgPackEncFrame) else ⟨isArray, startOffset, sizeOffset, dataOffset, n / 2⟩) =
      ⟨isArray, startOffset, sizeOffset, dataOffset, msgPackCount isArray n⟩ := by
    cases isArray <;> rfl
  rw [vlMsgPackEncodeFrame, msgPackContainerHeader]
  simp only [hframe]
  by_cases hfix : msgPackCount isArray n ≤ 0xF
  · exact ⟨_, 4, le_rfl, Or.inr (Or.inr rfl), if_pos hfix, if_pos hfix⟩
  rw [if_neg hfix, if_neg hfix]
  by_cases h16 : msgPackCount isArray n ≤ 0xFFFF
  · exact ⟨_, 2, by omega, Or.inr (Or.inl rfl), if_pos h16, if_pos h16⟩
  · exact ⟨_, 0, by omega, Or.inl rfl, if_neg h16, if_neg h16⟩

/-- **Closing** a container replaces the room for its header by the header. -/
theorem vlMsgPackEncodePop_spec (h : enc.Opened isArray n stack pre content) :
    Returns (vlMsgPackEncodePop enc) fun r =>
      r.2.buffer.WellFormed ∧ r.2.stateStack = stack ∧ r.2.error = enc.error ∧
        r.2.buffer.written =
          pre ++ msgPackContainerHeader isArray (msgPackCount isArray n) ++ content := by
  obtain ⟨typeTag, offset, hle, hoffset, hframe, hheader⟩ :=
    vlMsgPackEncodeFrame_spec isArray n pre.length (pre.length + 1) (pre.length + 5)
  generalize msgPackContainerHeader isArray (msgPackCount isArray n) = hd at hheader ⊢
  generalize msgPackCount isArray n = count at hframe hheader
  have hhd : hd.length = 5 - offset := by
    rw [hheader, List.length_cons]
    split_ifs with h4
    · rw [h4]
      rfl
    · rw [length_natToBE]
      omega
  obtain ⟨hoff, hpre, hcontent⟩ := h.slices
  have hbound := h.wellFormed.offset_le
  -- the tag and the count together write the header
  have hpatch : (if 4 - offset = 2 ∨ 4 - offset = 4 then
      VlMemory.store ⟨enc.buffer.data.bytes.write pre.length [UInt8.ofNat typeTag],
        enc.buffer.data.size⟩ (pre.length + 1) (natToBE (4 - offset) count)
      else .ok ⟨enc.buffer.data.bytes.write pre.length [UInt8.ofNat typeTag],
        enc.buffer.data.size⟩) =
      .ok ⟨enc.buffer.data.bytes.write pre.length hd, enc.buffer.data.size⟩ := by
    by_cases h4 : offset = 4
    · rw [if_neg (by omega), hheader, if_pos h4]
    · have hfit : pre.length + 1 + (natToBE (4 - offset) count).length ≤
          enc.buffer.data.size := by
        rw [length_natToBE]
        omega
      have hwrite : VlMemory.store ⟨enc.buffer.data.bytes.write pre.length
          [UInt8.ofNat typeTag], enc.buffer.data.size⟩ (pre.length + 1) _ = _ :=
        VlMemory.store_eq hfit
      rw [if_pos (by omega), hheader, if_neg h4, hwrite, ← ByteMem.write_cons]
  rw [vlMsgPackEncodePop, h.stateStack]
  simp only [hframe]
  have htag : enc.buffer.data.store pre.length [UInt8.ofNat typeTag] =
      .ok ⟨enc.buffer.data.bytes.write pre.length [UInt8.ofNat typeTag], enc.buffer.data.size⟩ :=
    VlMemory.store_eq (by rw [List.length_singleton]; omega)
  simp only [htag, hpatch, ok_bind]
  have hframe' : (enc.buffer.data.bytes.write pre.length hd).slice (pre.length + 5) content.length =
      content := by
    rw [ByteMem.slice_write_of_disjoint (Or.inr (by omega)), hcontent]
  -- whatever lies behind the header and the content, the three ranges are what was written
  have hranges : ∀ bytes : ByteMem, bytes.slice 0 pre.length = pre →
      bytes.slice pre.length hd.length = hd →
      bytes.slice (pre.length + hd.length) content.length = content →
      bytes.slice 0 (enc.buffer.offset - offset) = pre ++ hd ++ content := by
    intro bytes h₁ h₂ h₃
    have hsplit : enc.buffer.offset - offset = pre.length + hd.length + content.length := by omega
    rw [hsplit, ByteMem.slice_add, ByteMem.slice_add, Nat.zero_add, Nat.zero_add, h₁, h₂, h₃]
  have hpre' : (enc.buffer.data.bytes.write pre.length hd).slice 0 pre.length = pre := by
    rw [ByteMem.slice_write_of_disjoint (Or.inl (by omega)), hpre]
  split_ifs with hmove
  · have hblock : enc.buffer.offset - (pre.length + 5) = content.length := by omega
    have hdest : pre.length + 5 - offset = pre.length + hd.length := by omega
    rw [hblock, hdest, VlMemory.load_eq (by simp only; omega), ok_bind]
    simp only [hframe']
    rw [VlMemory.store_eq (by simp only; omega), ok_bind]
    refine returns_ok ⟨⟨h.wellFormed.nonempty, h.wellFormed.bound, ?_⟩, rfl, rfl, ?_⟩
    · simp only
      omega
    · refine hranges _ ?_ ?_ ByteMem.slice_write_self
      · rw [ByteMem.slice_write_of_disjoint (Or.inl (by omega)), hpre']
      · rw [ByteMem.slice_write_of_disjoint (Or.inl le_rfl), ByteMem.slice_write_self]
  · obtain rfl : offset = 0 := by omega
    refine returns_ok ⟨⟨h.wellFormed.nonempty, h.wellFormed.bound, hbound⟩, rfl, rfl, ?_⟩
    refine hranges _ hpre' ByteMem.slice_write_self ?_
    rw [hhd]
    exact hframe'

end VeritableLasagna
