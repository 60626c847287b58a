import VeritableLasagna.MsgPack.Scalars

/-!
# How much the encoder writes

The number of bytes that a call of the encoder writes follows from its argument alone
(`MsgPackCall.length`). `VlMsgPackEncoder.Grown` says of two encoders that the second one is the first
with `n` more bytes: the offset moves by `n`, and the recorded size of the buffer is raised to the
offset where it was less.
-/

namespace VeritableLasagna

/-- The bytes `vlMsgPackIOEncodeInt` writes. -/
def vlMsgPackIntLength (v : ℤ) : ℕ :=
  if -0x1F ≤ v ∧ v ≤ 0x7F then 1
  else if -0x7F ≤ v ∧ v ≤ 0x7F then 2
  else if -0x7FFF ≤ v ∧ v ≤ 0x7FFF then 3
  else if -0x7FFFFFFF ≤ v ∧ v ≤ 0x7FFFFFFF then 5
  else 9

/-- The bytes `vlMsgPackIOEncodeUInt` writes. -/
def vlMsgPackUIntLength (v : ℕ) : ℕ :=
  if v ≤ 0xFF then 2 else if v ≤ 0xFFFF then 3 else if v ≤ 0xFFFFFFFF then 5 else 9

/-- The bytes in front of a binary of `len` bytes. -/
def vlMsgPackBinHeaderLength (len : ℕ) : ℕ :=
  if len ≤ 0xFF then 2 else if len ≤ 0xFFFF then 3 else 5

/-- The bytes in front of a string of `len` bytes. -/
def vlMsgPackStrHeaderLength (len : ℕ) : ℕ :=
  if len ≤ 0x1F then 1 else vlMsgPackBinHeaderLength len

/-- The bytes a call writes; a container is written in parts, and has none of its own here. -/
def MsgPackCall.length : MsgPackCall → ℕ
  | .nil | .bool _ => 1
  | .int value => vlMsgPackIntLength value.toInt
  | .uint value => vlMsgPackUIntLength value.toNat
  | .float32 _ => 5
  | .float64 _ => 9
  | .string value => vlMsgPackStrHeaderLength value.length + value.length
  | .binary value => vlMsgPackBinHeaderLength value.length + value.length
  | .arrayBegin | .arrayEnd | .mapBegin | .mapEnd => 0

/-- The call opens or closes a container. -/
def MsgPackCall.IsContainer : MsgPackCall → Prop
  | .arrayBegin | .arrayEnd | .mapBegin | .mapEnd => True
  | _ => False

namespace VlMsgPackEncoder

/-- The second encoder is the first with `n` more bytes written. -/
structure Grown (enc : VlMsgPackEncoder) (n : ℕ) (enc' : VlMsgPackEncoder) : Prop where
  offset : enc'.buffer.offset = enc.buffer.offset + n
  size : enc'.buffer.size = max enc.buffer.size enc'.buffer.offset
  stateStack : enc'.stateStack = enc.stateStack

variable {enc enc₁ enc' : VlMsgPackEncoder} {n k v typeTag p : ℕ} {src : Option (List UInt8)}

/-- Writing in two parts. -/
theorem Grown.trans (h : enc.Grown n enc₁) (h' : enc₁.Grown k enc') : enc.Grown (n + k) enc' := by
  refine ⟨?_, ?_, h'.stateStack.trans h.stateStack⟩
  · rw [h'.offset, h.offset, Nat.add_assoc]
  · have hle : enc₁.buffer.offset ≤ enc'.buffer.offset := h'.offset.ge.trans' (Nat.le_add_right _ _)
    rw [h'.size, h.size, max_assoc, max_eq_right hle]

theorem grown_write (hop : enc.write n src = .ok (p, enc')) : enc.Grown n enc' := by
  obtain ⟨⟨offset, buffer⟩, hwrite, hop⟩ := exists_of_bind_eq_ok hop
  obtain ⟨-, rfl⟩ := Prod.mk.inj (Except.ok.inj hop)
  obtain ⟨newSize, -, hwrite⟩ := exists_of_bind_eq_ok hwrite
  have hbuffer : ∃ data, buffer = ⟨data, enc.buffer.offset + n,
      if enc.buffer.offset + n > enc.buffer.size then enc.buffer.offset + n else enc.buffer.size⟩ := by
    cases src with
    | none =>
      obtain ⟨-, rfl⟩ := Prod.mk.inj (Except.ok.inj hwrite)
      exact ⟨_, rfl⟩
    | some bs =>
      obtain ⟨data, -, hwrite⟩ := exists_of_bind_eq_ok hwrite
      obtain ⟨-, rfl⟩ := Prod.mk.inj (Except.ok.inj hwrite)
      exact ⟨data, rfl⟩
  obtain ⟨data, rfl⟩ := hbuffer
  refine ⟨rfl, ?_, rfl⟩
  dsimp only
  split_ifs <;> omega

theorem grown_writeBytes (hop : enc.writeBytes n src = .ok enc') : enc.Grown n enc' := by
  obtain ⟨⟨offset, enc₁⟩, hwrite, hop⟩ := exists_of_bind_eq_ok hop
  obtain rfl := Except.ok.inj hop
  exact grown_write hwrite

theorem grown_writeTag (hop : enc.writeTag typeTag = .ok enc') : enc.Grown 1 enc' :=
  grown_writeBytes hop

theorem grown_writeHeader (hop : enc.writeHeader typeTag n v = .ok enc') :
    enc.Grown (1 + n) enc' := by
  obtain ⟨enc₁, htag, hnumber⟩ := exists_of_bind_eq_ok hop
  exact (grown_writeTag htag).trans (grown_writeBytes hnumber)

/-- The five bytes a container is opened with. -/
theorem grown_push {isArray : Bool} (hop : vlMsgPackEncodePush enc isArray = .ok enc') :
    ∃ enc₁ frame, enc.Grown 5 enc₁ ∧ enc' = { enc₁ with stateStack := frame :: enc.stateStack } ∧
      frame = ⟨isArray, frame.startOffset, frame.sizeOffset, enc.buffer.offset + 5, 0⟩ := by
  obtain ⟨⟨startOffset, enc₁⟩, hstart, hop⟩ := exists_of_bind_eq_ok hop
  obtain ⟨⟨sizeOffset, enc₂⟩, hsize, hop⟩ := exists_of_bind_eq_ok hop
  obtain rfl := Except.ok.inj hop
  have hgrown := (grown_write hstart).trans (grown_write hsize)
  refine ⟨enc₂, ⟨isArray, startOffset, sizeOffset, enc₂.buffer.offset, 0⟩, hgrown, ?_, ?_⟩
  · rw [← hgrown.stateStack]
  · rw [← hgrown.offset]

end VlMsgPackEncoder

open VlMsgPackEncoder

section Calls

variable {enc enc' : VlMsgPackEncoder}

theorem vlMsgPackIOEncodeInt_grown {value : Int64} (hop : vlMsgPackIOEncodeInt enc value = .ok enc') :
    (vlMsgPackEncodeIncrement enc).Grown (vlMsgPackIntLength value.toInt) enc' := by
  rw [vlMsgPackIOEncodeInt] at hop
  generalize value.toInt = v at hop ⊢
  rw [vlMsgPackIntLength]
  split_ifs at hop with hpos hneg h8 h16 h32
  · rw [if_pos (by omega)]
    exact grown_writeTag hop
  · rw [if_pos (by omega)]
    exact grown_writeTag hop
  · rw [if_neg (by omega), if_pos (by omega)]
    exact grown_writeHeader hop
  · rw [if_neg (by omega), if_neg (by omega), if_pos (by omega)]
    exact grown_writeHeader hop
  · rw [if_neg (by omega), if_neg (by omega), if_neg (by omega), if_pos (by omega)]
    exact grown_writeHeader hop
  · rw [if_neg (by omega), if_neg (by omega), if_neg (by omega), if_neg (by omega)]
    exact grown_writeHeader hop

theorem vlMsgPackIOEncodeUInt_grown {value : UInt64}
    (hop : vlMsgPackIOEncodeUInt enc value = .ok enc') :
    (vlMsgPackEncodeIncrement enc).Grown (vlMsgPackUIntLength value.toNat) enc' := by
  rw [vlMsgPackIOEncodeUInt] at hop
  rw [vlMsgPackUIntLength]
  split_ifs at hop ⊢
  · exact grown_writeHeader hop
  · exact grown_writeHeader hop
  · exact grown_writeHeader hop
  · exact grown_writeHeader hop

theorem vlMsgPackIOEncodeBinary_grown {value : Option (List UInt8)} {len : ℕ}
    (hop : vlMsgPackIOEncodeBinary enc value len = .ok enc') :
    (vlMsgPackEncodeIncrement enc).Grown (vlMsgPackBinHeaderLength len + len) enc' := by
  obtain ⟨enc₁, hheader, hbytes⟩ := exists_of_bind_eq_ok hop
  refine Grown.trans ?_ (grown_writeBytes hbytes)
  rw [vlMsgPackBinHeaderLength]
  split_ifs at hheader ⊢
  · exact grown_writeHeader hheader
  · exact grown_writeHeader hheader
  · exact grown_writeHeader hheader

theorem vlMsgPackIOEncodeStringLen_grown {value : Option (List UInt8)} {len : ℕ}
    (hop : vlMsgPackIOEncodeStringLen enc value len = .ok enc') :
    (vlMsgPackEncodeIncrement enc).Grown (vlMsgPackStrHeaderLength len + len) enc' := by
  obtain ⟨enc₁, hheader, hbytes⟩ := exists_of_bind_eq_ok hop
  refine Grown.trans ?_ (grown_writeBytes hbytes)
  rw [vlMsgPackStrHeaderLength, vlMsgPackBinHeaderLength]
  split_ifs at hheader ⊢
  · exact grown_writeTag hheader
  · exact grown_writeHeader hheader
  · exact grown_writeHeader hheader
  · exact grown_writeHeader hheader

/-- **What a call writes**: as many bytes as its argument says. -/
theorem vlMsgPackIOEncode_grown {call : MsgPackCall} (hcall : ¬ call.IsContainer)
    (hop : vlMsgPackIOEncode enc call = .ok enc') :
    (vlMsgPackEncodeIncrement enc).Grown call.length enc' := by
  cases call with
  | nil => exact grown_writeTag hop
  | bool value => exact grown_writeTag hop
  | int value => exact vlMsgPackIOEncodeInt_grown hop
  | uint value => exact vlMsgPackIOEncodeUInt_grown hop
  | float32 value => exact grown_writeHeader hop
  | float64 value => exact grown_writeHeader hop
  | string value => exact vlMsgPackIOEncodeStringLen_grown hop
  | binary value => exact vlMsgPackIOEncodeBinary_grown hop
  | arrayBegin => exact absurd trivial hcall
  | arrayEnd => exact absurd trivial hcall
  | mapBegin => exact absurd trivial hcall
  | mapEnd => exact absurd trivial hcall

end Calls

end VeritableLasagna
