import VeritableLasagna.Memory.Buffer
import VeritableLasagna.MsgPack.Decoder

/-!
# The MessagePack encoder

The encoder appends to a buffer. An open container is a frame on a stack: its header is written when
the container is opened, with room for the longest one, and is filled in when it is closed; the
content is then moved down over the room that was not needed.
-/

namespace VeritableLasagna

/-- `vl_msgpack_encframe`. -/
structure VlMsgPackEncFrame where
  isArray : Bool
  startOffset : ℕ
  sizeOffset : ℕ
  dataOffset : ℕ
  totalElements : ℕ

/-- `vl_msgpack_encoder`. The state stack is a list, its top first. -/
structure VlMsgPackEncoder where
  stateStack : List VlMsgPackEncFrame
  buffer : VlBuffer
  error : VlMsgPackIOError
  errorType : VlMsgPackType
  errorDepth : ℕ

/-- `vl_MsgPackEncodeFrame`: the tag, the number of bytes the header can do without, and the frame
with the count that is written. -/
def vlMsgPackEncodeFrame (frame : VlMsgPackEncFrame) : ℕ × ℕ × VlMsgPackEncFrame :=
  let frame :=
    if frame.isArray then frame else { frame with totalElements := frame.totalElements / 2 }
  if frame.totalElements ≤ 0xF then
    ((if frame.isArray then 0x90 else 0x80) ||| (frame.totalElements &&& 0xF), 4, frame)
  else if frame.totalElements ≤ 0xFFFF then
    (if frame.isArray then VlMsgPackIO.array16 else VlMsgPackIO.map16, 2, frame)
  else (if frame.isArray then VlMsgPackIO.array32 else VlMsgPackIO.map32, 0, frame)

namespace VlMsgPackEncoder

/-- Write to the buffer of the encoder. -/
def write (enc : VlMsgPackEncoder) (size : ℕ) (src : Option (List UInt8)) :
    Except Fault (ℕ × VlMsgPackEncoder) := do
  let (offset, buffer) ← vlBufferWrite enc.buffer size src
  return (offset, { enc with buffer := buffer })

/-- Write one byte. -/
def writeTag (enc : VlMsgPackEncoder) (typeTag : ℕ) : Except Fault VlMsgPackEncoder := do
  let (_, enc) ← enc.write 1 (some [UInt8.ofNat typeTag])
  return enc

/-- Write the `n` low bytes of a number, flipped to put the most significant first. -/
def writeNumber (enc : VlMsgPackEncoder) (n v : ℕ) : Except Fault VlMsgPackEncoder := do
  let (_, enc) ← enc.write n (some (natToBE n v))
  return enc

/-- Write a tag, and a number behind it. -/
def writeHeader (enc : VlMsgPackEncoder) (typeTag n v : ℕ) : Except Fault VlMsgPackEncoder := do
  let enc ← enc.writeTag typeTag
  enc.writeNumber n v

/-- Write `size` bytes of an object. -/
def writeBytes (enc : VlMsgPackEncoder) (size : ℕ) (src : Option (List UInt8)) :
    Except Fault VlMsgPackEncoder := do
  let (_, enc) ← enc.write size src
  return enc

end VlMsgPackEncoder

/-! ### Containers -/

/-- `vl_MsgPackEncodePush`: claim space for the longest header. -/
def vlMsgPackEncodePush (enc : VlMsgPackEncoder) (isArray : Bool) :
    Except Fault VlMsgPackEncoder := do
  let (startOffset, enc) ← enc.write 1 none
  let (sizeOffset, enc) ← enc.write 4 none
  return { enc with stateStack := ⟨isArray, startOffset, sizeOffset, enc.buffer.offset, 0⟩ ::
                                    enc.stateStack }

/-- `vl_MsgPackEncodePop`: fill in the header of the frame on top, and move the content down. The
flag says whether there was a frame. -/
def vlMsgPackEncodePop (enc : VlMsgPackEncoder) : Except Fault (Bool × VlMsgPackEncoder) :=
  match enc.stateStack with
  | [] => .ok (false, enc)
  | frame :: stateStack => do
    let (typeTag, offset, frame) := vlMsgPackEncodeFrame frame
    let sizeLength := 4 - offset
    let data ← enc.buffer.data.store frame.startOffset [UInt8.ofNat typeTag]
    let data ← (if sizeLength = 2 ∨ sizeLength = 4 then
        data.store frame.sizeOffset (natToBE sizeLength frame.totalElements)
      else .ok data)
    if 0 < offset then do
      let blockSize := enc.buffer.offset - frame.dataOffset
      let block ← data.load frame.dataOffset blockSize
      let data ← data.store (frame.dataOffset - offset) block
      let buffer := { enc.buffer with data := data, offset := enc.buffer.offset - offset }
      return (true, { enc with stateStack := stateStack, buffer := buffer })
    else
      let buffer := { enc.buffer with data := data }
      return (true, { enc with stateStack := stateStack, buffer := buffer })

/-- `vl_MsgPackEncodeIncrement`. The count is an unsigned number of 32 bits. -/
def vlMsgPackEncodeIncrement (enc : VlMsgPackEncoder) : VlMsgPackEncoder :=
  match enc.stateStack with
  | [] => enc
  | frame :: stateStack =>
    { enc with stateStack :=
        { frame with totalElements := (frame.totalElements + 1) % 2 ^ 32 } :: stateStack }

/-- `vlMsgPackIOEncoderInit`. -/
def vlMsgPackIOEncoderInit (contents : ByteMem) : VlMsgPackEncoder :=
  ⟨[], vlBufferInit contents, .none, .nil, 0⟩

/-- `vlMsgPackIOEncodeMapBegin`. -/
def vlMsgPackIOEncodeMapBegin (enc : VlMsgPackEncoder) : Except Fault VlMsgPackEncoder :=
  vlMsgPackEncodePush (vlMsgPackEncodeIncrement enc) false

/-- `vlMsgPackIOEncodeMapEnd`. -/
def vlMsgPackIOEncodeMapEnd (enc : VlMsgPackEncoder) : Except Fault VlMsgPackEncoder :=
  match enc.stateStack with
  | [] => .ok { enc with error := .stackUnderflow, errorDepth := 0, errorType := .map }
  | top :: _ =>
    if top.totalElements % 2 = 1 then
      .ok { enc with error := .unbalancedMap, errorDepth := enc.stateStack.length,
                     errorType := .map }
    else do
      let (_, enc) ← vlMsgPackEncodePop enc
      return enc

/-- `vlMsgPackIOEncodeArrayBegin`. -/
def vlMsgPackIOEncodeArrayBegin (enc : VlMsgPackEncoder) : Except Fault VlMsgPackEncoder :=
  vlMsgPackEncodePush (vlMsgPackEncodeIncrement enc) true

/-- `vlMsgPackIOEncodeArrayEnd`. -/
def vlMsgPackIOEncodeArrayEnd (enc : VlMsgPackEncoder) : Except Fault VlMsgPackEncoder :=
  match enc.stateStack with
  | [] => .ok { enc with error := .stackUnderflow, errorDepth := 0, errorType := .array }
  | _ :: _ => do
    let (_, enc) ← vlMsgPackEncodePop enc
    return enc

/-! ### Scalars, strings and extensions -/

section Encode

variable (enc : VlMsgPackEncoder)

/-- `vlMsgPackIOEncodeBool`. -/
def vlMsgPackIOEncodeBool (value : Bool) : Except Fault VlMsgPackEncoder :=
  (vlMsgPackEncodeIncrement enc).writeTag (if value then VlMsgPackIO.true else VlMsgPackIO.false)

/-- `vlMsgPackIOEncodeStringLen`. -/
def vlMsgPackIOEncodeStringLen (value : Option (List UInt8)) (len : ℕ) :
    Except Fault VlMsgPackEncoder := do
  let enc := vlMsgPackEncodeIncrement enc
  let enc ← (if len ≤ 0x1F then enc.writeTag (0xA0 ||| (len &&& 0x1F))
    else if len ≤ 0xFF then enc.writeHeader VlMsgPackIO.str8 1 len
    else if len ≤ 0xFFFF then enc.writeHeader VlMsgPackIO.str16 2 len
    else enc.writeHeader VlMsgPackIO.str32 4 len)
  enc.writeBytes len value

/-- `vlMsgPackIOEncodeFloat32`, of a bit pattern. -/
def vlMsgPackIOEncodeFloat32 (value : UInt32) : Except Fault VlMsgPackEncoder :=
  (vlMsgPackEncodeIncrement enc).writeHeader VlMsgPackIO.float32 4 value.toNat

/-- `vlMsgPackIOEncodeFloat64`, of a bit pattern. -/
def vlMsgPackIOEncodeFloat64 (value : UInt64) : Except Fault VlMsgPackEncoder :=
  (vlMsgPackEncodeIncrement enc).writeHeader VlMsgPackIO.float64 8 value.toNat

/-- `vlMsgPackIOEncodeBinary`. -/
def vlMsgPackIOEncodeBinary (value : Option (List UInt8)) (len : ℕ) :
    Except Fault VlMsgPackEncoder := do
  let enc := vlMsgPackEncodeIncrement enc
  let enc ← (if len ≤ 0xFF then enc.writeHeader VlMsgPackIO.bin8 1 len
    else if len ≤ 0xFFFF then enc.writeHeader VlMsgPackIO.bin16 2 len
    else enc.writeHeader VlMsgPackIO.bin32 4 len)
  enc.writeBytes len value

/-- The switch over the length of `vlMsgPackIOEncodeExt`: the length that is written, and its tag. -/
def vlMsgPackFixExt : ℕ → ℕ × ℕ
  | 0 | 1 => (1, VlMsgPackIO.fixext1)
  | 2 => (2, VlMsgPackIO.fixext2)
  | 3 | 4 => (4, VlMsgPackIO.fixext4)
  | 5 | 6 | 7 | 8 => (8, VlMsgPackIO.fixext8)
  | 9 | 10 | 11 | 12 | 13 | 14 | 15 | 16 => (16, VlMsgPackIO.fixext16)
  | _ => (0, 0)

/-- The zeroed buffer of 16 bytes of `vlMsgPackIOEncodeExt`, with a short payload copied into it. -/
def vlMsgPackTempBuffer (value : Option (List UInt8)) (len : ℕ) : Except Fault VlMemory :=
  let tempBuffer := vlMemAlloc (fun _ => 0) 16
  match value with
  | some bs => if 0 < len then tempBuffer.memcpy 0 len bs else .ok tempBuffer
  | none => .ok tempBuffer

/-- `vlMsgPackIOEncodeExt`. -/
def vlMsgPackIOEncodeExt (type : Int8) (value : Option (List UInt8)) (len : ℕ) :
    Except Fault VlMsgPackEncoder :=
  let enc := vlMsgPackEncodeIncrement enc
  if len ≤ 16 then do
    let tempBuffer ← vlMsgPackTempBuffer value len
    let (encLen, encType) := vlMsgPackFixExt len
    let enc ← enc.writeTag encType
    let enc ← enc.writeTag type.toUInt8.toNat
    enc.writeBytes encLen (some (tempBuffer.bytes.slice 0 16))
  else do
    let enc ← (if len ≤ 0xFF then enc.writeHeader VlMsgPackIO.ext8 1 len
      else if len ≤ 0xFFFF then enc.writeHeader VlMsgPackIO.ext16 2 len
      else enc.writeHeader VlMsgPackIO.ext32 4 len)
    let enc ← enc.writeTag type.toUInt8.toNat
    enc.writeBytes len value

/-- `vlMsgPackIOEncodeInt`. -/
def vlMsgPackIOEncodeInt (value : Int64) : Except Fault VlMsgPackEncoder :=
  let enc := vlMsgPackEncodeIncrement enc
  let v := value.toInt
  if v ≤ 0x7F ∧ 0 ≤ v then enc.writeTag (v % 2 ^ 8).toNat
  else if v ≤ -1 ∧ -0x1F ≤ v then enc.writeTag (0xE0 ||| (v % 2 ^ 8).toNat)
  else if v ≤ 0x7F ∧ -0x7F ≤ v then enc.writeHeader VlMsgPackIO.int8 1 (v % 2 ^ 8).toNat
  else if v ≤ 0x7FFF ∧ -0x7FFF ≤ v then enc.writeHeader VlMsgPackIO.int16 2 (v % 2 ^ 16).toNat
  else if v ≤ 0x7FFFFFFF ∧ -0x7FFFFFFF ≤ v then
    enc.writeHeader VlMsgPackIO.int32 4 (v % 2 ^ 32).toNat
  else enc.writeHeader VlMsgPackIO.int64 8 (v % 2 ^ 64).toNat

/-- `vlMsgPackIOEncodeUInt`. -/
def vlMsgPackIOEncodeUInt (value : UInt64) : Except Fault VlMsgPackEncoder :=
  let enc := vlMsgPackEncodeIncrement enc
  let v := value.toNat
  if v ≤ 0xFF then enc.writeHeader VlMsgPackIO.uint8 1 v
  else if v ≤ 0xFFFF then enc.writeHeader VlMsgPackIO.uint16 2 v
  else if v ≤ 0xFFFFFFFF then enc.writeHeader VlMsgPackIO.uint32 4 v
  else enc.writeHeader VlMsgPackIO.uint64 8 v

/-- `vlMsgPackIOEncodeNil`. -/
def vlMsgPackIOEncodeNil : Except Fault VlMsgPackEncoder :=
  (vlMsgPackEncodeIncrement enc).writeTag VlMsgPackIO.nil

end Encode

/-! ### What the encoder appends -/

namespace VlMsgPackEncoder

variable {enc enc₁ enc₂ : VlMsgPackEncoder} {bs cs : List UInt8} {n v : ℕ}

/-- The second encoder is the first with the bytes `bs` behind what it has written. -/
structure Appended (enc : VlMsgPackEncoder) (bs : List UInt8) (enc' : VlMsgPackEncoder) : Prop where
  wellFormed : enc'.buffer.WellFormed
  written : enc'.buffer.written = enc.buffer.written ++ bs
  stateStack : enc'.stateStack = enc.stateStack
  error : enc'.error = enc.error

theorem Appended.trans (h : enc.Appended bs enc₁) (h' : enc₁.Appended cs enc₂) :
    enc.Appended (bs ++ cs) enc₂ := by
  refine ⟨h'.wellFormed, ?_, h'.stateStack.trans h.stateStack, h'.error.trans h.error⟩
  rw [h'.written, h.written, List.append_assoc]

/-- The offset of an encoder is the number of bytes written. -/
theorem Appended.offset (h : enc.Appended bs enc₁) :
    enc₁.buffer.offset = enc.buffer.offset + bs.length := by
  have hlen := congrArg List.length h.written
  rwa [List.length_append, VlBuffer.length_written, VlBuffer.length_written] at hlen

/-- Whatever is passed, `n` bytes are appended; of an object they are the first. -/
theorem write_payload {value : Option (List UInt8)} (h : enc.buffer.WellFormed)
    (hvalue : ∀ cs ∈ value, n ≤ cs.length) :
    Serves (enc.write n value) fun r => r.1 = enc.buffer.offset ∧
      ∃ bs, bs.length = n ∧ (∀ cs ∈ value, bs = cs.take n) ∧ enc.Appended bs r.2 := by
  refine (vlBufferWrite_spec h value hvalue).bind fun r hr => ?_
  obtain ⟨hoff, hwf, -, bs, hlen, hbs, hwritten⟩ := hr
  exact serves_ok ⟨hoff, bs, hlen, hbs, hwf, hwritten, rfl, rfl⟩

/-- Writing from an object of at least `n` bytes appends its first `n`. -/
theorem write_spec (h : enc.buffer.WellFormed) (hn : n ≤ bs.length) :
    Serves (enc.write n (some bs)) fun r => enc.Appended (bs.take n) r.2 := by
  have hsrc : ∀ cs ∈ some bs, n ≤ cs.length := fun cs hcs => Option.some_injective _ hcs ▸ hn
  refine (write_payload h hsrc).mono fun r ⟨_, ds, _, hds, happ⟩ => ?_
  rwa [hds bs rfl] at happ

/-- Without an object, some `n` bytes are appended. -/
theorem claim_spec (h : enc.buffer.WellFormed) :
    Serves (enc.write n none) fun r =>
      r.1 = enc.buffer.offset ∧ ∃ bs, bs.length = n ∧ enc.Appended bs r.2 := by
  refine (write_payload h fun cs hcs => (by cases hcs)).mono fun r ⟨hoff, bs, hlen, _, happ⟩ => ?_
  exact ⟨hoff, bs, hlen, happ⟩

theorem writeBytes_spec (h : enc.buffer.WellFormed) (hn : n ≤ bs.length) :
    Serves (enc.writeBytes n (some bs)) (enc.Appended (bs.take n)) :=
  (write_spec h hn).bind fun _ hr => serves_ok hr

theorem writeBytes_payload {value : Option (List UInt8)} (h : enc.buffer.WellFormed)
    (hvalue : ∀ cs ∈ value, n ≤ cs.length) :
    Serves (enc.writeBytes n value) fun enc' =>
      ∃ bs, bs.length = n ∧ (∀ cs ∈ value, bs = cs.take n) ∧ enc.Appended bs enc' :=
  (write_payload h hvalue).bind fun _ hr => serves_ok hr.2

theorem writeTag_spec (h : enc.buffer.WellFormed) :
    Serves (enc.writeTag n) (enc.Appended [UInt8.ofNat n]) :=
  (write_spec (n := 1) h le_rfl).bind fun _ hr => serves_ok hr

theorem writeNumber_spec (h : enc.buffer.WellFormed) :
    Serves (enc.writeNumber n v) (enc.Appended (natToBE n v)) := by
  have htake : (natToBE n v).take n = natToBE n v := List.take_of_length_le length_natToBE.le
  refine (write_spec h length_natToBE.ge).bind fun _ hr => serves_ok ?_
  rwa [htake] at hr

theorem writeHeader_spec {typeTag : ℕ} (h : enc.buffer.WellFormed) :
    Serves (enc.writeHeader typeTag n v) (enc.Appended (UInt8.ofNat typeTag :: natToBE n v)) :=
  (writeTag_spec h).bind fun _ h₁ => (writeNumber_spec h₁.wellFormed).mono fun _ h₂ => h₁.trans h₂

@[simp] theorem buffer_increment : (vlMsgPackEncodeIncrement enc).buffer = enc.buffer := by
  rw [vlMsgPackEncodeIncrement]
  split <;> rfl

end VlMsgPackEncoder

end VeritableLasagna
