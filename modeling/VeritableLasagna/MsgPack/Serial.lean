import VeritableLasagna.MsgPack.Texts

/-!
# The bytes of an item

The encoder has one text for each item (`MsgPackItem.bytes`): the branches of `vlMsgPackIOEncode*`, without
the buffer. What a call appends is the text of its item, whatever was written before
(`vlMsgPackIOEncode_bytes`), and it is read back (`MsgPackItem.Written`). As the format is prefix-free, the
texts of two lists of items are the same only if the lists are (`Chunked.items_unique`).
-/

namespace VeritableLasagna

open VlMsgPackDecoder VlMsgPackEncoder

/-! ### The texts -/

/-- The bytes of a signed number. -/
def msgPackIntBytes (v : ℤ) : List UInt8 :=
  if v ≤ 0x7F ∧ 0 ≤ v then [UInt8.ofNat (v % 2 ^ 8).toNat]
  else if v ≤ -1 ∧ -0x1F ≤ v then [UInt8.ofNat (0xE0 ||| (v % 2 ^ 8).toNat)]
  else if v ≤ 0x7F ∧ -0x7F ≤ v then UInt8.ofNat VlMsgPackIO.int8 :: natToBE 1 (v % 2 ^ 8).toNat
  else if v ≤ 0x7FFF ∧ -0x7FFF ≤ v then UInt8.ofNat VlMsgPackIO.int16 :: natToBE 2 (v % 2 ^ 16).toNat
  else if v ≤ 0x7FFFFFFF ∧ -0x7FFFFFFF ≤ v then
    UInt8.ofNat VlMsgPackIO.int32 :: natToBE 4 (v % 2 ^ 32).toNat
  else UInt8.ofNat VlMsgPackIO.int64 :: natToBE 8 (v % 2 ^ 64).toNat

/-- The bytes of an unsigned number. -/
def msgPackUIntBytes (v : ℕ) : List UInt8 :=
  if v ≤ 0xFF then UInt8.ofNat VlMsgPackIO.uint8 :: natToBE 1 v
  else if v ≤ 0xFFFF then UInt8.ofNat VlMsgPackIO.uint16 :: natToBE 2 v
  else if v ≤ 0xFFFFFFFF then UInt8.ofNat VlMsgPackIO.uint32 :: natToBE 4 v
  else UInt8.ofNat VlMsgPackIO.uint64 :: natToBE 8 v

/-- What is written in front of a string. -/
def msgPackStrHeader (len : ℕ) : List UInt8 :=
  if len ≤ 0x1F then [UInt8.ofNat (0xA0 ||| (len &&& 0x1F))]
  else if len ≤ 0xFF then UInt8.ofNat VlMsgPackIO.str8 :: natToBE 1 len
  else if len ≤ 0xFFFF then UInt8.ofNat VlMsgPackIO.str16 :: natToBE 2 len
  else UInt8.ofNat VlMsgPackIO.str32 :: natToBE 4 len

/-- What is written in front of a binary. -/
def msgPackBinHeader (len : ℕ) : List UInt8 :=
  if len ≤ 0xFF then UInt8.ofNat VlMsgPackIO.bin8 :: natToBE 1 len
  else if len ≤ 0xFFFF then UInt8.ofNat VlMsgPackIO.bin16 :: natToBE 2 len
  else UInt8.ofNat VlMsgPackIO.bin32 :: natToBE 4 len

/-- **The bytes of an item.** -/
def MsgPackItem.bytes : MsgPackItem → List UInt8
  | .nil => [UInt8.ofNat VlMsgPackIO.nil]
  | .bool b => [UInt8.ofNat (if b then VlMsgPackIO.true else VlMsgPackIO.false)]
  | .int v => msgPackIntBytes v
  | .uint v => msgPackUIntBytes v
  | .float32 bits => UInt8.ofNat VlMsgPackIO.float32 :: natToBE 4 bits
  | .float64 bits => UInt8.ofNat VlMsgPackIO.float64 :: natToBE 8 bits
  | .str bs => msgPackStrHeader bs.length ++ bs
  | .bin bs => msgPackBinHeader bs.length ++ bs
  | .array n => msgPackContainerHeader true n
  | .map n => msgPackContainerHeader false n
  | .ext type bs => msgPackExtBytes (Int8.ofInt type) bs

@[simp] theorem bytes_container {isArray : Bool} {n : ℕ} :
    (msgPackContainer isArray n).bytes = msgPackContainerHeader isArray n := by
  cases isArray <;> rfl

/-! ### What a call appends -/

section Calls

variable {enc : VlMsgPackEncoder} {item : MsgPackItem} {bs : List UInt8}

theorem vlMsgPackIOEncodeInt_bytes {value : Int64} (h : enc.buffer.WellFormed) :
    Serves (vlMsgPackIOEncodeInt enc value)
      ((vlMsgPackEncodeIncrement enc).Appended (msgPackIntBytes value.toInt)) := by
  have hinc : (vlMsgPackEncodeIncrement enc).buffer.WellFormed := by rwa [buffer_increment]
  rw [vlMsgPackIOEncodeInt, msgPackIntBytes]
  split_ifs
  · exact writeTag_spec hinc
  · exact writeTag_spec hinc
  · exact writeHeader_spec hinc
  · exact writeHeader_spec hinc
  · exact writeHeader_spec hinc
  · exact writeHeader_spec hinc

theorem vlMsgPackIOEncodeUInt_bytes {value : UInt64} (h : enc.buffer.WellFormed) :
    Serves (vlMsgPackIOEncodeUInt enc value)
      ((vlMsgPackEncodeIncrement enc).Appended (msgPackUIntBytes value.toNat)) := by
  have hinc : (vlMsgPackEncodeIncrement enc).buffer.WellFormed := by rwa [buffer_increment]
  rw [vlMsgPackIOEncodeUInt, msgPackUIntBytes]
  split_ifs
  · exact writeHeader_spec hinc
  · exact writeHeader_spec hinc
  · exact writeHeader_spec hinc
  · exact writeHeader_spec hinc

/-- A header, then all bytes of the object. -/
theorem appended_payload {m : Except Fault VlMsgPackEncoder} {hd : List UInt8}
    (hm : Serves m (enc.Appended hd)) :
    Serves (m >>= fun enc => enc.writeBytes bs.length (some bs)) (enc.Appended (hd ++ bs)) := by
  refine hm.bind fun enc₁ h₁ => ?_
  refine (writeBytes_spec h₁.wellFormed le_rfl).mono fun enc₂ h₂ => ?_
  rw [List.take_length] at h₂
  exact h₁.trans h₂

theorem vlMsgPackIOEncodeStringLen_bytes (h : enc.buffer.WellFormed) :
    Serves (vlMsgPackIOEncodeStringLen enc (some bs) bs.length)
      ((vlMsgPackEncodeIncrement enc).Appended (msgPackStrHeader bs.length ++ bs)) := by
  have hinc : (vlMsgPackEncodeIncrement enc).buffer.WellFormed := by rwa [buffer_increment]
  rw [vlMsgPackIOEncodeStringLen, msgPackStrHeader]
  split_ifs
  · exact appended_payload (writeTag_spec hinc)
  · exact appended_payload (writeHeader_spec hinc)
  · exact appended_payload (writeHeader_spec hinc)
  · exact appended_payload (writeHeader_spec hinc)

theorem vlMsgPackIOEncodeBinary_bytes (h : enc.buffer.WellFormed) :
    Serves (vlMsgPackIOEncodeBinary enc (some bs) bs.length)
      ((vlMsgPackEncodeIncrement enc).Appended (msgPackBinHeader bs.length ++ bs)) := by
  have hinc : (vlMsgPackEncodeIncrement enc).buffer.WellFormed := by rwa [buffer_increment]
  rw [vlMsgPackIOEncodeBinary, msgPackBinHeader]
  split_ifs
  · exact appended_payload (writeHeader_spec hinc)
  · exact appended_payload (writeHeader_spec hinc)
  · exact appended_payload (writeHeader_spec hinc)

/-- **A call appends the bytes of its item**, whatever was written before. -/
theorem vlMsgPackIOEncode_bytes {call : MsgPackCall} (h : enc.buffer.WellFormed)
    (hcall : call.item = some item) :
    Serves (vlMsgPackIOEncode enc call) ((vlMsgPackEncodeIncrement enc).Appended item.bytes) := by
  have hinc : (vlMsgPackEncodeIncrement enc).buffer.WellFormed := by rwa [buffer_increment]
  cases call with
  | nil =>
    obtain rfl := Option.some_injective _ hcall
    exact writeTag_spec hinc
  | bool value =>
    obtain rfl := Option.some_injective _ hcall
    exact writeTag_spec hinc
  | int value =>
    obtain rfl := Option.some_injective _ hcall
    exact vlMsgPackIOEncodeInt_bytes h
  | uint value =>
    obtain rfl := Option.some_injective _ hcall
    exact vlMsgPackIOEncodeUInt_bytes h
  | float32 value =>
    obtain rfl := Option.some_injective _ hcall
    exact writeHeader_spec hinc
  | float64 value =>
    obtain rfl := Option.some_injective _ hcall
    exact writeHeader_spec hinc
  | string value =>
    rw [MsgPackCall.item] at hcall
    split_ifs at hcall
    obtain rfl := Option.some_injective _ hcall
    exact vlMsgPackIOEncodeStringLen_bytes h
  | binary value =>
    rw [MsgPackCall.item] at hcall
    split_ifs at hcall
    obtain rfl := Option.some_injective _ hcall
    exact vlMsgPackIOEncodeBinary_bytes h
  | arrayBegin => cases hcall
  | arrayEnd => cases hcall
  | mapBegin => cases hcall
  | mapEnd => cases hcall

/-- What is appended is determined by the two encoders. -/
theorem VlMsgPackEncoder.Appended.unique {enc' : VlMsgPackEncoder} {cs : List UInt8}
    (h : enc.Appended bs enc') (h' : enc.Appended cs enc') : bs = cs := by
  have happend := h.written.symm.trans h'.written
  exact List.append_cancel_left happend

end Calls

/-! ### Texts of items -/

/-- The bytes are those of the item, and the decoder reads them wherever they are. -/
structure MsgPackItem.Written (bs : List UInt8) (item : MsgPackItem) : Prop where
  eq : bs = item.bytes
  readable : MsgPackItem.Readable bs item

section Texts

variable {enc : VlMsgPackEncoder} {bs bs' : List UInt8} {item : MsgPackItem}
  {items items' : List MsgPackItem}

theorem vlMsgPackIOEncode_written {call : MsgPackCall} (h : enc.buffer.WellFormed)
    (hcall : call.item = some item) :
    Serves (vlMsgPackIOEncode enc call) fun enc' =>
      ∃ bs, (vlMsgPackEncodeIncrement enc).Appended bs enc' ∧ MsgPackItem.Written bs item := by
  have hbytes := vlMsgPackIOEncode_bytes h hcall
  rcases vlMsgPackIOEncode_item h hcall with herr | ⟨enc', hok, bs, happ, henc⟩
  · exact Or.inl herr
  · refine Or.inr ⟨enc', hok, bs, happ, happ.unique (hbytes.of_ok hok), henc.readable ?_⟩
    rintro type ds rfl
    cases call <;> simp [MsgPackCall.item] at hcall

/-- **The text of a list of items** is that of one after the other. -/
theorem Chunked.eq_bytes (h : Chunked MsgPackItem.Written bs items) :
    bs = items.flatMap MsgPackItem.bytes := by
  induction items generalizing bs with
  | nil => exact chunked_nil.mp h
  | cons item items ih =>
    obtain ⟨chunk, rest, ⟨hchunk, -⟩, hrest, rfl⟩ := chunked_cons.mp h
    rw [List.flatMap_cons, ← ih hrest, hchunk]

/-- **The texts of two lists of items** are the same only if the lists are. -/
theorem Chunked.items_unique (h : Chunked MsgPackItem.Readable bs items)
    (h' : Chunked MsgPackItem.Readable bs items') : items = items' := by
  have hne : ∀ {chunk rest : List UInt8} {item : MsgPackItem}, MsgPackItem.Readable chunk item →
      chunk ++ rest ≠ [] := by
    rintro chunk rest item ⟨⟨b, body, rfl, -⟩, -⟩
    exact List.cons_ne_nil b _
  induction items generalizing bs items' with
  | nil =>
    obtain rfl := chunked_nil.mp h
    cases items' with
    | nil => rfl
    | cons item' items' =>
      obtain ⟨chunk, rest, hchunk, -, hnil⟩ := chunked_cons.mp h'
      exact absurd hnil.symm (hne hchunk)
  | cons item items ih =>
    obtain ⟨chunk, rest, hchunk, hrest, rfl⟩ := chunked_cons.mp h
    cases items' with
    | nil => exact absurd (chunked_nil.mp h') (hne hchunk)
    | cons item' items' =>
      obtain ⟨chunk', rest', hchunk', hrest', heq⟩ := chunked_cons.mp h'
      obtain ⟨rfl, rfl⟩ := hchunk.1.unique hchunk'.1 heq
      obtain rfl := List.append_cancel_left heq
      rw [ih hrest hrest']

end Texts

end VeritableLasagna
