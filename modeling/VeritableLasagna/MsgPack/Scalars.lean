import VeritableLasagna.MsgPack.Encoder

/-!
# The calls of the encoder

A text is written by a sequence of calls (`MsgPackCall`). A call that writes a scalar, a string or a
binary appends an encoding of its item and counts it in the container that is open
(`vlMsgPackIOEncode_item`).
-/

namespace VeritableLasagna

open VlMsgPackEncoder

/-- A call of the encoder. -/
inductive MsgPackCall
  | nil
  | bool (value : Bool)
  | int (value : Int64)
  | uint (value : UInt64)
  | float32 (value : UInt32)
  | float64 (value : UInt64)
  | string (value : List UInt8)
  | binary (value : List UInt8)
  | arrayBegin
  | arrayEnd
  | mapBegin
  | mapEnd

/-- The call of `vlMsgPackIOEncode*` it stands for. -/
def vlMsgPackIOEncode (enc : VlMsgPackEncoder) : MsgPackCall → Except Fault VlMsgPackEncoder
  | .nil => vlMsgPackIOEncodeNil enc
  | .bool value => vlMsgPackIOEncodeBool enc value
  | .int value => vlMsgPackIOEncodeInt enc value
  | .uint value => vlMsgPackIOEncodeUInt enc value
  | .float32 value => vlMsgPackIOEncodeFloat32 enc value
  | .float64 value => vlMsgPackIOEncodeFloat64 enc value
  | .string value => vlMsgPackIOEncodeStringLen enc (some value) value.length
  | .binary value => vlMsgPackIOEncodeBinary enc (some value) value.length
  | .arrayBegin => vlMsgPackIOEncodeArrayBegin enc
  | .arrayEnd => vlMsgPackIOEncodeArrayEnd enc
  | .mapBegin => vlMsgPackIOEncodeMapBegin enc
  | .mapEnd => vlMsgPackIOEncodeMapEnd enc

/-- The item of a call that writes one. A length has to fit its parameter. -/
def MsgPackCall.item : MsgPackCall → Option MsgPackItem
  | .nil => some .nil
  | .bool value => some (.bool value)
  | .int value => some (.int value.toInt)
  | .uint value => some (.uint value.toNat)
  | .float32 value => some (.float32 value.toNat)
  | .float64 value => some (.float64 value.toNat)
  | .string value => if value.length < 2 ^ 32 then some (.str value) else none
  | .binary value => if value.length < 2 ^ 32 then some (.bin value) else none
  | .arrayBegin | .arrayEnd | .mapBegin | .mapEnd => none

/-! ### The encodings -/

section Encodes

variable {typeTag k v : ℕ} {item : MsgPackItem} {f : ℕ → MsgPackItem}
  {g : List UInt8 → MsgPackItem} {bs : List UInt8}

theorem encodes_value (h : MsgPackForm.ofTag (UInt8.ofNat typeTag).toNat = .value item) :
    MsgPackItem.Encodes [UInt8.ofNat typeTag] item := by
  refine ⟨_, [], rfl, ?_⟩
  rw [h]
  exact ⟨rfl, rfl⟩

theorem encodes_number (h : MsgPackForm.ofTag (UInt8.ofNat typeTag).toNat = .number k f)
    (hv : v < 256 ^ k) :
    MsgPackItem.Encodes (UInt8.ofNat typeTag :: natToBE k v) (f v) := by
  refine ⟨_, _, rfl, ?_⟩
  rw [h]
  exact ⟨length_natToBE, by rw [natOfBE_natToBE, Nat.mod_eq_of_lt hv]⟩

theorem encodes_bytes (h : MsgPackForm.ofTag (UInt8.ofNat typeTag).toNat = .bytes bs.length g) :
    MsgPackItem.Encodes (UInt8.ofNat typeTag :: bs) (g bs) := by
  refine ⟨_, _, rfl, ?_⟩
  rw [h]
  exact ⟨rfl, rfl⟩

theorem encodes_sizedBytes (h : MsgPackForm.ofTag (UInt8.ofNat typeTag).toNat = .sizedBytes k g)
    (hlen : bs.length < 256 ^ k) :
    MsgPackItem.Encodes (UInt8.ofNat typeTag :: natToBE k bs.length ++ bs) (g bs) := by
  refine ⟨_, _, rfl, ?_⟩
  rw [h]
  exact ⟨_, bs, rfl, length_natToBE, by rw [natOfBE_natToBE, Nat.mod_eq_of_lt hlen], rfl⟩

/-- The two's complement of a number in range is read back. -/
theorem bmod_toNat {w : ℤ} {m : ℕ} (hpos : 0 < m) (hlo : -(m : ℤ) ≤ 2 * w) (hhi : 2 * w < m) :
    Int.bmod ((w % m).toNat : ℤ) m = w := by
  rw [Int.toNat_of_nonneg (Int.emod_nonneg _ (by omega)), Int.emod_bmod]
  rw [Int.bmod_eq_of_le_mul_two (by omega) (by omega)]

/-- A signed number behind its tag, in two's complement. -/
theorem encodes_signed {w : ℤ} {m : ℕ} (hm : m = 2 ^ (8 * k))
    (h : MsgPackForm.ofTag (UInt8.ofNat typeTag).toNat = .number k (MsgPackForm.signed k))
    (hlo : -(m : ℤ) ≤ 2 * w) (hhi : 2 * w < m) :
    MsgPackItem.Encodes (UInt8.ofNat typeTag :: natToBE k (w % m).toNat) (.int w) := by
  have hpos : 0 < m := hm ▸ Nat.two_pow_pos _
  have hlt : (w % m).toNat < 256 ^ k := by
    have hmod := Int.emod_lt_of_pos w (by omega : (0 : ℤ) < m)
    have hpow : 256 ^ k = m := by rw [hm, pow_mul]; norm_num
    omega
  have henc := encodes_number h hlt
  rwa [MsgPackForm.signed, ← hm, bmod_toNat hpos hlo hhi] at henc

end Encodes

/-! ### What a call appends -/

section Calls

variable {enc : VlMsgPackEncoder} {bs : List UInt8} {item : MsgPackItem}

/-- The encoder appends an encoding of the item. -/
def VlMsgPackEncoder.Writes (enc : VlMsgPackEncoder) (m : Except Fault VlMsgPackEncoder)
    (item : MsgPackItem) : Prop :=
  Serves m fun enc' => ∃ bs, enc.Appended bs enc' ∧ MsgPackItem.Encodes bs item

theorem writes_tag {typeTag : ℕ} (h : enc.buffer.WellFormed)
    (henc : MsgPackItem.Encodes [UInt8.ofNat typeTag] item) :
    enc.Writes (enc.writeTag typeTag) item :=
  (writeTag_spec h).mono fun _ happ => ⟨_, happ, henc⟩

theorem writes_header {typeTag k v : ℕ} (h : enc.buffer.WellFormed)
    (henc : MsgPackItem.Encodes (UInt8.ofNat typeTag :: natToBE k v) item) :
    enc.Writes (enc.writeHeader typeTag k v) item :=
  (writeHeader_spec h).mono fun _ happ => ⟨_, happ, henc⟩

/-- The encoder appends an encoding of an item with a payload of `n` bytes: the first of the object,
if one is passed. -/
def VlMsgPackEncoder.WritesPayload (enc : VlMsgPackEncoder) (m : Except Fault VlMsgPackEncoder)
    (value : Option (List UInt8)) (n : ℕ) (f : List UInt8 → MsgPackItem) : Prop :=
  Serves m fun enc' => ∃ ds, (∀ cs ∈ value, ds = cs.take n) ∧
    ∃ bs, enc.Appended bs enc' ∧ MsgPackItem.Encodes bs (f ds)

/-- A header, then the payload. -/
theorem writes_payload {m : Except Fault VlMsgPackEncoder} {value : Option (List UInt8)} {n : ℕ}
    {hd : List UInt8} {f : List UInt8 → MsgPackItem} (hvalue : ∀ cs ∈ value, n ≤ cs.length)
    (hm : Serves m (enc.Appended hd))
    (henc : ∀ ds, ds.length = n → MsgPackItem.Encodes (hd ++ ds) (f ds)) :
    enc.WritesPayload (m >>= fun enc => enc.writeBytes n value) value n f := by
  refine hm.bind fun enc₁ h₁ => ?_
  refine (writeBytes_payload h₁.wellFormed hvalue).mono fun enc₂ ⟨ds, hlen, hds, h₂⟩ => ?_
  exact ⟨ds, hds, hd ++ ds, h₁.trans h₂, henc ds hlen⟩

/-- The item with all bytes of the object. -/
theorem VlMsgPackEncoder.WritesPayload.writes {m : Except Fault VlMsgPackEncoder}
    {f : List UInt8 → MsgPackItem} (h : enc.WritesPayload m (some bs) bs.length f) :
    enc.Writes m (f bs) := by
  refine Serves.mono h fun enc' ⟨ds, hds, hbs⟩ => ?_
  rwa [hds bs rfl, List.take_length] at hbs

theorem length_le_of_some {n : ℕ} (h : n ≤ bs.length) : ∀ cs ∈ some bs, n ≤ cs.length :=
  fun _ hcs => Option.some_injective _ hcs ▸ h

theorem vlMsgPackIOEncodeInt_writes {value : Int64} (h : enc.buffer.WellFormed) :
    (vlMsgPackEncodeIncrement enc).Writes (vlMsgPackIOEncodeInt enc value) (.int value.toInt) := by
  have hinc : (vlMsgPackEncodeIncrement enc).buffer.WellFormed := by rwa [buffer_increment]
  have hlo := value.le_toInt
  have hhi := value.toInt_lt
  rw [vlMsgPackIOEncodeInt]
  generalize value.toInt = v at hlo hhi
  split_ifs with hpos hneg h8 h16 h32
  · have hv : ((v % 2 ^ 8).toNat : ℤ) = v := by omega
    refine writes_tag hinc (encodes_value ?_)
    rw [UInt8.toNat_ofNat', Nat.mod_eq_of_lt (by omega), MsgPackForm.ofTag_masked (by omega),
      if_pos (by omega), hv]
  · have hor : ∀ n < 256, 0xE0 ≤ n → 0xE0 ||| n = n := by decide +kernel
    have hv : ((v % 2 ^ 8).toNat : ℤ) - 256 = v := by omega
    refine writes_tag hinc (encodes_value ?_)
    rw [hor _ (by omega) (by omega), UInt8.toNat_ofNat', Nat.mod_eq_of_lt (by omega),
      MsgPackForm.ofTag_masked (by omega), if_neg (by omega), if_neg (by omega), if_neg (by omega),
      if_neg (by omega), hv]
  · refine writes_header hinc (encodes_signed (k := 1) rfl rfl ?_ ?_) <;> push_cast <;> omega
  · refine writes_header hinc (encodes_signed (k := 2) rfl rfl ?_ ?_) <;> push_cast <;> omega
  · refine writes_header hinc (encodes_signed (k := 4) rfl rfl ?_ ?_) <;> push_cast <;> omega
  · refine writes_header hinc (encodes_signed (k := 8) rfl rfl ?_ ?_) <;> push_cast <;> omega

theorem vlMsgPackIOEncodeUInt_writes {value : UInt64} (h : enc.buffer.WellFormed) :
    (vlMsgPackEncodeIncrement enc).Writes (vlMsgPackIOEncodeUInt enc value)
      (.uint value.toNat) := by
  have hinc : (vlMsgPackEncodeIncrement enc).buffer.WellFormed := by rwa [buffer_increment]
  have hlt := value.toNat_lt
  rw [vlMsgPackIOEncodeUInt]
  split_ifs
  · exact writes_header hinc (encodes_number (k := 1) rfl (by omega))
  · exact writes_header hinc (encodes_number (k := 2) rfl (by omega))
  · exact writes_header hinc (encodes_number (k := 4) rfl (by omega))
  · exact writes_header hinc (encodes_number (k := 8) rfl (by omega))

theorem vlMsgPackIOEncodeStringLen_writes {value : Option (List UInt8)} {n : ℕ}
    (h : enc.buffer.WellFormed) (hlen : n < 2 ^ 32) (hvalue : ∀ cs ∈ value, n ≤ cs.length) :
    (vlMsgPackEncodeIncrement enc).WritesPayload
      (vlMsgPackIOEncodeStringLen enc value n) value n .str := by
  have hinc : (vlMsgPackEncodeIncrement enc).buffer.WellFormed := by rwa [buffer_increment]
  rw [vlMsgPackIOEncodeStringLen]
  split_ifs with hfix
  · have hor : ∀ n ≤ 0x1F, 0xA0 ||| (n &&& 0x1F) = 0xA0 + n := by decide +kernel
    refine writes_payload hvalue (writeTag_spec hinc) ?_
    rintro ds rfl
    refine encodes_bytes ?_
    rw [hor _ hfix, UInt8.toNat_ofNat', Nat.mod_eq_of_lt (by omega),
      MsgPackForm.ofTag_masked (by omega), if_neg (by omega), if_neg (by omega),
      if_neg (by omega), if_pos (by omega), Nat.add_sub_cancel_left]
    rfl
  · refine writes_payload hvalue (writeHeader_spec hinc) ?_
    rintro ds rfl
    exact encodes_sizedBytes (k := 1) rfl (by omega)
  · refine writes_payload hvalue (writeHeader_spec hinc) ?_
    rintro ds rfl
    exact encodes_sizedBytes (k := 2) rfl (by omega)
  · refine writes_payload hvalue (writeHeader_spec hinc) ?_
    rintro ds rfl
    exact encodes_sizedBytes (k := 4) rfl (by omega)

theorem vlMsgPackIOEncodeBinary_writes {value : Option (List UInt8)} {n : ℕ}
    (h : enc.buffer.WellFormed) (hlen : n < 2 ^ 32) (hvalue : ∀ cs ∈ value, n ≤ cs.length) :
    (vlMsgPackEncodeIncrement enc).WritesPayload
      (vlMsgPackIOEncodeBinary enc value n) value n .bin := by
  have hinc : (vlMsgPackEncodeIncrement enc).buffer.WellFormed := by rwa [buffer_increment]
  rw [vlMsgPackIOEncodeBinary]
  split_ifs
  · refine writes_payload hvalue (writeHeader_spec hinc) ?_
    rintro ds rfl
    exact encodes_sizedBytes (k := 1) rfl (by omega)
  · refine writes_payload hvalue (writeHeader_spec hinc) ?_
    rintro ds rfl
    exact encodes_sizedBytes (k := 2) rfl (by omega)
  · refine writes_payload hvalue (writeHeader_spec hinc) ?_
    rintro ds rfl
    exact encodes_sizedBytes (k := 4) rfl (by omega)

/-- **A call that writes an item** counts it in the open container and appends an encoding of it. -/
theorem vlMsgPackIOEncode_item {call : MsgPackCall} (h : enc.buffer.WellFormed)
    (hcall : call.item = some item) :
    (vlMsgPackEncodeIncrement enc).Writes (vlMsgPackIOEncode enc call) item := by
  have hinc : (vlMsgPackEncodeIncrement enc).buffer.WellFormed := by rwa [buffer_increment]
  cases call with
  | nil =>
    obtain rfl := Option.some_injective _ hcall
    exact writes_tag hinc (encodes_value rfl)
  | bool value =>
    obtain rfl := Option.some_injective _ hcall
    cases value with
    | false => exact writes_tag hinc (encodes_value rfl)
    | true => exact writes_tag hinc (encodes_value rfl)
  | int value =>
    obtain rfl := Option.some_injective _ hcall
    exact vlMsgPackIOEncodeInt_writes h
  | uint value =>
    obtain rfl := Option.some_injective _ hcall
    exact vlMsgPackIOEncodeUInt_writes h
  | float32 value =>
    obtain rfl := Option.some_injective _ hcall
    exact writes_header hinc (encodes_number (k := 4) rfl value.toNat_lt)
  | float64 value =>
    obtain rfl := Option.some_injective _ hcall
    exact writes_header hinc (encodes_number (k := 8) rfl value.toNat_lt)
  | string value =>
    rw [MsgPackCall.item] at hcall
    split_ifs at hcall with hlen
    obtain rfl := Option.some_injective _ hcall
    exact (vlMsgPackIOEncodeStringLen_writes h hlen (length_le_of_some le_rfl)).writes
  | binary value =>
    rw [MsgPackCall.item] at hcall
    split_ifs at hcall with hlen
    obtain rfl := Option.some_injective _ hcall
    exact (vlMsgPackIOEncodeBinary_writes h hlen (length_le_of_some le_rfl)).writes
  | arrayBegin => cases hcall
  | arrayEnd => cases hcall
  | mapBegin => cases hcall
  | mapEnd => cases hcall

end Calls

end VeritableLasagna
