import VeritableLasagna.Lib.Machine
import VeritableLasagna.MsgPack.Format

/-!
# The MessagePack decoder

`vlMsgPackIODecoderNext` reads one token from the source of the decoder. It is a switch over the
first byte; what its cases share (the end-of-file check, reading a number, a payload, an extension)
is a definition of its own here, and every case is that definition at the values of the case.

Pointers into the source are offsets, a floating-point number is its bit pattern, and the machine is
little-endian, so `_VL_FLIP_ENDIAN` of the bytes read is the number with the most significant byte
first.
-/

namespace VeritableLasagna

/-- `vl_msgpack_type`. -/
inductive VlMsgPackType
  | nil
  | bool
  | int
  | uint
  | float32
  | float64
  | string
  | binary
  | array
  | map
  | ext
  deriving DecidableEq, Repr, Inhabited

/-- `vl_msgpack_io_error`. -/
inductive VlMsgPackIOError
  | none
  | stackUnderflow
  | unexpectedToken
  | unbalancedMap
  | unexpectedEof
  deriving DecidableEq, Repr

/-! ### `vl_msgpack_io_type`

The tags with an exact value; the masked ones are ranges, and appear in the default case. -/

namespace VlMsgPackIO

@[match_pattern] abbrev nil : ℕ := 0xC0
@[match_pattern] abbrev false : ℕ := 0xC2
@[match_pattern] abbrev true : ℕ := 0xC3
@[match_pattern] abbrev bin8 : ℕ := 0xC4
@[match_pattern] abbrev bin16 : ℕ := 0xC5
@[match_pattern] abbrev bin32 : ℕ := 0xC6
@[match_pattern] abbrev ext8 : ℕ := 0xC7
@[match_pattern] abbrev ext16 : ℕ := 0xC8
@[match_pattern] abbrev ext32 : ℕ := 0xC9
@[match_pattern] abbrev float32 : ℕ := 0xCA
@[match_pattern] abbrev float64 : ℕ := 0xCB
@[match_pattern] abbrev uint8 : ℕ := 0xCC
@[match_pattern] abbrev uint16 : ℕ := 0xCD
@[match_pattern] abbrev uint32 : ℕ := 0xCE
@[match_pattern] abbrev uint64 : ℕ := 0xCF
@[match_pattern] abbrev int8 : ℕ := 0xD0
@[match_pattern] abbrev int16 : ℕ := 0xD1
@[match_pattern] abbrev int32 : ℕ := 0xD2
@[match_pattern] abbrev int64 : ℕ := 0xD3
@[match_pattern] abbrev fixext1 : ℕ := 0xD4
@[match_pattern] abbrev fixext2 : ℕ := 0xD5
@[match_pattern] abbrev fixext4 : ℕ := 0xD6
@[match_pattern] abbrev fixext8 : ℕ := 0xD7
@[match_pattern] abbrev fixext16 : ℕ := 0xD8
@[match_pattern] abbrev str8 : ℕ := 0xD9
@[match_pattern] abbrev str16 : ℕ := 0xDA
@[match_pattern] abbrev str32 : ℕ := 0xDB
@[match_pattern] abbrev array16 : ℕ := 0xDC
@[match_pattern] abbrev array32 : ℕ := 0xDD
@[match_pattern] abbrev map16 : ℕ := 0xDE
@[match_pattern] abbrev map32 : ℕ := 0xDF

end VlMsgPackIO

/-- `vl_msgpack_io_token`. The members of the union are kept apart, but for `string` and `binary`,
which have one layout and share `ptr` and `length`. Only the members of `type` mean anything. -/
structure VlMsgPackIOToken where
  type : VlMsgPackType
  elements : ℕ
  keyValuePairs : ℕ
  integer : ℤ
  uinteger : ℕ
  float32 : ℕ
  float64 : ℕ
  boolean : Bool
  ptr : ℕ
  length : ℕ
  extType : ℤ
  extPtr : ℕ
  extLength : ℕ
  deriving Inhabited

/-- `vl_msgpack_decoder`, over an object of the program: none has `2 ^ 63` bytes or more. -/
structure VlMsgPackDecoder where
  srcMem : ByteMem
  srcLen : ℕ
  srcOffset : ℕ
  error : VlMsgPackIOError
  errorType : VlMsgPackType
  errorOffset : ℕ
  srcLen_lt : srcLen < 2 ^ 63

/-- `vlMsgPackIODecoderStart`. -/
def vlMsgPackIODecoderStart (srcMem : ByteMem) (srcLen : ℕ) (h : srcLen < 2 ^ 63) :
    VlMsgPackDecoder :=
  ⟨srcMem, srcLen, 0, .none, .nil, 0, h⟩

/-- What a call returns: the boolean, the decoder and the token. -/
abbrev VlDecodeResult := Bool × VlMsgPackDecoder × VlMsgPackIOToken

namespace VlMsgPackDecoder

/-- Move the read offset. -/
def advance (dec : VlMsgPackDecoder) (n : ℕ) : VlMsgPackDecoder :=
  { dec with srcOffset := dec.srcOffset + n }

/-- Copy `n` bytes from the read offset on, and move past them. -/
def read (dec : VlMsgPackDecoder) (n : ℕ) : Except Fault (List UInt8 × VlMsgPackDecoder) :=
  if dec.srcOffset + n ≤ dec.srcLen then
    .ok (dec.srcMem.slice dec.srcOffset n, dec.advance n)
  else .error .outOfBounds

/-- An unexpected end of file, and `VL_FALSE`. -/
def eof (dec : VlMsgPackDecoder) (tkPtr : VlMsgPackIOToken) : VlDecodeResult :=
  (false, { dec with error := .unexpectedEof, errorOffset := dec.srcOffset,
                     errorType := tkPtr.type }, tkPtr)

end VlMsgPackDecoder

section Decode

variable (dec : VlMsgPackDecoder) (tkPtr : VlMsgPackIOToken)

/-- `_VL_DECODE_EOFCHECK`: return, or go on. The signed `size` is converted to the unsigned type of
the offset before it is added. -/
def vlDecodeEofCheck (size : ℤ) (next : Except Fault VlDecodeResult) : Except Fault VlDecodeResult :=
  if ((dec.srcOffset + size) % 2 ^ 64).toNat > dec.srcLen then .ok (dec.eof tkPtr) else next

/-- Check for `n` bytes, read them, and flip them into a number. -/
def vlDecodeNumber (n : ℕ) (next : ℕ → VlMsgPackDecoder → Except Fault VlDecodeResult) :
    Except Fault VlDecodeResult :=
  vlDecodeEofCheck dec tkPtr n do
    let (bs, dec) ← dec.read n
    next (natOfBE bs) dec

/-- Check for the payload of a string or a binary, and point the token at it. -/
def vlDecodePayload (length : ℕ) : Except Fault VlDecodeResult :=
  vlDecodeEofCheck dec tkPtr length
    (.ok (true, dec.advance length, { tkPtr with length := length, ptr := dec.srcOffset }))

/-- A string or binary with a length of one byte, which the token receives before the check. -/
def vlDecodeBytes8 (type : VlMsgPackType) : Except Fault VlDecodeResult :=
  vlDecodeNumber dec { tkPtr with type := type } 1 fun length dec =>
    vlDecodePayload dec { tkPtr with type := type, length := length } length

/-- A string or binary with a length of `n` bytes. -/
def vlDecodeBytes (type : VlMsgPackType) (n : ℕ) : Except Fault VlDecodeResult :=
  vlDecodeNumber dec { tkPtr with type := type } n fun length dec =>
    vlDecodePayload dec { tkPtr with type := type } length

/-- Check for `size` bytes, read the type of the extension, and point the token at its payload. -/
def vlDecodeExt (size : ℤ) (length : ℕ) : Except Fault VlDecodeResult :=
  vlDecodeEofCheck dec tkPtr size do
    let (bs, dec) ← dec.read 1
    return (true, dec.advance length,
      { tkPtr with extType := Int.bmod (natOfBE bs) (2 ^ 8), extPtr := dec.srcOffset,
                   extLength := length })

/-- The cases that store the number they read in one member of the token. -/
def vlDecodeValue (n : ℕ) (set : ℕ → VlMsgPackIOToken) : Except Fault VlDecodeResult :=
  vlDecodeNumber dec tkPtr n fun value dec => .ok (true, dec, set value)

/-- `case VL_MSGPACK_IO_EXT8`. -/
def vlDecodeExt8 : Except Fault VlDecodeResult :=
  vlDecodeNumber dec { tkPtr with type := .ext } 1 fun length dec =>
    vlDecodeExt dec { tkPtr with type := .ext, extLength := length } (length + 1 : ℕ) length

/-- `case VL_MSGPACK_IO_EXT16`. The length is read into a signed variable; the sum `extLen + 1` is
an `int`, and `ext.length` unsigned of 32 bits. -/
def vlDecodeExt16 : Except Fault VlDecodeResult :=
  vlDecodeNumber dec { tkPtr with type := .ext } 2 fun n dec =>
    let extLen := Int.bmod n (2 ^ 16)
    vlDecodeExt dec { tkPtr with type := .ext } (extLen + 1) (extLen % 2 ^ 32).toNat

/-- `case VL_MSGPACK_IO_EXT32`. Here the sum `extLen + 1` may leave the type `int`. -/
def vlDecodeExt32 : Except Fault VlDecodeResult :=
  vlDecodeNumber dec { tkPtr with type := .ext } 4 fun n dec =>
    let extLen := Int.bmod n (2 ^ 32)
    if extLen + 1 < 2 ^ 31 then
      vlDecodeExt dec { tkPtr with type := .ext } (extLen + 1) (extLen % 2 ^ 32).toNat
    else .error .signedOverflow

/-- The cases `VL_MSGPACK_IO_FIXEXT1` to `VL_MSGPACK_IO_FIXEXT16`. -/
def vlDecodeFixExt (typeTag : ℕ) : Except Fault VlDecodeResult :=
  let length := 1 <<< (typeTag - VlMsgPackIO.fixext1)
  vlDecodeExt dec { tkPtr with type := .ext, extLength := length } (length + 1 : ℕ) length

/-- The default case: the types whose value or length is in the tag. A tag that none of the ranges
contains leaves the token alone. -/
def vlDecodeDefault (typeTag : ℕ) : Except Fault VlDecodeResult :=
  if typeTag ≤ 0x7F then .ok (true, dec, { tkPtr with type := .int, integer := typeTag % 0x80 })
  else if typeTag ≥ 0xE0 then
    .ok (true, dec, { tkPtr with type := .int, integer := Int.bmod typeTag (2 ^ 8) })
  else if typeTag ≥ 0x80 ∧ typeTag ≤ 0x8F then
    .ok (true, dec, { tkPtr with type := .map, keyValuePairs := typeTag % 0x10 })
  else if typeTag ≥ 0x90 ∧ typeTag ≤ 0x9F then
    .ok (true, dec, { tkPtr with type := .array, elements := typeTag % 0x10 })
  else if typeTag ≥ 0xA0 ∧ typeTag ≤ 0xBF then
    let length := typeTag % 0x20
    vlDecodePayload dec { tkPtr with type := .string, length := length } length
  else .ok (true, dec, tkPtr)

/-- The switch of `vlMsgPackIODecoderNext`. -/
def vlDecodeTag (typeTag : ℕ) : Except Fault VlDecodeResult :=
  match typeTag with
  | VlMsgPackIO.nil => .ok (true, dec, { tkPtr with type := .nil })
  | VlMsgPackIO.true | VlMsgPackIO.false =>
    .ok (true, dec, { tkPtr with type := .bool, boolean := typeTag = VlMsgPackIO.true })
  | VlMsgPackIO.bin8 => vlDecodeBytes8 dec tkPtr .binary
  | VlMsgPackIO.bin16 => vlDecodeBytes dec tkPtr .binary 2
  | VlMsgPackIO.bin32 => vlDecodeBytes dec tkPtr .binary 4
  | VlMsgPackIO.ext8 => vlDecodeExt8 dec tkPtr
  | VlMsgPackIO.ext16 => vlDecodeExt16 dec tkPtr
  | VlMsgPackIO.ext32 => vlDecodeExt32 dec tkPtr
  | VlMsgPackIO.float32 =>
    let tkPtr := { tkPtr with type := .float32 }
    vlDecodeValue dec tkPtr 4 fun value => { tkPtr with float32 := value }
  | VlMsgPackIO.float64 =>
    let tkPtr := { tkPtr with type := .float64 }
    vlDecodeValue dec tkPtr 8 fun value => { tkPtr with float64 := value }
  | VlMsgPackIO.uint8 =>
    let tkPtr := { tkPtr with type := .uint }
    vlDecodeValue dec tkPtr 1 fun value => { tkPtr with uinteger := value }
  | VlMsgPackIO.uint16 =>
    let tkPtr := { tkPtr with type := .uint }
    vlDecodeValue dec tkPtr 2 fun value => { tkPtr with uinteger := value }
  | VlMsgPackIO.uint32 =>
    let tkPtr := { tkPtr with type := .uint }
    vlDecodeValue dec tkPtr 4 fun value => { tkPtr with uinteger := value }
  | VlMsgPackIO.uint64 =>
    let tkPtr := { tkPtr with type := .uint }
    vlDecodeValue dec tkPtr 8 fun value => { tkPtr with uinteger := value }
  | VlMsgPackIO.int8 =>
    let tkPtr := { tkPtr with type := .int }
    vlDecodeValue dec tkPtr 1 fun value => { tkPtr with integer := Int.bmod value (2 ^ 8) }
  | VlMsgPackIO.int16 =>
    let tkPtr := { tkPtr with type := .int }
    vlDecodeValue dec tkPtr 2 fun value => { tkPtr with integer := Int.bmod value (2 ^ 16) }
  | VlMsgPackIO.int32 =>
    let tkPtr := { tkPtr with type := .int }
    vlDecodeValue dec tkPtr 4 fun value => { tkPtr with integer := Int.bmod value (2 ^ 32) }
  | VlMsgPackIO.int64 =>
    let tkPtr := { tkPtr with type := .int }
    vlDecodeValue dec tkPtr 8 fun value => { tkPtr with integer := Int.bmod value (2 ^ 64) }
  | VlMsgPackIO.fixext1 | VlMsgPackIO.fixext2 | VlMsgPackIO.fixext4 | VlMsgPackIO.fixext8
  | VlMsgPackIO.fixext16 => vlDecodeFixExt dec tkPtr typeTag
  | VlMsgPackIO.str8 => vlDecodeBytes8 dec tkPtr .string
  | VlMsgPackIO.str16 => vlDecodeBytes dec tkPtr .string 2
  | VlMsgPackIO.str32 => vlDecodeBytes dec tkPtr .string 4
  | VlMsgPackIO.array16 =>
    let tkPtr := { tkPtr with type := .array }
    vlDecodeValue dec tkPtr 2 fun value => { tkPtr with elements := value }
  | VlMsgPackIO.array32 =>
    let tkPtr := { tkPtr with type := .array }
    vlDecodeValue dec tkPtr 4 fun value => { tkPtr with elements := value }
  | VlMsgPackIO.map16 =>
    let tkPtr := { tkPtr with type := .map }
    vlDecodeValue dec tkPtr 2 fun value => { tkPtr with keyValuePairs := value }
  | VlMsgPackIO.map32 =>
    let tkPtr := { tkPtr with type := .map }
    vlDecodeValue dec tkPtr 4 fun value => { tkPtr with keyValuePairs := value }
  | _ => vlDecodeDefault dec tkPtr typeTag

/-- `vlMsgPackIODecoderNext`. At a well-formed end of file it returns without an error. -/
def vlMsgPackIODecoderNext : Except Fault VlDecodeResult :=
  if (dec.srcOffset + 1) % 2 ^ 64 > dec.srcLen then .ok (false, dec, tkPtr)
  else do
    let (bs, dec) ← dec.read 1
    vlDecodeTag dec tkPtr (natOfBE bs)

end Decode

end VeritableLasagna
