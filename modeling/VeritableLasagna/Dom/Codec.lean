import VeritableLasagna.Dom.Basic
import VeritableLasagna.MsgPack.Encoder

/-!
# The document object model and the MessagePack text

`vlMsgPackIODecodeToDOM` reads one value and inserts it under a key; a container is inserted before
its content, and removed again when the content cannot be read. `vlMsgPackIOEncodeFromDOM` writes the
value of a node. Both recurse into containers. A call of the first reads at least one byte before it
recurses, so it gets as many rounds as there are bytes, and one more; the second gets the rounds of
the tree.

What is read before it is set is a parameter: `stack` is what a token holds at first, and `size` what
the variable for the size of a value does.
-/

namespace VeritableLasagna

/-! ### Decoding -/

/-- What `vlMsgPackIODecodeToDOM` leaves behind: the iterator it returns, the decoder, and the
document. -/
abbrev VlDecodeToDOMResult := ℕ × VlMsgPackDecoder × VlMsgPack

/-- The bytes of the source that a token points to. -/
def VlMsgPackDecoder.payload (decoder : VlMsgPackDecoder) (ptr length : ℕ) :
    Except Fault (List UInt8) :=
  if length = 0 then .ok []
  else if ptr + length ≤ decoder.srcLen then .ok (decoder.srcMem.slice ptr length)
  else .error .outOfBounds

/-- The terminals of the switch of `vlMsgPackIODecodeToDOM`. -/
def vlMsgPackIODecodeTerminal (decoder : VlMsgPackDecoder) (curToken : VlMsgPackIOToken)
    (dest : VlMsgPack) (parent : ℕ) (key : List UInt8) : Except Fault (ℕ × VlMsgPack) :=
  match curToken.type with
  | .nil => vlMsgPackInsert dest .nil parent key none 0
  | .bool => vlMsgPackInsert dest .bool parent key (some [if curToken.boolean then 1 else 0]) 1
  | .int =>
    vlMsgPackInsert dest .int parent key (some (natToLE 8 (curToken.integer % 2 ^ 64).toNat)) 8
  | .uint => vlMsgPackInsert dest .uint parent key (some (natToLE 8 curToken.uinteger)) 8
  | .float32 => vlMsgPackInsert dest .float32 parent key (some (natToLE 4 curToken.float32)) 4
  | .float64 => vlMsgPackInsert dest .float64 parent key (some (natToLE 8 curToken.float64)) 8
  | .string => do
    let src ← decoder.payload curToken.ptr curToken.length
    vlMsgPackInsert dest .string parent key (some src) curToken.length
  | .binary => do
    let src ← decoder.payload curToken.ptr curToken.length
    vlMsgPackInsert dest .binary parent key (some src) curToken.length
  | .ext => do
    let src ← decoder.payload curToken.extPtr curToken.extLength
    vlMsgPackInsertExt dest .ext curToken.extType parent key (some src) curToken.extLength
  | .array | .map => .ok (0, dest)

/-- The loop over the elements of an array. A failure collapses the array. -/
def vlMsgPackIODecodeElements
    (decodeToDOM : VlMsgPackDecoder → VlMsgPack → ℕ → List UInt8 → Except Fault VlDecodeToDOMResult)
    (childIter : ℕ) : ℕ → ℕ → VlMsgPackDecoder → VlMsgPack → Except Fault VlDecodeToDOMResult
  | 0, _, decoder, dest => .ok (childIter, decoder, dest)
  | left + 1, curIndex, decoder, dest => do
    let (iter, decoder, dest) ← decodeToDOM decoder dest childIter (natToLE 4 curIndex)
    if iter = 0 then do
      let dest ← vlMsgPackRemove dest childIter
      return (0, decoder, dest)
    else vlMsgPackIODecodeElements decodeToDOM childIter left (curIndex + 1) decoder dest

/-- The loop over the pairs of a map: the key, then the value. A failure collapses the map. -/
def vlMsgPackIODecodePairs (stack : ℕ → VlMsgPackIOToken)
    (decodeToDOM : VlMsgPackDecoder → VlMsgPack → ℕ → List UInt8 → Except Fault VlDecodeToDOMResult)
    (childIter : ℕ) : ℕ → VlMsgPackDecoder → VlMsgPack → Except Fault VlDecodeToDOMResult
  | 0, decoder, dest => .ok (childIter, decoder, dest)
  | left + 1, decoder, dest => do
    let (more, decoder, keyToken) ← vlMsgPackIODecoderNext decoder (stack decoder.srcOffset)
    if more = false then do
      let decoder := { decoder with error := .unexpectedEof, errorOffset := decoder.srcOffset }
      let dest ← vlMsgPackRemove dest childIter
      return (0, decoder, dest)
    else if keyToken.type ≠ .string then do
      let dest ← vlMsgPackRemove dest childIter
      let decoder := { decoder with error := .unexpectedToken, errorOffset := decoder.srcOffset }
      return (0, decoder, dest)
    else do
      let key ← decoder.payload keyToken.ptr keyToken.length
      let (iter, decoder, dest) ← decodeToDOM decoder dest childIter key
      if iter = 0 then do
        let dest ← vlMsgPackRemove dest childIter
        return (0, decoder, dest)
      else vlMsgPackIODecodePairs stack decodeToDOM childIter left decoder dest

/-- `vlMsgPackIODecodeToDOM`, in so many rounds. -/
def vlMsgPackIODecodeRounds (stack : ℕ → VlMsgPackIOToken) :
    ℕ → VlMsgPackDecoder → VlMsgPack → ℕ → List UInt8 → Except Fault VlDecodeToDOMResult
  | 0, _, _, _, _ => .error .noReturn
  | rounds + 1, decoder, dest, parent, key => do
    let parentType ← vlMsgPackType dest parent
    if parentType ≠ .array ∧ parentType ≠ .map then return (0, decoder, dest)
    else do
      let (more, decoder, curToken) ← vlMsgPackIODecoderNext decoder (stack decoder.srcOffset)
      if more = false then return (0, decoder, dest)
      else match curToken.type with
        | .array => do
          let (childIter, dest) ←
            vlMsgPackInsert dest .array parent key (some (natToLE 4 curToken.elements)) 4
          vlMsgPackIODecodeElements (vlMsgPackIODecodeRounds stack rounds) childIter
            curToken.elements 0 decoder dest
        | .map => do
          let (childIter, dest) ← vlMsgPackInsert dest .map parent key none 0
          vlMsgPackIODecodePairs stack (vlMsgPackIODecodeRounds stack rounds) childIter
            curToken.keyValuePairs decoder dest
        | _ => do
          let (childIter, dest) ← vlMsgPackIODecodeTerminal decoder curToken dest parent key
          return (childIter, decoder, dest)

/-- `vlMsgPackIODecodeToDOM`. -/
def vlMsgPackIODecodeToDOM (stack : ℕ → VlMsgPackIOToken) (decoder : VlMsgPackDecoder)
    (dest : VlMsgPack) (parent : ℕ) (key : List UInt8) : Except Fault VlDecodeToDOMResult :=
  vlMsgPackIODecodeRounds stack (decoder.srcLen - decoder.srcOffset + 1) decoder dest parent key

/-! ### Values -/

section Get

variable (pack : VlMsgPack) (iter : ℕ)

/-- The first `n` bytes of the value of a node of the type, as a number, or the default for an
invalid node or a node of another type. The family `vlMsgPackGet*`. -/
def vlMsgPackGet (type : VlMsgPackType) (n default : ℕ) : Except Fault ℕ :=
  if iter = 0 then .ok default
  else do
    let iterType ← vlMsgPackType pack iter
    if iterType ≠ type then return default
    else do
      let value ← vlMsgPackSampleValue pack iter
      let bs ← deref value
      if n ≤ bs.length then return natOfLE (bs.take n) else .error .outOfBounds

/-- `vlMsgPackGetBool`. -/
def vlMsgPackGetBool (defaultValue : Bool) : Except Fault Bool := do
  let value ← vlMsgPackGet pack iter .bool 1 defaultValue.toNat
  return value ≠ 0

/-- `vlMsgPackGetInt`. -/
def vlMsgPackGetInt (defaultValue : Int64) : Except Fault Int64 := do
  let value ← vlMsgPackGet pack iter .int 8 defaultValue.toUInt64.toNat
  return Int64.ofInt value

/-- `vlMsgPackGetUInt`. -/
def vlMsgPackGetUInt (defaultValue : UInt64) : Except Fault UInt64 := do
  let value ← vlMsgPackGet pack iter .uint 8 defaultValue.toNat
  return UInt64.ofNat value

/-- `vlMsgPackGetFloat32`, a bit pattern. -/
def vlMsgPackGetFloat32 (defaultValue : UInt32) : Except Fault UInt32 := do
  let value ← vlMsgPackGet pack iter .float32 4 defaultValue.toNat
  return UInt32.ofNat value

/-- `vlMsgPackGetFloat64`, a bit pattern. -/
def vlMsgPackGetFloat64 (defaultValue : UInt64) : Except Fault UInt64 := do
  let value ← vlMsgPackGet pack iter .float64 8 defaultValue.toNat
  return UInt64.ofNat value

/-- The value of a node and its size, which is left alone when there is no value. -/
def vlMsgPackSizedValue (size : ℕ → ℕ) : Except Fault (Option (List UInt8) × ℕ) := do
  let value ← vlMsgPackSampleValue pack iter
  return (value, match value with
    | some bs => bs.length
    | none => size iter)

end Get

/-! ### Encoding -/

/-- The loops of `vlMsgPackIOEncodeFromDOM` over the children of a container. Those of a map are
written behind their keys. -/
def vlMsgPackIOEncodeChildren
    (encodeFromDOM : VlMsgPackEncoder → ℕ → Except Fault VlMsgPackEncoder) (src : VlMsgPack)
    (isMap : Bool) : ℕ → ℕ → VlMsgPackEncoder → Except Fault VlMsgPackEncoder
  | 0, _, _ => .error .noReturn
  | rounds + 1, childIter, enc =>
    if childIter = 0 then .ok enc
    else do
      let enc ← (if isMap then do
          let keyStr ← vlMsgPackSampleKey src childIter
          vlMsgPackIOEncodeStringLen enc (some keyStr) (keyStr.length % 2 ^ 32)
        else .ok enc)
      let enc ← encodeFromDOM enc childIter
      let nextIter ← vlMsgPackNextSibling src childIter
      vlMsgPackIOEncodeChildren encodeFromDOM src isMap rounds nextIter enc

/-- `vlMsgPackIOEncodeFromDOM`, in so many rounds. -/
def vlMsgPackIOEncodeRounds (size : ℕ → ℕ) (src : VlMsgPack) :
    ℕ → VlMsgPackEncoder → ℕ → Except Fault VlMsgPackEncoder
  | 0, _, _ => .error .noReturn
  | rounds + 1, enc, curIter => do
    let curType ← vlMsgPackType src curIter
    match curType with
    | .array => do
      let enc ← vlMsgPackIOEncodeArrayBegin enc
      let childIter ← vlMsgPackFirstChild src curIter
      let enc ← vlMsgPackIOEncodeChildren (vlMsgPackIOEncodeRounds size src rounds) src false
        src.rounds childIter enc
      vlMsgPackIOEncodeArrayEnd enc
    | .map => do
      let enc ← vlMsgPackIOEncodeMapBegin enc
      let childIter ← vlMsgPackFirstChild src curIter
      let enc ← vlMsgPackIOEncodeChildren (vlMsgPackIOEncodeRounds size src rounds) src true
        src.rounds childIter enc
      vlMsgPackIOEncodeMapEnd enc
    | .nil => vlMsgPackIOEncodeNil enc
    | .bool => do
      let value ← vlMsgPackGetBool src curIter false
      vlMsgPackIOEncodeBool enc value
    | .int => do
      let value ← vlMsgPackGetInt src curIter 0
      vlMsgPackIOEncodeInt enc value
    | .uint => do
      let value ← vlMsgPackGetUInt src curIter 0
      vlMsgPackIOEncodeUInt enc value
    | .float32 => do
      let value ← vlMsgPackGetFloat32 src curIter 0
      vlMsgPackIOEncodeFloat32 enc value
    | .float64 => do
      let value ← vlMsgPackGetFloat64 src curIter 0
      vlMsgPackIOEncodeFloat64 enc value
    | .string => do
      let (strValue, strSize) ← vlMsgPackSizedValue src curIter size
      vlMsgPackIOEncodeStringLen enc strValue (strSize % 2 ^ 32)
    | .binary => do
      let (binValue, binSize) ← vlMsgPackSizedValue src curIter size
      vlMsgPackIOEncodeBinary enc binValue (binSize % 2 ^ 32)
    | .ext => do
      let extType ← vlMsgPackExtType src curIter
      let (extValue, extSize) ← vlMsgPackSizedValue src curIter size
      vlMsgPackIOEncodeExt enc (Int8.ofInt extType) extValue (extSize % 2 ^ 32)

/-- `vlMsgPackIOEncodeFromDOM`. -/
def vlMsgPackIOEncodeFromDOM (size : ℕ → ℕ) (enc : VlMsgPackEncoder) (src : VlMsgPack)
    (curIter : ℕ) : Except Fault VlMsgPackEncoder :=
  vlMsgPackIOEncodeRounds size src src.rounds enc curIter

end VeritableLasagna
