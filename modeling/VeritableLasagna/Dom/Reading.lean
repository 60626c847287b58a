import VeritableLasagna.Dom.Codec
import VeritableLasagna.Dom.Isolated
import VeritableLasagna.Lib.Frames

/-!
# What the decoder reads into a document

`vlMsgPackIODecodeToDOM` works on the table of a document. What it does to the children of the parent can
be said without the table: `readValue` reads a value from a text and tells the tree it makes, or that it
fails. It gives up when an insertion does not fit (`DomPlace.Takes`): there is no room, a key is too long,
the hash does not keep the containers apart, or a tree with an empty leaf below its root is overwritten.
-/

namespace VeritableLasagna

/-! ### The insertions of the decoder -/

/-- The insertion that a token asks for. -/
def VlMsgPackDecoder.insertion (decoder : VlMsgPackDecoder) (curToken : VlMsgPackIOToken)
    (parent : ℕ) (key : List UInt8) : Except Fault DomInsert :=
  match curToken.type with
  | .nil => .ok ⟨.nil, vlMsgPackExtNone, parent, key, none, 0⟩
  | .bool => .ok ⟨.bool, vlMsgPackExtNone, parent, key, some [if curToken.boolean then 1 else 0], 1⟩
  | .int =>
    .ok ⟨.int, vlMsgPackExtNone, parent, key, some (natToLE 8 (curToken.integer % 2 ^ 64).toNat), 8⟩
  | .uint => .ok ⟨.uint, vlMsgPackExtNone, parent, key, some (natToLE 8 curToken.uinteger), 8⟩
  | .float32 => .ok ⟨.float32, vlMsgPackExtNone, parent, key, some (natToLE 4 curToken.float32), 4⟩
  | .float64 => .ok ⟨.float64, vlMsgPackExtNone, parent, key, some (natToLE 8 curToken.float64), 8⟩
  | .string => do
    let src ← decoder.payload curToken.ptr curToken.length
    return ⟨.string, vlMsgPackExtNone, parent, key, some src, curToken.length⟩
  | .binary => do
    let src ← decoder.payload curToken.ptr curToken.length
    return ⟨.binary, vlMsgPackExtNone, parent, key, some src, curToken.length⟩
  | .array => .ok ⟨.array, vlMsgPackExtNone, parent, key, some (natToLE 4 curToken.elements), 4⟩
  | .map => .ok ⟨.map, vlMsgPackExtNone, parent, key, none, 0⟩
  | .ext => do
    let src ← decoder.payload curToken.extPtr curToken.extLength
    return ⟨.ext, curToken.extType, parent, key, some src, curToken.extLength⟩

/-- The node an insertion makes. -/
def DomInsert.node (o : DomInsert) : DomNode :=
  ⟨o.key, o.type, o.extType, if o.type.IsLeaf then (o.data.getD []).take o.dataLen else []⟩

/-- What is below the new node: the slots of an array. -/
def DomInsert.below (o : DomInsert) : Forest DomNode :=
  if o.type = .array then slotsFrom (arrayLength o.data) 0 else .nil

/-- `vlMsgPackInsertExt`. -/
def DomInsert.apply (o : DomInsert) (pack : VlMsgPack) : Except Fault (ℕ × VlMsgPack) :=
  vlMsgPackInsertExt pack o.type o.extType o.parent o.key o.data o.dataLen

section Insertion

variable {decoder : VlMsgPackDecoder} {curToken : VlMsgPackIOToken} {parent : ℕ} {key : List UInt8}
  {dest : VlMsgPack} {o : DomInsert}

theorem vlMsgPackIODecodeTerminal_eq (harray : curToken.type ≠ .array) (hmap : curToken.type ≠ .map) :
    vlMsgPackIODecodeTerminal decoder curToken dest parent key =
      decoder.insertion curToken parent key >>= fun o => o.apply dest := by
  rw [vlMsgPackIODecodeTerminal, VlMsgPackDecoder.insertion]
  cases htype : curToken.type with
  | array => exact absurd htype harray
  | map => exact absurd htype hmap
  | string => cases decoder.payload curToken.ptr curToken.length <;> rfl
  | binary => cases decoder.payload curToken.ptr curToken.length <;> rfl
  | ext => cases decoder.payload curToken.extPtr curToken.extLength <;> rfl
  | _ => rfl

/-- The payload has as many bytes as its token says. -/
theorem VlMsgPackDecoder.length_payload {ptr length : ℕ} {src : List UInt8}
    (h : decoder.payload ptr length = .ok src) : src.length = length := by
  rw [payload] at h
  split_ifs at h with hzero
  · obtain rfl := Except.ok.inj h
    exact hzero.symm
  · obtain rfl := Except.ok.inj h
    exact ByteMem.length_slice

/-- **What the insertion of a token is**: it can be read, and a leaf has its bytes. -/
theorem VlMsgPackDecoder.insertion_spec (h : decoder.insertion curToken parent key = .ok o) :
    o.type = curToken.type ∧ o.parent = parent ∧ o.key = key ∧ DataFits o.type o.data o.dataLen ∧
      (o.type.IsLeaf → o.data ≠ none) := by
  have hbytes : ∀ {type : VlMsgPackType} {extType : ℤ} {data : List UInt8} {n : ℕ}, data.length = n →
      type ≠ .array → o = ⟨type, extType, parent, key, some data, n⟩ →
      o.type = type ∧ o.parent = parent ∧ o.key = key ∧ DataFits o.type o.data o.dataLen ∧
        (o.type.IsLeaf → o.data ≠ none) := by
    rintro type extType data n rfl htype rfl
    refine ⟨rfl, rfl, rfl, ⟨fun _ src hsrc => ?_, fun harray => absurd harray htype⟩,
      fun _ => Option.some_ne_none _⟩
    obtain rfl := Option.some_injective _ hsrc
    exact le_rfl
  have hbare : ∀ {type : VlMsgPackType}, ¬ type.IsLeaf → type ≠ .array →
      o = ⟨type, vlMsgPackExtNone, parent, key, none, 0⟩ →
      o.type = type ∧ o.parent = parent ∧ o.key = key ∧ DataFits o.type o.data o.dataLen ∧
        (o.type.IsLeaf → o.data ≠ none) := by
    rintro type hleaf htype rfl
    exact ⟨rfl, rfl, rfl, ⟨fun h => absurd h hleaf, fun harray => absurd harray htype⟩,
      fun h => absurd h hleaf⟩
  rw [insertion] at h
  cases htype : curToken.type <;> simp only [htype] at h
  case nil => exact hbare (by decide) (by decide) (Except.ok.inj h).symm
  case map => exact hbare (by decide) (by decide) (Except.ok.inj h).symm
  case bool => exact hbytes rfl (by decide) (Except.ok.inj h).symm
  case int => exact hbytes length_natToLE (by decide) (Except.ok.inj h).symm
  case uint => exact hbytes length_natToLE (by decide) (Except.ok.inj h).symm
  case float32 => exact hbytes length_natToLE (by decide) (Except.ok.inj h).symm
  case float64 => exact hbytes length_natToLE (by decide) (Except.ok.inj h).symm
  case array =>
    obtain rfl := Except.ok.inj h
    exact ⟨rfl, rfl, rfl, ⟨fun h => absurd rfl h.2.2, fun _ => Option.some_ne_none _⟩,
      fun _ => Option.some_ne_none _⟩
  all_goals
    obtain ⟨src, hsrc, h⟩ := exists_of_bind_eq_ok h
    exact hbytes (length_payload hsrc) (by decide) (Except.ok.inj h).symm

end Insertion

/-! ### Children -/

namespace Forest

/-- The children with a tree under the key of its root: in the place of the one with that key, or behind
the others. -/
def place (ks : Forest DomNode) (a : DomNode) (kids : Forest DomNode) : Forest DomNode :=
  ks.setChild (fun b => b.key = a.key) (fun _ => a) a kids

/-- What is below the child with a key. -/
def under (key : List UInt8) : Forest DomNode → Forest DomNode
  | nil => nil
  | cons a kids rest => if a.key = key then kids else rest.under key

end Forest

/-- Where a value is read to: the hash of the parent, whether it is an array, and the number of nodes of
the document that are not below it. -/
structure DomPlace where
  hash : UInt64
  isArray : Bool
  outside : ℕ

/-- **The insertion fits**: its key fits its size, an array has a slot for it, the key of a container is
among those that the hash tells apart, no empty leaf is below the child that is overwritten, and there is
room. -/
def DomPlace.Takes (used : List (List UInt8)) (p : DomPlace) (ks : Forest DomNode) (o : DomInsert) :
    Prop :=
  o.key.length + 8 < 2 ^ 16 ∧ (p.isArray = true → o.key ∈ ks.roots.map DomNode.key) ∧
    (o.type.IsContainer → hierarchicalKey p.hash o.key ∈ used) ∧ (ks.under o.key).hollow = false ∧
    p.outside + (ks.place o.node o.below).labels.length ≤ VlNodeTable.limit

instance {used : List (List UInt8)} {p : DomPlace} {ks : Forest DomNode} {o : DomInsert} :
    Decidable (p.Takes used ks o) :=
  inferInstanceAs (Decidable (_ ∧ _ ∧ _ ∧ _ ∧ _))

/-- The place below the node of an insertion. -/
def DomPlace.below (p : DomPlace) (ks : Forest DomNode) (o : DomInsert) : DomPlace :=
  ⟨o.node.hash p.hash, decide (o.type = .array), p.outside + (ks.place o.node .nil).labels.length⟩

/-! ### Reading -/

/-- Something is read, or it fails; either way the decoder has moved. -/
inductive DomRead (α : Type)
  | done (read : α) (decoder : VlMsgPackDecoder)
  | failed (decoder : VlMsgPackDecoder)

/-- What is read, if it is. -/
def DomRead.value {α : Type} : DomRead α → Option α
  | done read _ => some read
  | failed _ => none

/-- What is made of what is read. -/
def DomRead.map {α β : Type} (φ : α → β) : DomRead α → DomRead β
  | done read decoder => done (φ read) decoder
  | failed decoder => failed decoder

/-- Reads a value under a key among the given children. -/
abbrev DomReader :=
  Forest DomNode → VlMsgPackDecoder → List UInt8 → Option (DomRead (DomNode × Forest DomNode))

/-- The elements of an array, from an index on. -/
def readElements (read : DomReader) :
    ℕ → ℕ → Forest DomNode → VlMsgPackDecoder → Option (DomRead (Forest DomNode))
  | 0, _, ks, decoder => some (.done ks decoder)
  | left + 1, curIndex, ks, decoder => do
    match ← read ks decoder (natToLE 4 curIndex) with
    | .done tree decoder => readElements read left (curIndex + 1) (ks.place tree.1 tree.2) decoder
    | .failed decoder => some (.failed decoder)

/-- The pairs of a map. -/
def readPairs (stack : ℕ → VlMsgPackIOToken) (read : DomReader) :
    ℕ → Forest DomNode → VlMsgPackDecoder → Option (DomRead (Forest DomNode))
  | 0, ks, decoder => some (.done ks decoder)
  | left + 1, ks, decoder => do
    let (more, decoder, keyToken) ← (vlMsgPackIODecoderNext decoder (stack decoder.srcOffset)).toOption
    if more = false then
      some (.failed { decoder with error := .unexpectedEof, errorOffset := decoder.srcOffset })
    else if keyToken.type ≠ .string then
      some (.failed { decoder with error := .unexpectedToken, errorOffset := decoder.srcOffset })
    else do
      let key ← (decoder.payload keyToken.ptr keyToken.length).toOption
      match ← read ks decoder key with
      | .done tree decoder => readPairs stack read left (ks.place tree.1 tree.2) decoder
      | .failed decoder => some (.failed decoder)

/-- **A value**, in so many rounds. -/
def readValue (used : List (List UInt8)) (stack : ℕ → VlMsgPackIOToken) : ℕ → DomPlace → DomReader
  | 0, _, _, _, _ => none
  | rounds + 1, p, ks, decoder, key => do
    let (more, decoder, curToken) ← (vlMsgPackIODecoderNext decoder (stack decoder.srcOffset)).toOption
    if more = false then some (.failed decoder)
    else do
      let o ← (decoder.insertion curToken 0 key).toOption
      if ¬ Accepted o.type o.extType then some (.failed decoder)
      else if ¬ p.Takes used ks o then none
      else if o.type = .array then
        (readElements (readValue used stack rounds (p.below ks o)) curToken.elements 0 o.below decoder).map
          (DomRead.map fun kids => (o.node, kids))
      else if o.type = .map then
        (readPairs stack (readValue used stack rounds (p.below ks o)) curToken.keyValuePairs o.below
          decoder).map (DomRead.map fun kids => (o.node, kids))
      else some (.done (o.node, .nil) decoder)

end VeritableLasagna
