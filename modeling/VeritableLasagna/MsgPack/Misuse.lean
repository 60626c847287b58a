import VeritableLasagna.MsgPack.RoundTrip

/-!
# Calls in any order

An encoder may be called in any order: containers are closed that were never opened, a map is closed
as an array, a key is left without its value. What has been written is cut into **segments** by the
open containers, each a sequence of complete values behind the room for a header (`Nested`). A
container that is closed may count fewer values than its segment holds (a key without a value, a
count that has wrapped around), never more; the values left over stand behind it. So the text is a
sequence of complete values whenever no container is open.
-/

namespace VeritableLasagna

open VlMsgPackEncoder

/-! ### Complete values -/

/-- The number of values that belong to the header of a container. -/
def MsgPackItem.arity : MsgPackItem → ℕ
  | .array n => n
  | .map n => 2 * n
  | _ => 0

/-- The bytes are `n` complete values, one behind the other. -/
inductive MsgPackValues : ℕ → List UInt8 → Prop
  | nil : MsgPackValues 0 []
  | cons {hd content bs : List UInt8} {item : MsgPackItem} {n : ℕ} :
      MsgPackItem.Encodes hd item → MsgPackValues item.arity content → MsgPackValues n bs →
      MsgPackValues (n + 1) (hd ++ content ++ bs)

namespace MsgPackValues

variable {bs cs hd : List UInt8} {item : MsgPackItem} {n k : ℕ}

theorem append (h : MsgPackValues n bs) (h' : MsgPackValues k cs) :
    MsgPackValues (n + k) (bs ++ cs) := by
  induction h with
  | nil => rwa [Nat.zero_add]
  | @cons hd content bs item n henc hcontent _ _ ih =>
    rw [List.append_assoc, Nat.succ_add]
    exact .cons henc hcontent ih

/-- Values can be told apart at any number of them. -/
theorem split (h : MsgPackValues (n + k) bs) :
    ∃ cs ds, bs = cs ++ ds ∧ MsgPackValues n cs ∧ MsgPackValues k ds := by
  induction n generalizing bs with
  | zero =>
    rw [Nat.zero_add] at h
    exact ⟨[], bs, rfl, .nil, h⟩
  | succ n ih =>
    rw [Nat.succ_add] at h
    obtain _ | ⟨henc, hcontent, hrest⟩ := h
    obtain ⟨cs, ds, rfl, hcs, hds⟩ := ih hrest
    exact ⟨_, ds, (List.append_assoc ..).symm, .cons henc hcontent hcs, hds⟩

/-- An item that no value belongs to is a value. -/
theorem of_encodes (h : MsgPackItem.Encodes bs item) (harity : item.arity = 0) :
    MsgPackValues 1 bs := by
  have hcontent : MsgPackValues item.arity [] := harity ▸ .nil
  have hvalue := MsgPackValues.cons h hcontent .nil
  rwa [List.append_nil, List.append_nil] at hvalue

/-- A header takes as many values as belong to it; the others stand behind the container. -/
theorem container (h : MsgPackItem.Encodes hd item) (h' : MsgPackValues n bs)
    (hle : item.arity ≤ n) : ∃ k, MsgPackValues (k + 1) (hd ++ bs) := by
  obtain ⟨k, rfl⟩ := Nat.exists_eq_add_of_le hle
  obtain ⟨cs, ds, rfl, hcs, hds⟩ := h'.split
  refine ⟨k, ?_⟩
  rw [← List.append_assoc]
  exact .cons h hcs hds

end MsgPackValues

/-! ### The calls -/

/-- The arguments `value` and `len` of a call: `NULL`, or an object that is long enough. -/
structure MsgPackPayload where
  len : UInt32
  value : Option (List UInt8)
  long : ∀ bs ∈ value, len.toNat ≤ bs.length

/-- Any call of the encoder, with the arguments it takes. -/
inductive MsgPackEncoderCall
  | nil
  | bool (value : Bool)
  | int (value : Int64)
  | uint (value : UInt64)
  | float32 (value : UInt32)
  | float64 (value : UInt64)
  | string (payload : MsgPackPayload)
  | binary (payload : MsgPackPayload)
  | ext (type : Int8) (payload : MsgPackPayload)
  | arrayBegin
  | arrayEnd
  | mapBegin
  | mapEnd
  | clear

/-- `vlMsgPackIOEncoderClear`. -/
def vlMsgPackIOEncoderClear (enc : VlMsgPackEncoder) : VlMsgPackEncoder :=
  { enc with
    stateStack := []
    buffer := ⟨vlMemRealloc enc.buffer.data (vlMemSize enc.buffer.data), 0, 0⟩
    error := .none
    errorType := .nil
    errorDepth := 0 }

/-- The call of `vlMsgPackIOEncode*` it stands for. -/
def vlMsgPackIOEncoderCall (enc : VlMsgPackEncoder) :
    MsgPackEncoderCall → Except Fault VlMsgPackEncoder
  | .nil => vlMsgPackIOEncodeNil enc
  | .bool value => vlMsgPackIOEncodeBool enc value
  | .int value => vlMsgPackIOEncodeInt enc value
  | .uint value => vlMsgPackIOEncodeUInt enc value
  | .float32 value => vlMsgPackIOEncodeFloat32 enc value
  | .float64 value => vlMsgPackIOEncodeFloat64 enc value
  | .string payload => vlMsgPackIOEncodeStringLen enc payload.value payload.len.toNat
  | .binary payload => vlMsgPackIOEncodeBinary enc payload.value payload.len.toNat
  | .ext type payload => vlMsgPackIOEncodeExt enc type payload.value payload.len.toNat
  | .arrayBegin => vlMsgPackIOEncodeArrayBegin enc
  | .arrayEnd => vlMsgPackIOEncodeArrayEnd enc
  | .mapBegin => vlMsgPackIOEncodeMapBegin enc
  | .mapEnd => vlMsgPackIOEncodeMapEnd enc
  | .clear => .ok (vlMsgPackIOEncoderClear enc)

/-! ### Segments -/

/-- What has been written, with the open containers `stack` in it: each a frame that knows where the
room for its header is, and at least as many values behind the room as it counts. The frame on top
may count `k` values more, which are being written. -/
inductive VlMsgPackEncoder.Nested : List VlMsgPackEncFrame → ℕ → List UInt8 → Prop
  | nil {n k : ℕ} {bs : List UInt8} : MsgPackValues n bs → Nested [] k bs
  | frame {stack : List VlMsgPackEncFrame} {isArray : Bool} {pre room content : List UInt8}
      {n k count : ℕ} :
      Nested stack 1 pre → room.length = 5 → MsgPackValues n content → count ≤ n + k →
      count < 2 ^ 32 →
      Nested (⟨isArray, pre.length, pre.length + 1, pre.length + 5, count⟩ :: stack) k
        (pre ++ room ++ content)

/-- **The invariant of an encoder** under any calls. -/
structure VlMsgPackEncoder.Inv (enc : VlMsgPackEncoder) : Prop where
  wellFormed : enc.buffer.WellFormed
  nested : Nested enc.stateStack 0 enc.buffer.written

section Nested

variable {enc enc' : VlMsgPackEncoder} {stack : List VlMsgPackEncFrame} {bs cs : List UInt8}
  {n k : ℕ}

/-- The frame on top counts a value before it is written. -/
theorem VlMsgPackEncoder.Nested.increment (h : Nested enc.stateStack k bs) :
    Nested (vlMsgPackEncodeIncrement enc).stateStack (k + 1) bs := by
  cases hstack : enc.stateStack with
  | nil =>
    rw [hstack] at h
    simp only [vlMsgPackEncodeIncrement, hstack]
    obtain ⟨hbs⟩ := h
    exact .nil hbs
  | cons frame stack =>
    rw [hstack] at h
    simp only [vlMsgPackEncodeIncrement, hstack]
    obtain _ | @⟨_, isArray, pre, room, content, n, _, count, hpre, hroom, hcontent, hle, _⟩ := h
    refine .frame hpre hroom hcontent ?_ (Nat.mod_lt _ (by norm_num))
    exact (Nat.mod_le _ _).trans (Nat.succ_le_succ hle)

/-- Values that are written end up in the last segment. -/
theorem VlMsgPackEncoder.Nested.append (h : Nested stack 1 bs) (h' : MsgPackValues (k + 1) cs) :
    Nested stack 0 (bs ++ cs) := by
  cases h with
  | nil hbs => exact .nil (hbs.append h')
  | frame hpre hroom hcontent hle hlt =>
    rw [List.append_assoc]
    exact .frame hpre hroom (hcontent.append h') (by omega) hlt

/-- A call that counts one value and writes values, at least one. -/
theorem VlMsgPackEncoder.Inv.appended (h : enc.Inv)
    (h' : (vlMsgPackEncodeIncrement enc).Appended cs enc') (hcs : MsgPackValues (k + 1) cs) :
    enc'.Inv := by
  refine ⟨h'.wellFormed, ?_⟩
  rw [h'.stateStack, h'.written, buffer_increment]
  exact h.nested.increment.append hcs

/-- **Opening** a container. -/
theorem VlMsgPackEncoder.Inv.push {isArray : Bool} (h : enc.Inv) :
    Serves (vlMsgPackEncodePush (vlMsgPackEncodeIncrement enc) isArray) Inv := by
  have hinc : (vlMsgPackEncodeIncrement enc).buffer.WellFormed := by
    rw [buffer_increment]
    exact h.wellFormed
  refine (vlMsgPackEncodePush_spec hinc).mono fun enc' ⟨hopen, _⟩ => ⟨hopen.wellFormed, ?_⟩
  obtain ⟨room, hroom, hwritten⟩ := hopen.written
  rw [hopen.stateStack, hwritten]
  refine .frame ?_ hroom .nil (Nat.zero_le _) (by norm_num)
  rw [buffer_increment]
  exact h.nested.increment

/-- **Closing** the container on top, whatever kind it is. -/
theorem VlMsgPackEncoder.Inv.pop {frame : VlMsgPackEncFrame} (h : enc.Inv)
    (hstack : enc.stateStack = frame :: stack) :
    Returns (vlMsgPackEncodePop enc) fun r => r.2.Inv ∧ r.2.error = enc.error := by
  have hnested := h.nested
  rw [hstack] at hnested
  generalize hbs : enc.buffer.written = bs at hnested
  obtain _ | @⟨_, isArray, pre, room, content, n, _, count, hpre, hroom, hcontent, hle, hlt⟩ :=
    hnested
  have hopen : enc.Opened isArray count stack pre content :=
    ⟨h.wellFormed, hstack, room, hroom, hbs⟩
  refine (vlMsgPackEncodePop_spec hopen).mono fun r ⟨hwf, hstack', herror, hwritten⟩ => ?_
  refine ⟨⟨hwf, ?_⟩, herror⟩
  -- a map counts pairs, so it takes at most the values it has counted
  have hcount : msgPackCount isArray count < 2 ^ 32 ∧
      (msgPackContainer isArray (msgPackCount isArray count)).arity ≤ n := by
    cases isArray with
    | false =>
      have harity : (msgPackContainer false (msgPackCount false count)).arity = 2 * (count / 2) :=
        rfl
      have hpairs : msgPackCount false count = count / 2 := rfl
      omega
    | true => exact ⟨hlt, hle⟩
  obtain ⟨k, hvalues⟩ :=
    MsgPackValues.container (encodes_container hcount.1) hcontent hcount.2
  rw [hstack', hwritten, List.append_assoc]
  exact hpre.append hvalues

end Nested

/-! ### One call -/

section Calls

variable {enc : VlMsgPackEncoder}

/-- An extension is written, whatever payload is passed. -/
theorem vlMsgPackIOEncodeExt_writes {type : Int8} {value : Option (List UInt8)} {n : ℕ}
    (h : enc.buffer.WellFormed) (hlen : n < 2 ^ 32) (hvalue : ∀ cs ∈ value, n ≤ cs.length) :
    Serves (vlMsgPackIOEncodeExt enc type value n) fun enc' =>
      ∃ bs ds, (vlMsgPackEncodeIncrement enc).Appended bs enc' ∧
        MsgPackItem.Encodes bs (.ext type.toInt ds) := by
  have hinc : (vlMsgPackEncodeIncrement enc).buffer.WellFormed := by rwa [buffer_increment]
  have htype : UInt8.ofNat type.toUInt8.toNat = type.toUInt8 := UInt8.ofNat_toNat
  rw [vlMsgPackIOEncodeExt]
  by_cases hshort : n ≤ 16
  · have htemp : Returns (vlMsgPackTempBuffer value n) fun _ => True := by
      cases value with
      | none => exact returns_ok trivial
      | some cs =>
        rw [vlMsgPackTempBuffer]
        split_ifs
        · rw [VlMemory.memcpy, if_pos (hvalue cs rfl)]
          refine ⟨_, VlMemory.store_eq ?_, trivial⟩
          rw [List.length_take_of_le (hvalue cs rfl), Nat.zero_add]
          exact hshort
        · exact returns_ok trivial
    rw [if_pos hshort]
    refine htemp.serves.bind fun tempBuffer _ => ?_
    refine (writeTag_spec hinc).bind fun enc₁ h₁ => ?_
    refine (writeTag_spec h₁.wellFormed).bind fun enc₂ h₂ => ?_
    have hfix : (vlMsgPackFixExt n).1 ≤ (tempBuffer.bytes.slice 0 16).length := by
      rw [fixExt_length hshort, ByteMem.length_slice]
      exact extLength_le hshort
    refine (writeBytes_spec h₂.wellFormed hfix).mono fun enc₃ h₃ => ?_
    rw [htype] at h₂
    have hds := (List.length_take_of_le hfix).trans (fixExt_length hshort)
    generalize (tempBuffer.bytes.slice 0 16).take (vlMsgPackFixExt n).1 = ds at hds h₃
    refine ⟨_, ds, h₁.trans (h₂.trans h₃), UInt8.ofNat (vlMsgPackFixExt n).2, _, rfl, ?_⟩
    rw [ofTag_fixExt hshort]
    exact ⟨type.toUInt8, ds, rfl, hds, by rw [bmod_type]⟩
  · rw [if_neg hshort]
    have hrest : ∀ k typeTag, n < 256 ^ k →
        MsgPackForm.ofTag (UInt8.ofNat typeTag).toNat = .sizedExt k →
        Serves ((vlMsgPackEncodeIncrement enc).writeHeader typeTag k n >>= fun enc => do
          let enc ← enc.writeTag type.toUInt8.toNat
          enc.writeBytes n value) fun enc' =>
          ∃ bs ds, (vlMsgPackEncodeIncrement enc).Appended bs enc' ∧
            MsgPackItem.Encodes bs (.ext type.toInt ds) := by
      intro k typeTag hk hform
      refine (writeHeader_spec hinc).bind fun enc₁ h₁ => ?_
      refine (writeTag_spec h₁.wellFormed).bind fun enc₂ h₂ => ?_
      refine (writeBytes_payload h₂.wellFormed hvalue).mono ?_
      rintro enc₃ ⟨ds, hds, _, h₃⟩
      rw [htype] at h₂
      refine ⟨_, ds, h₁.trans (h₂.trans h₃), _, _, rfl, ?_⟩
      rw [hform]
      refine ⟨natToBE k n, _, ds, rfl, length_natToBE, ?_, by rw [bmod_type]⟩
      rw [natOfBE_natToBE, Nat.mod_eq_of_lt hk, hds]
    split_ifs
    · exact hrest 1 _ (by omega) rfl
    · exact hrest 2 _ (by omega) rfl
    · exact hrest 4 _ (by omega) rfl

/-- What counts a value and writes an item without content keeps the invariant. -/
theorem VlMsgPackEncoder.Inv.writes {m : Except Fault VlMsgPackEncoder} {item : MsgPackItem}
    (h : enc.Inv) (hm : (vlMsgPackEncodeIncrement enc).Writes m item) (hitem : item.arity = 0) :
    Serves m Inv :=
  Serves.mono hm fun _ ⟨_, happ, henc⟩ => h.appended happ (MsgPackValues.of_encodes henc hitem)

theorem VlMsgPackEncoder.Inv.writesPayload {m : Except Fault VlMsgPackEncoder}
    {payload : MsgPackPayload} {f : List UInt8 → MsgPackItem} (h : enc.Inv)
    (hm : (vlMsgPackEncodeIncrement enc).WritesPayload m payload.value payload.len.toNat f)
    (hf : ∀ ds, (f ds).arity = 0) : Serves m Inv :=
  Serves.mono hm fun _ ⟨ds, _, _, happ, henc⟩ =>
    h.appended happ (MsgPackValues.of_encodes henc (hf ds))

/-- **Step lemma**: no call breaks the invariant, and none fails but for an allocation. -/
theorem vlMsgPackIOEncoderCall_keeps (h : enc.Inv) (call : MsgPackEncoderCall) :
    Serves (vlMsgPackIOEncoderCall enc call) Inv := by
  have hwf := h.wellFormed
  have hitem : ∀ (call : MsgPackCall) {item : MsgPackItem}, call.item = some item →
      item.arity = 0 → Serves (vlMsgPackIOEncode enc call) Inv :=
    fun call item hcall harity => h.writes (vlMsgPackIOEncode_item hwf hcall) harity
  have hpop : ∀ {frame stack}, enc.stateStack = frame :: stack →
      Serves (vlMsgPackEncodePop enc >>= fun r => .ok r.2) Inv :=
    fun hstack => (h.pop hstack).serves.bind fun r hr => serves_ok hr.1
  cases call with
  | nil => exact hitem .nil rfl rfl
  | bool value => exact hitem (.bool value) rfl rfl
  | int value => exact hitem (.int value) rfl rfl
  | uint value => exact hitem (.uint value) rfl rfl
  | float32 value => exact hitem (.float32 value) rfl rfl
  | float64 value => exact hitem (.float64 value) rfl rfl
  | string payload =>
    exact h.writesPayload (vlMsgPackIOEncodeStringLen_writes hwf payload.len.toNat_lt payload.long)
      fun _ => rfl
  | binary payload =>
    exact h.writesPayload (vlMsgPackIOEncodeBinary_writes hwf payload.len.toNat_lt payload.long)
      fun _ => rfl
  | ext type payload =>
    refine (vlMsgPackIOEncodeExt_writes hwf payload.len.toNat_lt payload.long).mono ?_
    intro enc' ⟨bs, ds, happ, henc⟩
    exact h.appended happ (MsgPackValues.of_encodes henc rfl)
  | arrayBegin => exact h.push
  | mapBegin => exact h.push
  | arrayEnd =>
    rw [vlMsgPackIOEncoderCall, vlMsgPackIOEncodeArrayEnd]
    split
    · exact serves_ok ⟨hwf, h.nested⟩
    · exact hpop ‹_›
  | mapEnd =>
    rw [vlMsgPackIOEncoderCall, vlMsgPackIOEncodeMapEnd]
    split
    · exact serves_ok ⟨hwf, h.nested⟩
    · split_ifs
      · exact serves_ok ⟨hwf, h.nested⟩
      · exact hpop ‹_›
  | clear => exact serves_ok ⟨⟨hwf.nonempty, hwf.bound, Nat.zero_le _⟩, .nil .nil⟩

end Calls

/-! ### Errors -/

section Errors

variable {enc enc' : VlMsgPackEncoder} {call : MsgPackEncoderCall}

/-- The call writes an error, whichever one was there before. -/
def VlMsgPackEncoder.SetsError (enc : VlMsgPackEncoder) (call : MsgPackEncoderCall) : Prop :=
  Returns (vlMsgPackIOEncoderCall { enc with error := .none } call) fun enc' =>
    enc'.error ≠ .none

/-- Closing a container is no error. -/
theorem vlMsgPackEncodePop_error {r : Bool × VlMsgPackEncoder}
    (h : vlMsgPackEncodePop enc = .ok r) : r.2.error = enc.error := by
  rw [vlMsgPackEncodePop] at h
  split at h
  · rw [← Except.ok.inj h]
  · simp only at h
    obtain ⟨data₁, -, h⟩ := exists_of_bind_eq_ok h
    obtain ⟨data₂, -, h⟩ := exists_of_bind_eq_ok h
    split_ifs at h
    · obtain ⟨block, -, h⟩ := exists_of_bind_eq_ok h
      obtain ⟨data₃, -, h⟩ := exists_of_bind_eq_ok h
      rw [← Except.ok.inj h]
    · rw [← Except.ok.inj h]

theorem not_returns_pop (herror : enc.error = .none) :
    ¬ Returns (vlMsgPackEncodePop enc >>= fun r => .ok r.2) fun enc' => enc'.error ≠ .none := by
  rintro ⟨enc', hpop, hne⟩
  obtain ⟨r, hr, hret⟩ := exists_of_bind_eq_ok hpop
  rw [← Except.ok.inj hret, vlMsgPackEncodePop_error hr] at hne
  exact hne herror

/-- **A call that closes a container and sets an error changes nothing else.** -/
theorem vlMsgPackIOEncoderCall_setsError (hend : call = .arrayEnd ∨ call = .mapEnd)
    (h : enc.SetsError call) :
    Returns (vlMsgPackIOEncoderCall enc call) fun enc' =>
      enc'.error ≠ .none ∧ enc'.stateStack = enc.stateStack ∧ enc'.buffer = enc.buffer := by
  rcases hend with rfl | rfl
  · rw [SetsError, vlMsgPackIOEncoderCall, vlMsgPackIOEncodeArrayEnd] at h
    rw [vlMsgPackIOEncoderCall, vlMsgPackIOEncodeArrayEnd]
    split at h
    · rename_i hstack
      simp only at hstack
      rw [hstack]
      exact returns_ok ⟨fun h => (by cases h), rfl, rfl⟩
    · exact absurd h (not_returns_pop rfl)
  · rw [SetsError, vlMsgPackIOEncoderCall, vlMsgPackIOEncodeMapEnd] at h
    rw [vlMsgPackIOEncoderCall, vlMsgPackIOEncodeMapEnd]
    split at h
    · rename_i hstack
      simp only at hstack
      rw [hstack]
      exact returns_ok ⟨fun h => (by cases h), rfl, rfl⟩
    · rename_i hstack
      simp only at hstack
      rw [hstack]
      split_ifs at h with hodd
      · simp only [if_pos hodd]
        exact returns_ok ⟨fun h => (by cases h), rfl, rfl⟩
      · exact absurd h (not_returns_pop rfl)

end Errors

/-! ### Whole sequences -/

/-- The calls one after the other. -/
def vlMsgPackIOEncoderCalls (enc : VlMsgPackEncoder) (calls : List MsgPackEncoderCall) :
    Except Fault VlMsgPackEncoder :=
  calls.foldlM vlMsgPackIOEncoderCall enc

/-- **Run lemma**: no sequence of calls breaks the invariant. -/
theorem vlMsgPackIOEncoderCalls_keeps {enc : VlMsgPackEncoder} (h : enc.Inv)
    (calls : List MsgPackEncoderCall) : Serves (vlMsgPackIOEncoderCalls enc calls) Inv := by
  induction calls generalizing enc with
  | nil => exact serves_ok h
  | cons call calls ih =>
    rw [vlMsgPackIOEncoderCalls, List.foldlM_cons]
    exact (vlMsgPackIOEncoderCall_keeps h call).bind fun enc₁ h₁ => ih h₁

theorem vlMsgPackIOEncoderInit_inv {contents : ByteMem} :
    (vlMsgPackIOEncoderInit contents).Inv :=
  ⟨vlBufferInit_wellFormed, .nil .nil⟩

end VeritableLasagna
