import VeritableLasagna.Lib.Chunks
import VeritableLasagna.MsgPack.Accepts
import VeritableLasagna.MsgPack.Containers
import VeritableLasagna.MsgPack.Ext

/-!
# Whole texts, there and back

A well-nested sequence of calls stands for a list of items (`WellNested`), in the order in which the
calls start them: the header of a container comes before its content, although the encoder only
knows it when the container is closed. `vlMsgPackIOEncode_wellNested` is the induction over the
nesting, and `VlMsgPackDecoder.readsAll_of_encodes` the one over the items that are read back.
-/

namespace VeritableLasagna

open VlMsgPackDecoder VlMsgPackEncoder

/-! ### The calls -/

/-- The calls are well nested; they write `n` items side by side, and with what the containers hold
the list of items in all. A container holds fewer than `2 ^ 32` items, and a map an even number. -/
inductive WellNested : List MsgPackCall → ℕ → List MsgPackItem → Prop
  | nil : WellNested [] 0 []
  | scalar {call : MsgPackCall} {item : MsgPackItem} {calls : List MsgPackCall} {n : ℕ}
      {items : List MsgPackItem} :
      call.item = some item → WellNested calls n items →
      WellNested (call :: calls) (n + 1) (item :: items)
  | array {inner calls : List MsgPackCall} {k n : ℕ} {innerItems items : List MsgPackItem} :
      WellNested inner k innerItems → k < 2 ^ 32 → WellNested calls n items →
      WellNested (.arrayBegin :: (inner ++ .arrayEnd :: calls)) (n + 1)
        (.array k :: (innerItems ++ items))
  | map {inner calls : List MsgPackCall} {k n : ℕ} {innerItems items : List MsgPackItem} :
      WellNested inner k innerItems → k < 2 ^ 32 → k % 2 = 0 → WellNested calls n items →
      WellNested (.mapBegin :: (inner ++ .mapEnd :: calls)) (n + 1)
        (.map (k / 2) :: (innerItems ++ items))

/-- The calls one after the other. -/
def vlMsgPackIOEncodeCalls (enc : VlMsgPackEncoder) (calls : List MsgPackCall) :
    Except Fault VlMsgPackEncoder :=
  calls.foldlM vlMsgPackIOEncode enc

/-- No call of a well-nested sequence writes an extension. -/
theorem WellNested.not_ext {calls : List MsgPackCall} {n : ℕ} {items : List MsgPackItem}
    (h : WellNested calls n items) : ∀ item ∈ items, ∀ type bs, item ≠ .ext type bs := by
  induction h with
  | nil => exact fun item hitem => (by cases hitem)
  | @scalar call item calls n items hcall _ ih =>
    intro item' hitem type bs
    rcases List.mem_cons.mp hitem with rfl | hmem
    · rintro rfl
      cases call <;> simp [MsgPackCall.item] at hcall
    · exact ih item' hmem type bs
  | array _ _ _ ih₁ ih₂ =>
    intro item hitem type bs
    rcases List.mem_cons.mp hitem with rfl | hmem
    · exact fun h => (by cases h)
    · exact (List.mem_append.mp hmem).elim (ih₁ item · type bs) (ih₂ item · type bs)
  | map _ _ _ _ ih₁ ih₂ =>
    intro item hitem type bs
    rcases List.mem_cons.mp hitem with rfl | hmem
    · exact fun h => (by cases h)
    · exact (List.mem_append.mp hmem).elim (ih₁ item · type bs) (ih₂ item · type bs)

/-! ### Writing -/

/-- The bytes are encodings of the items, one behind the other. -/
def EncodesAll (bs : List UInt8) (items : List MsgPackItem) : Prop :=
  ∃ chunks, List.Forall₂ MsgPackItem.Encodes chunks items ∧ bs = chunks.flatten

theorem encodesAll_nil : EncodesAll [] [] := chunked_nil.mpr rfl

theorem EncodesAll.cons {bs cs : List UInt8} {item : MsgPackItem} {items : List MsgPackItem}
    (h : MsgPackItem.Encodes bs item) (h' : EncodesAll cs items) :
    EncodesAll (bs ++ cs) (item :: items) :=
  Chunked.cons h h'

theorem EncodesAll.append {bs cs : List UInt8} {items items' : List MsgPackItem}
    (h : EncodesAll bs items) (h' : EncodesAll cs items') :
    EncodesAll (bs ++ cs) (items ++ items') :=
  Chunked.append h h'

namespace VlMsgPackEncoder

variable {enc enc' : VlMsgPackEncoder} {bs pre content : List UInt8} {isArray : Bool} {k n : ℕ}
  {stack : List VlMsgPackEncFrame}

/-- The frame on top counts, whatever has been written. -/
theorem Appended.increment (h : enc.Appended bs enc') :
    (vlMsgPackEncodeIncrement enc).Appended bs (vlMsgPackEncodeIncrement enc') := by
  refine ⟨by rw [buffer_increment]; exact h.wellFormed, ?_, ?_, ?_⟩
  · rw [buffer_increment, buffer_increment, h.written]
  · have hstack := h.stateStack
    rw [vlMsgPackEncodeIncrement, vlMsgPackEncodeIncrement, hstack]
    split <;> simp only [hstack]
  · have herror := h.error
    rw [vlMsgPackEncodeIncrement, vlMsgPackEncodeIncrement]
    split <;> split <;> exact herror

theorem Appended.increments (h : enc.Appended bs enc') :
    ((vlMsgPackEncodeIncrement)^[n] enc).Appended bs ((vlMsgPackEncodeIncrement)^[n] enc') := by
  induction n with
  | zero => exact h
  | succ n ih =>
    rw [Function.iterate_succ_apply', Function.iterate_succ_apply']
    exact ih.increment

/-- What is written into an open container is its content. -/
theorem Opened.append (h : enc.Opened isArray n stack pre content) (h' : enc.Appended bs enc') :
    enc'.Opened isArray n stack pre (content ++ bs) := by
  obtain ⟨room, hroom, hwritten⟩ := h.written
  refine ⟨h'.wellFormed, h'.stateStack.trans h.stateStack, room, hroom, ?_⟩
  rw [h'.written, hwritten, List.append_assoc]

/-- An open container counts its items, in 32 bits. -/
theorem Opened.increments (h : enc.Opened isArray 0 stack pre content) :
    ((vlMsgPackEncodeIncrement)^[k] enc).Opened isArray (k % 2 ^ 32) stack pre content := by
  induction k with
  | zero => exact h
  | succ k ih =>
    obtain ⟨hwf, hstack, room, hroom, hwritten⟩ := ih
    rw [Function.iterate_succ_apply']
    refine ⟨by rwa [buffer_increment], ?_, room, hroom, by rwa [buffer_increment]⟩
    rw [vlMsgPackEncodeIncrement, hstack]
    simp only [Nat.mod_add_mod]

end VlMsgPackEncoder

section Write

variable {enc : VlMsgPackEncoder}

/-- The call that closes a container of either kind. -/
theorem vlMsgPackIOEncode_close {isArray : Bool} {n : ℕ} {stack : List VlMsgPackEncFrame}
    {pre content : List UInt8} (h : enc.Opened isArray n stack pre content)
    (heven : isArray = false → n % 2 = 0) :
    vlMsgPackIOEncode enc (if isArray then .arrayEnd else .mapEnd) =
      vlMsgPackEncodePop enc >>= fun r => .ok r.2 := by
  cases isArray with
  | false =>
    have hne : n % 2 ≠ 1 := by rw [heven rfl]; exact Nat.zero_ne_one
    simp only [Bool.false_eq_true, if_false, vlMsgPackIOEncode, vlMsgPackIOEncodeMapEnd,
      h.stateStack, if_neg hne]
    rfl
  | true =>
    simp only [if_true, vlMsgPackIOEncode, vlMsgPackIOEncodeArrayEnd, h.stateStack]
    rfl

/-- **A container**: opened, filled, and closed. The header has the count of 32 bits. -/
theorem vlMsgPackIOEncode_contained (isArray : Bool)
    {inner : VlMsgPackEncoder → Except Fault VlMsgPackEncoder} {k : ℕ} {P : List UInt8 → Prop}
    (h : enc.buffer.WellFormed) (heven : isArray = false → k % 2 = 0)
    (hinner : ∀ enc : VlMsgPackEncoder, enc.buffer.WellFormed → Serves (inner enc) fun enc' =>
      ∃ bs, ((vlMsgPackEncodeIncrement)^[k] enc).Appended bs enc' ∧ P bs) :
    Serves (vlMsgPackEncodePush (vlMsgPackEncodeIncrement enc) isArray >>= fun enc => do
        let enc ← inner enc
        vlMsgPackIOEncode enc (if isArray then .arrayEnd else .mapEnd)) fun enc' =>
      ∃ content, (vlMsgPackEncodeIncrement enc).Appended
          (msgPackContainerHeader isArray (msgPackCount isArray (k % 2 ^ 32)) ++ content) enc' ∧
        P content := by
  have hinc : (vlMsgPackEncodeIncrement enc).buffer.WellFormed := by rwa [buffer_increment]
  refine (vlMsgPackEncodePush_spec hinc).bind fun enc₁ ⟨hopen, herror⟩ => ?_
  refine (hinner enc₁ hopen.wellFormed).bind fun enc₂ ⟨content, happ, hcontent⟩ => ?_
  have hcounted := hopen.increments.append happ
  rw [List.nil_append] at hcounted
  have heven' : isArray = false → k % 2 ^ 32 % 2 = 0 := by
    intro hmap
    have hk := heven hmap
    omega
  rw [vlMsgPackIOEncode_close hcounted heven']
  refine (vlMsgPackEncodePop_spec hcounted).serves.bind fun r ⟨hwf, hstack, herr, hwritten⟩ => ?_
  have herrors : ∀ n, ((vlMsgPackEncodeIncrement)^[n] enc₁).error = enc₁.error := by
    intro n
    induction n with
    | zero => rfl
    | succ n ih =>
      rw [Function.iterate_succ_apply', vlMsgPackEncodeIncrement]
      split <;> exact ih
  refine serves_ok ⟨content, ⟨hwf, ?_, hstack, ?_⟩, hcontent⟩
  · rw [hwritten, List.append_assoc]
  · rw [herr, happ.error, herrors, herror]

/-- A container whose items 32 bits can count: the header tells their number. -/
theorem vlMsgPackIOEncode_container (isArray : Bool)
    {inner : VlMsgPackEncoder → Except Fault VlMsgPackEncoder} {k : ℕ} {P : List UInt8 → Prop}
    (h : enc.buffer.WellFormed) (hk : k < 2 ^ 32) (heven : isArray = false → k % 2 = 0)
    (hinner : ∀ enc : VlMsgPackEncoder, enc.buffer.WellFormed → Serves (inner enc) fun enc' =>
      ∃ bs, ((vlMsgPackEncodeIncrement)^[k] enc).Appended bs enc' ∧ P bs) :
    Serves (vlMsgPackEncodePush (vlMsgPackEncodeIncrement enc) isArray >>= fun enc => do
        let enc ← inner enc
        vlMsgPackIOEncode enc (if isArray then .arrayEnd else .mapEnd)) fun enc' =>
      ∃ header content, (vlMsgPackEncodeIncrement enc).Appended (header ++ content) enc' ∧
        MsgPackItem.Encodes header (msgPackContainer isArray (msgPackCount isArray k)) ∧
        P content := by
  have hcount : msgPackCount isArray k < 2 ^ 32 := by
    rw [msgPackCount]
    split_ifs <;> omega
  refine (vlMsgPackIOEncode_contained isArray h heven hinner).mono
    fun enc' ⟨content, happ, hcontent⟩ => ?_
  rw [Nat.mod_eq_of_lt hk] at happ
  exact ⟨_, content, happ, encodes_container hcount, hcontent⟩

/-- What writes chunks and counts `n`, followed by what writes chunks and counts `k`. -/
theorem chunked_bind {R : List UInt8 → MsgPackItem → Prop} {m : Except Fault VlMsgPackEncoder}
    {next : VlMsgPackEncoder → Except Fault VlMsgPackEncoder} {n k : ℕ}
    {items items' : List MsgPackItem}
    (hm : Serves m fun enc' =>
      ∃ bs, ((vlMsgPackEncodeIncrement)^[n] enc).Appended bs enc' ∧ Chunked R bs items)
    (hnext : ∀ enc : VlMsgPackEncoder, enc.buffer.WellFormed → Serves (next enc) fun enc' =>
      ∃ bs, ((vlMsgPackEncodeIncrement)^[k] enc).Appended bs enc' ∧ Chunked R bs items') :
    Serves (m >>= next) fun enc' =>
      ∃ bs, ((vlMsgPackEncodeIncrement)^[n + k] enc).Appended bs enc' ∧
        Chunked R bs (items ++ items') := by
  refine hm.bind fun enc₁ ⟨bs, happ, hbs⟩ => ?_
  refine (hnext enc₁ happ.wellFormed).mono fun enc₂ ⟨cs, happ', hcs⟩ => ?_
  rw [Nat.add_comm, Function.iterate_add_apply]
  exact ⟨bs ++ cs, happ.increments.trans happ', hbs.append hcs⟩

/-- What writes items and counts one, followed by calls that write items and count `n`. -/
theorem encodesAll_bind {m : Except Fault VlMsgPackEncoder} {calls : List MsgPackCall} {n : ℕ}
    {items items' : List MsgPackItem}
    (hm : Serves m fun enc' =>
      ∃ bs, (vlMsgPackEncodeIncrement enc).Appended bs enc' ∧ EncodesAll bs items)
    (hcalls : ∀ enc : VlMsgPackEncoder, enc.buffer.WellFormed →
      Serves (vlMsgPackIOEncodeCalls enc calls) fun enc' =>
        ∃ bs, ((vlMsgPackEncodeIncrement)^[n] enc).Appended bs enc' ∧ EncodesAll bs items') :
    Serves (m >>= fun enc => vlMsgPackIOEncodeCalls enc calls) fun enc' =>
      ∃ bs, ((vlMsgPackEncodeIncrement)^[n + 1] enc).Appended bs enc' ∧
        EncodesAll bs (items ++ items') := by
  rw [Nat.add_comm]
  exact chunked_bind (n := 1) hm hcalls

/-- A container with its content. -/
theorem encodesAll_container {isArray : Bool} {k : ℕ} {items : List MsgPackItem}
    {m : Except Fault VlMsgPackEncoder}
    (hm : Serves m fun enc' => ∃ header content,
      (vlMsgPackEncodeIncrement enc).Appended (header ++ content) enc' ∧
        MsgPackItem.Encodes header (msgPackContainer isArray (msgPackCount isArray k)) ∧
        EncodesAll content items) :
    Serves m fun enc' => ∃ bs, (vlMsgPackEncodeIncrement enc).Appended bs enc' ∧
      EncodesAll bs (msgPackContainer isArray (msgPackCount isArray k) :: items) := by
  refine hm.mono ?_
  rintro enc' ⟨header, content, happ, hheader, hcontent⟩
  exact ⟨_, happ, EncodesAll.cons hheader hcontent⟩

/-- **Well-nested calls** write encodings of their items, and count them in the container that is
open. -/
theorem vlMsgPackIOEncode_wellNested {calls : List MsgPackCall} {n : ℕ} {items : List MsgPackItem}
    (hcalls : WellNested calls n items) (h : enc.buffer.WellFormed) :
    Serves (vlMsgPackIOEncodeCalls enc calls) fun enc' =>
      ∃ bs, ((vlMsgPackEncodeIncrement)^[n] enc).Appended bs enc' ∧ EncodesAll bs items := by
  induction hcalls generalizing enc with
  | nil =>
    exact serves_ok ⟨[], ⟨h, (List.append_nil _).symm, rfl, rfl⟩, encodesAll_nil⟩
  | @scalar call item calls n items hcall _ ih =>
    have hone : Serves (vlMsgPackIOEncode enc call) fun enc' =>
        ∃ bs, (vlMsgPackEncodeIncrement enc).Appended bs enc' ∧ EncodesAll bs [item] := by
      refine (vlMsgPackIOEncode_item h hcall).mono fun enc' ⟨bs, happ, henc⟩ => ⟨bs, happ, ?_⟩
      have hall := EncodesAll.cons henc encodesAll_nil
      rwa [List.append_nil] at hall
    exact encodesAll_bind hone fun enc henc => ih henc
  | @array inner calls k n innerItems items _ hk _ ih₁ ih₂ =>
    have hone := vlMsgPackIOEncode_container true h hk (fun h => (by cases h))
      fun enc henc => ih₁ henc
    have hall := encodesAll_bind (encodesAll_container hone) fun enc henc => ih₂ henc
    rw [vlMsgPackIOEncodeCalls, List.foldlM_cons]
    simp only [List.foldlM_append, List.foldlM_cons]
    simp only [bind_assoc] at hall
    exact hall
  | @map inner calls k n innerItems items _ hk heven _ ih₁ ih₂ =>
    have hone := vlMsgPackIOEncode_container false h hk (fun _ => heven)
      fun enc henc => ih₁ henc
    have hall := encodesAll_bind (encodesAll_container hone) fun enc henc => ih₂ henc
    rw [vlMsgPackIOEncodeCalls, List.foldlM_cons]
    simp only [List.foldlM_append, List.foldlM_cons]
    simp only [bind_assoc] at hall
    exact hall

end Write

/-! ### Reading -/

/-- **The items are read**, one call each, whatever tokens are passed; then the source is used up,
and a call returns `VL_FALSE` without an error. -/
def VlMsgPackDecoder.ReadsAll (dec : VlMsgPackDecoder) : List MsgPackItem → Prop
  | [] => ∀ tk, Returns (vlMsgPackIODecoderNext dec tk) fun r =>
      r.1 = false ∧ r.2.1.error = .none ∧ r.2.1.srcOffset = r.2.1.srcLen
  | item :: items => ∀ tk, Returns (vlMsgPackIODecoderNext dec tk) fun r =>
      r.1 = true ∧ r.2.2.item dec.srcMem = item ∧ r.2.2.Inside dec.srcLen ∧ r.2.1.ReadsAll items

namespace VlMsgPackDecoder

variable {dec : VlMsgPackDecoder} {bs tail : List UInt8} {item : MsgPackItem}
  {items : List MsgPackItem}

/-- The form of an item that is no extension. -/
theorem form_of_body {form : MsgPackForm} {body : List UInt8} (h : form.Body body item)
    (hitem : ∀ type bs, item ≠ .ext type bs) : form ≠ .unused ∧ ∀ width, form ≠ .sizedExt width := by
  refine ⟨fun hform => ?_, fun width hform => ?_⟩
  · rw [hform] at h
    exact h
  · rw [hform] at h
    obtain ⟨_, _, _, _, _, _, hext⟩ := h
    exact hitem _ _ hext

/-- An item that is no extension is supported. -/
theorem supported_of_encodes (hrest : dec.rest = bs ++ tail) (h : MsgPackItem.Encodes bs item)
    (hitem : ∀ type bs, item ≠ .ext type bs) : dec.Supported := by
  obtain ⟨b, body, rfl, hbody⟩ := h
  obtain ⟨hunused, hsized⟩ := form_of_body hbody hitem
  exact supported_of_form hrest rfl hunused (hsized 2) (hsized 4)

/-- **An encoding is read**, and the decoder stands behind it. -/
theorem next_of_encodes (ho : dec.srcOffset ≤ dec.srcLen) (hrest : dec.rest = bs ++ tail)
    (h : MsgPackItem.Encodes bs item) (hsup : dec.Supported) (tk : VlMsgPackIOToken) :
    ∃ tk', vlMsgPackIODecoderNext dec tk = .ok (true, dec.advance bs.length, tk') ∧
      tk'.item dec.srcMem = item ∧ tk'.Inside dec.srcLen := by
  have hne : dec.rest ≠ [] := by
    obtain ⟨b, body, rfl, -⟩ := h
    rw [hrest]
    exact List.cons_ne_nil _ _
  have hparses : dec.Parses (vlMsgPackIODecoderNext dec tk) _ := hsup.parses ho hne
  obtain ⟨⟨more, dec', tk'⟩, hr, hiff, hval, -, -⟩ := hparses.matchesFormat hne
  obtain ⟨rfl, hitem, hin⟩ := hval _ _ _ hrest h
  obtain rfl : more = true := hiff.mpr ⟨_, _, _, hrest, h⟩
  exact ⟨tk', hr, hitem, hin⟩

/-- **Encodings are read back.** -/
theorem readsAll_of_encodes (ho : dec.srcOffset ≤ dec.srcLen) (herr : dec.error = .none)
    (h : EncodesAll dec.rest items) (hitems : ∀ item ∈ items, ∀ type bs, item ≠ .ext type bs) :
    dec.ReadsAll items := by
  obtain ⟨chunks, hchunks, hrest⟩ := h
  induction hchunks generalizing dec with
  | nil =>
    have hlen := congrArg List.length hrest
    rw [length_rest, List.flatten_nil, List.length_nil] at hlen
    exact fun tk => ⟨_, next_nil ho hrest, rfl, herr, by simp only; omega⟩
  | @cons chunk item chunks items henc hchunks ih =>
    intro tk
    rw [List.flatten_cons] at hrest
    have hsup := supported_of_encodes hrest henc (hitems item List.mem_cons_self)
    obtain ⟨tk', hr, hitem, hin⟩ := next_of_encodes ho hrest henc hsup tk
    refine ⟨_, hr, rfl, hitem, hin, ?_⟩
    exact ih (advance_le ho hrest rfl) herr
      (fun item hmem => hitems item (List.mem_cons_of_mem _ hmem)) (rest_advance hrest)

end VlMsgPackDecoder

end VeritableLasagna
