import VeritableLasagna.MsgPack.Accepts
import VeritableLasagna.MsgPack.Encoder

/-!
# Extensions, there and back

`vlMsgPackIOEncodeExt` writes a payload of at most 16 bytes in one of the five fixed sizes, padded
with zeros, and a longer one behind its length. The bytes it appends are always an item of the
format; reading them back fails exactly where the decoder takes the length for a negative number.
-/

namespace VeritableLasagna

open VlMsgPackDecoder VlMsgPackEncoder

/-- The length of the payload in the text: the next fixed size, if there is one. -/
def msgPackExtLength (n : ℕ) : ℕ := ([1, 2, 4, 8, 16].find? (n ≤ ·)).getD n

/-- The payload in the text. -/
def msgPackExtPayload (payload : List UInt8) : List UInt8 :=
  payload ++ List.replicate (msgPackExtLength payload.length - payload.length) 0

/-- What the encoder writes before the type. -/
def msgPackExtHeader (n : ℕ) : List UInt8 :=
  if n ≤ 16 then [UInt8.ofNat (vlMsgPackFixExt n).2]
  else if n ≤ 0xFF then UInt8.ofNat VlMsgPackIO.ext8 :: natToBE 1 n
  else if n ≤ 0xFFFF then UInt8.ofNat VlMsgPackIO.ext16 :: natToBE 2 n
  else UInt8.ofNat VlMsgPackIO.ext32 :: natToBE 4 n

/-- The bytes `vlMsgPackIOEncodeExt` writes. -/
def msgPackExtBytes (type : Int8) (payload : List UInt8) : List UInt8 :=
  msgPackExtHeader payload.length ++ type.toUInt8 :: msgPackExtPayload payload

section Encode

variable {enc : VlMsgPackEncoder} {type : Int8} {payload : List UInt8}
  {value : Option (List UInt8)} {n : ℕ}

theorem fixExt_length (h : n ≤ 16) : (vlMsgPackFixExt n).1 = msgPackExtLength n := by
  interval_cases n <;> rfl

theorem ofTag_fixExt (h : n ≤ 16) :
    MsgPackForm.ofTag (UInt8.ofNat (vlMsgPackFixExt n).2).toNat = .ext (msgPackExtLength n) := by
  interval_cases n <;> rfl

theorem extLength_le (h : n ≤ 16) : msgPackExtLength n ≤ 16 := by
  interval_cases n <;> decide

theorem extLength_of_gt (h : 16 < n) : msgPackExtLength n = n := by
  have hnone : [1, 2, 4, 8, 16].find? (n ≤ ·) = none := by
    rw [List.find?_eq_none]
    intro k hk
    simp only [List.mem_cons, List.not_mem_nil, or_false] at hk
    simp only [decide_eq_true_eq]
    omega
  rw [msgPackExtLength, hnone, Option.getD_none]

theorem le_extLength : n ≤ msgPackExtLength n := by
  rcases Nat.lt_or_ge 16 n with h | h
  · exact (extLength_of_gt h).ge
  · interval_cases n <;> decide

theorem length_extPayload :
    (msgPackExtPayload payload).length = msgPackExtLength payload.length := by
  rw [msgPackExtPayload, List.length_append, List.length_replicate]
  exact Nat.add_sub_cancel' le_extLength

theorem slice_zeros {p : ℕ} : ByteMem.slice (fun _ => 0) p n = List.replicate n 0 := by
  rw [ByteMem.slice, List.map_const', List.length_range]

/-- The temporary buffer holds the payload, then zeros. -/
theorem slice_tempBuffer (h : payload.length ≤ 16) :
    (ByteMem.write (fun _ => 0) 0 payload).slice 0 16 =
      payload ++ List.replicate (16 - payload.length) 0 := by
  obtain ⟨k, hk⟩ := Nat.exists_eq_add_of_le h
  have hzeros : (ByteMem.write (fun _ => 0) 0 payload).slice (0 + payload.length) k =
      List.replicate k 0 := by
    rw [← slice_zeros]
    exact ByteMem.slice_congr fun q hq _ => ByteMem.write_of_ge hq
  rw [hk, ByteMem.slice_add, ByteMem.slice_write_self, hzeros, Nat.add_sub_cancel_left]

/-- The temporary buffer, however the payload is passed. -/
theorem tempBuffer_eq (hshort : payload.length ≤ 16)
    (hvalue : value = some payload ∨ value = none ∧ payload = []) :
    vlMsgPackTempBuffer value payload.length = .ok ⟨ByteMem.write (fun _ => 0) 0 payload, 16⟩ := by
  rcases hvalue with rfl | ⟨rfl, rfl⟩
  · rw [vlMsgPackTempBuffer]
    split_ifs with hpos
    · rw [VlMemory.memcpy, if_pos le_rfl, List.take_length]
      exact VlMemory.store_eq (by rwa [Nat.zero_add])
    · obtain rfl := List.length_eq_zero_iff.mp (Nat.eq_zero_of_not_pos hpos)
      rw [ByteMem.write_nil]
      rfl
  · rw [ByteMem.write_nil]
    rfl

/-- **The encoder appends the bytes of the extension**, unless an allocation cannot be served. -/
theorem vlMsgPackIOEncodeExt_spec (h : enc.buffer.WellFormed)
    (hvalue : value = some payload ∨ value = none ∧ payload = []) :
    Serves (vlMsgPackIOEncodeExt enc type value payload.length)
      ((vlMsgPackEncodeIncrement enc).Appended (msgPackExtBytes type payload)) := by
  have hinc : (vlMsgPackEncodeIncrement enc).buffer.WellFormed := by rwa [buffer_increment]
  have htype : UInt8.ofNat type.toUInt8.toNat = type.toUInt8 := UInt8.ofNat_toNat
  rw [vlMsgPackIOEncodeExt, msgPackExtBytes, msgPackExtHeader]
  simp only
  by_cases hshort : payload.length ≤ 16
  · rw [if_pos hshort, if_pos hshort, tempBuffer_eq hshort hvalue, ok_bind]
    refine (writeTag_spec hinc).bind fun enc₁ h₁ => (writeTag_spec h₁.wellFormed).bind fun enc₂ h₂ => ?_
    have hfix := fixExt_length hshort
    refine (writeBytes_spec h₂.wellFormed ?_).mono fun enc₃ h₃ => ?_
    · rw [ByteMem.length_slice, hfix]
      exact extLength_le hshort
    · have htake : ((ByteMem.write (fun _ => 0) 0 payload).slice 0 16).take
          (vlMsgPackFixExt payload.length).1 = msgPackExtPayload payload := by
        have hle := extLength_le hshort
        rw [slice_tempBuffer hshort, hfix, msgPackExtPayload, List.take_append,
          List.take_of_length_le le_extLength, List.take_replicate, Nat.min_eq_left (by omega)]
      rw [htake] at h₃
      rw [htype] at h₂
      exact h₁.trans (h₂.trans h₃)
  · rw [if_neg hshort, if_neg hshort]
    obtain rfl : value = some payload := by
      rcases hvalue with hsome | ⟨-, rfl⟩
      · exact hsome
      · exact absurd (Nat.zero_le _) hshort
    have hpay : msgPackExtPayload payload = payload.take payload.length := by
      rw [msgPackExtPayload, extLength_of_gt (Nat.lt_of_not_le hshort), Nat.sub_self,
        List.replicate_zero, List.append_nil, List.take_length]
    rw [hpay]
    have hrest : ∀ enc₁ hd, (vlMsgPackEncodeIncrement enc).Appended hd enc₁ →
        Serves (do
          let enc ← enc₁.writeTag type.toUInt8.toNat
          enc.writeBytes payload.length (some payload))
          ((vlMsgPackEncodeIncrement enc).Appended
            (hd ++ type.toUInt8 :: payload.take payload.length)) := by
      intro enc₁ hd h₁
      refine (writeTag_spec h₁.wellFormed).bind fun enc₂ h₂ => ?_
      refine (writeBytes_spec h₂.wellFormed le_rfl).mono fun enc₃ h₃ => ?_
      rw [htype] at h₂
      exact h₁.trans (h₂.trans h₃)
    split_ifs
    · exact (writeHeader_spec hinc).bind fun enc₁ h₁ => hrest enc₁ _ h₁
    · exact (writeHeader_spec hinc).bind fun enc₁ h₁ => hrest enc₁ _ h₁
    · exact (writeHeader_spec hinc).bind fun enc₁ h₁ => hrest enc₁ _ h₁

/-- The type of an extension is its byte, signed. -/
theorem bmod_type : Int.bmod type.toUInt8.toNat 256 = type.toInt :=
  (BitVec.toInt_eq_toNat_bmod type.toBitVec).symm

/-- **What the encoder writes is an item of the format.** -/
theorem encodes_extBytes (hlen : payload.length < 2 ^ 32) :
    MsgPackItem.Encodes (msgPackExtBytes type payload)
      (.ext type.toInt (msgPackExtPayload payload)) := by
  have hsized : ∀ k typeTag, 16 < payload.length → payload.length < 256 ^ k →
      MsgPackForm.ofTag (UInt8.ofNat typeTag).toNat = .sizedExt k →
      MsgPackItem.Encodes (UInt8.ofNat typeTag :: natToBE k payload.length ++
        type.toUInt8 :: msgPackExtPayload payload)
        (.ext type.toInt (msgPackExtPayload payload)) := by
    intro k typeTag hlong hk hform
    refine ⟨_, _, rfl, ?_⟩
    rw [hform]
    refine ⟨natToBE k payload.length, _, _, rfl, length_natToBE, ?_, ?_⟩
    · rw [natOfBE_natToBE, Nat.mod_eq_of_lt hk, length_extPayload, extLength_of_gt hlong]
    · rw [bmod_type]
  rw [msgPackExtBytes, msgPackExtHeader]
  split_ifs with hshort h8 h16
  · refine ⟨_, _, rfl, ?_⟩
    rw [ofTag_fixExt hshort]
    refine ⟨_, _, rfl, length_extPayload, ?_⟩
    rw [bmod_type]
  · exact hsized 1 _ (by omega) (by omega) rfl
  · exact hsized 2 _ (by omega) (by omega) rfl
  · exact hsized 4 _ (by omega) (by omega) rfl

end Encode

/-! ### The round trip -/

/-- **The extension is read back**: the call returns it, inside the source, and the decoder stands
right behind its `n` bytes. -/
def VlMsgPackDecoder.ReadsExt (dec : VlMsgPackDecoder) (tk : VlMsgPackIOToken) (type : Int8)
    (payload : List UInt8) (n : ℕ) : Prop :=
  Returns (vlMsgPackIODecoderNext dec tk) fun r =>
    r.1 = true ∧ r.2.1 = dec.advance n ∧
      r.2.2.item dec.srcMem = .ext type.toInt (msgPackExtPayload payload) ∧
      r.2.2.Inside dec.srcLen

/-- The lengths that are read back from an item at offset `o`. -/
def msgPackExtReadable (o n : ℕ) : Prop :=
  n < 2 ^ 15 ∨ 2 ^ 16 ≤ n ∧ (n + 1 < 2 ^ 31 ∨ 2 ^ 31 ≤ n ∧ 2 ^ 32 ≤ o + 6 + n)

section Decode

variable {dec : VlMsgPackDecoder} {tk : VlMsgPackIOToken} {type : Int8}
  {payload tail : List UInt8}

/-- A tag that is neither unused nor one of the two sized extensions is supported. -/
theorem supported_of_form {b : UInt8} {f : MsgPackForm} (hrest : dec.rest = b :: tail)
    (hform : MsgPackForm.ofTag b.toNat = f) (hunused : f ≠ .unused) (h16 : f ≠ .sizedExt 2)
    (h32 : f ≠ .sizedExt 4) : dec.Supported := by
  rw [Supported, hrest]
  refine ⟨fun hb => ?_, fun hb => ?_, fun hb => ?_⟩
  · rw [hb] at hform
    exact absurd hform.symm hunused
  · rw [hb] at hform
    exact absurd hform.symm h16
  · rw [hb] at hform
    exact absurd hform.symm h32

/-- The bytes of the extension at the read offset are supported exactly for the readable lengths. -/
theorem extBytes_supported_iff (hlen : payload.length < 2 ^ 32)
    (hrest : dec.rest = msgPackExtBytes type payload ++ tail) :
    dec.Supported ↔ msgPackExtReadable dec.srcOffset payload.length := by
  have htotal := length_rest.symm.trans (congrArg List.length hrest)
  rw [msgPackExtReadable]
  rw [msgPackExtBytes, msgPackExtHeader] at hrest htotal
  split_ifs at hrest htotal with hshort h8 h16
  · have hform : MsgPackForm.ofTag (UInt8.ofNat (vlMsgPackFixExt payload.length).2).toNat =
        .ext (msgPackExtLength payload.length) := ofTag_fixExt hshort
    have hsup : dec.Supported :=
      supported_of_form hrest hform (fun h => (by cases h)) (fun h => (by cases h))
        fun h => (by cases h)
    exact ⟨fun _ => Or.inl (by omega), fun _ => hsup⟩
  · have hsup : dec.Supported :=
      supported_of_form hrest rfl (fun h => (by cases h)) (fun h => (by cases h))
        fun h => (by cases h)
    exact ⟨fun _ => Or.inl (by omega), fun _ => hsup⟩
  · have hcons : dec.rest = UInt8.ofNat VlMsgPackIO.ext16 :: (natToBE 2 payload.length ++
        (type.toUInt8 :: msgPackExtPayload payload ++ tail)) := by
      rw [hrest, List.append_assoc, List.cons_append]
    have hvalue : natOfBE (natToBE 2 payload.length) = payload.length := by
      rw [natOfBE_natToBE, Nat.mod_eq_of_lt (by omega)]
    have hbound : dec.srcOffset + 4 + payload.length ≤ dec.srcLen := by
      simp only [List.length_append, List.length_cons, length_natToBE, length_extPayload,
        extLength_of_gt (Nat.lt_of_not_le hshort)] at htotal
      omega
    rw [Supported, hcons]
    simp only [List.take_left' length_natToBE, hvalue, DecidesExt16]
    constructor
    · rintro ⟨-, h, -⟩
      have hdec := h rfl (by rw [List.length_append, length_natToBE]; omega)
      omega
    · intro h
      exact ⟨by decide, fun _ _ => by omega, fun hb => absurd hb (by decide)⟩
  · have hcons : dec.rest = UInt8.ofNat VlMsgPackIO.ext32 :: (natToBE 4 payload.length ++
        (type.toUInt8 :: msgPackExtPayload payload ++ tail)) := by
      rw [hrest, List.append_assoc, List.cons_append]
    have hvalue : natOfBE (natToBE 4 payload.length) = payload.length := by
      rw [natOfBE_natToBE, Nat.mod_eq_of_lt (by omega)]
    have hbound : dec.srcOffset + 6 + payload.length ≤ dec.srcLen := by
      simp only [List.length_append, List.length_cons, length_natToBE, length_extPayload,
        extLength_of_gt (Nat.lt_of_not_le hshort)] at htotal
      omega
    rw [Supported, hcons]
    simp only [List.take_left' length_natToBE, hvalue, DecidesExt32]
    constructor
    · rintro ⟨-, -, h⟩
      have hdec := h rfl (by rw [List.length_append, length_natToBE]; omega)
      omega
    · intro h
      exact ⟨by decide, fun hb => absurd hb (by decide), fun _ _ => by omega⟩

/-- Where an item starts, matching the format is reading that item. -/
theorem readsExt_iff (ho : dec.srcOffset ≤ dec.srcLen) (hlen : payload.length < 2 ^ 32)
    (hrest : dec.rest = msgPackExtBytes type payload ++ tail) :
    dec.ReadsExt tk type payload (msgPackExtBytes type payload).length ↔ dec.Supported := by
  have henc : MsgPackItem.Encodes (msgPackExtBytes type payload) _ := encodes_extBytes hlen
  have hne : dec.rest ≠ [] := by
    obtain ⟨b, body, hb, -⟩ := henc
    rw [hrest, hb]
    exact List.cons_ne_nil _ _
  constructor
  · rintro ⟨r, hr, htrue, hdec, hval, hin⟩
    have hmatch : dec.MatchesFormat tk := by
      refine ⟨r, hr, ⟨fun _ => ⟨_, _, _, hrest, henc⟩, fun _ => htrue⟩, ?_, fun h => absurd h hne, ?_⟩
      · intro bs tail' item hrest' henc'
        obtain ⟨rfl, rfl⟩ := henc.unique henc' (hrest.symm.trans hrest')
        exact ⟨hdec, hval, hin⟩
      · intro hfalse
        rw [htrue] at hfalse
        cases hfalse
    exact hmatch.supported ho
  · intro h
    have hparses : dec.Parses (vlMsgPackIODecoderNext dec tk) _ := h.parses ho hne
    obtain ⟨r, hr, hiff, hitem, -, -⟩ := hparses.matchesFormat hne
    obtain ⟨hdec, hval, hin⟩ := hitem _ _ _ hrest henc
    exact ⟨r, hr, hiff.mpr ⟨_, _, _, hrest, henc⟩, hdec, hval, hin⟩

end Decode

/-- **The extension round trip.** Encoding an extension fails only when an allocation cannot be
served. It leaves what was written before alone and appends bytes of which the following is true:
wherever a decoder stands at them, whatever follows, it reads the extension back and stops right
behind it exactly if its length is readable there. -/
theorem vlMsgPackIOEncodeExt_readsExt_iff {enc : VlMsgPackEncoder} (h : enc.buffer.WellFormed)
    {type : Int8} {payload : List UInt8} {value : Option (List UInt8)}
    (hlen : payload.length < 2 ^ 32)
    (hvalue : value = some payload ∨ value = none ∧ payload = []) :
    Serves (vlMsgPackIOEncodeExt enc type value payload.length) fun enc' =>
      ∃ bs, enc'.buffer.written = enc.buffer.written ++ bs ∧
        ∀ (dec : VlMsgPackDecoder) (tk : VlMsgPackIOToken) (tail : List UInt8),
          dec.srcOffset ≤ dec.srcLen → dec.rest = bs ++ tail →
          (dec.ReadsExt tk type payload bs.length ↔
            msgPackExtReadable dec.srcOffset payload.length) := by
  refine (vlMsgPackIOEncodeExt_spec h hvalue).mono fun enc' happ => ?_
  refine ⟨msgPackExtBytes type payload, ?_, fun dec tk tail ho hrest => ?_⟩
  · rw [happ.written, buffer_increment]
  · exact (readsExt_iff ho hlen hrest).trans (extBytes_supported_iff hlen hrest)

/-- A new buffer is well formed. -/
theorem vlBufferInit_wellFormed {contents : ByteMem} : (vlBufferInit contents).WellFormed :=
  ⟨by norm_num [vlBufferInit, vlMemAlloc, vlDefaultMemorySize],
    by norm_num [vlBufferInit, vlMemAlloc, vlDefaultMemorySize], Nat.zero_le _⟩

/-- The extension of three bytes is read back padded to four. -/
theorem vlMsgPackIOEncodeExt_readsExt_three :
    Serves (vlMsgPackIOEncodeExt (vlMsgPackIOEncoderInit fun _ => 0) 42 (some [1, 2, 3]) 3)
      fun enc' => ∃ bs, enc'.buffer.written = [] ++ bs ∧
        ∀ (dec : VlMsgPackDecoder) (tk : VlMsgPackIOToken) (tail : List UInt8),
          dec.srcOffset ≤ dec.srcLen → dec.rest = bs ++ tail →
          (dec.ReadsExt tk 42 [1, 2, 3] bs.length ↔ msgPackExtReadable dec.srcOffset 3) :=
  vlMsgPackIOEncodeExt_readsExt_iff vlBufferInit_wellFormed (by decide) (Or.inl rfl)

/-- The extension of `2 ^ 15` bytes is written, and the decoder rejects what was written. -/
theorem vlMsgPackIOEncodeExt_unread : ∃ enc',
    vlMsgPackIOEncodeExt (vlMsgPackIOEncoderInit fun _ => 0) 0 (some (List.replicate 32768 0)) 32768 =
      .ok enc' ∧ enc'.buffer.offset = 32772 ∧
    ¬ (vlMsgPackIODecoderStart enc'.buffer.data.bytes 32772 (by norm_num)).ReadsExt default 0
      (List.replicate 32768 0) 32772 := by
  have hexec : ((vlMsgPackIOEncodeExt (vlMsgPackIOEncoderInit fun _ => 0) 0
      (some (List.replicate 32768 0)) 32768).toOption.any fun enc' =>
        enc'.buffer.offset == 32772 && ((vlMsgPackIODecoderNext (vlMsgPackIODecoderStart
          enc'.buffer.data.bytes 32772 (by norm_num)) default).toOption.any fun r => !r.1)) = true := by
    decide +kernel
  obtain ⟨enc', henc, hp⟩ := (Option.any_eq_true _ _).mp hexec
  obtain ⟨hoff, hnext⟩ := Bool.and_eq_true _ _ ▸ hp
  obtain ⟨r', hr', hfalse⟩ := (Option.any_eq_true _ _).mp hnext
  refine ⟨enc', eq_ok_of_toOption henc, eq_of_beq hoff, ?_⟩
  rintro ⟨r, hr, htrue, -⟩
  obtain rfl := Except.ok.inj (hr.symm.trans (eq_ok_of_toOption hr'))
  rw [htrue] at hfalse
  cases hfalse

end VeritableLasagna
