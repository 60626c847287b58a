import VeritableLasagna.MsgPack.Ext
import VeritableLasagna.MsgPack.RoundTrip

/-!
# A decoder before a text

What the encoder writes for an item is `Readable`: the decoder reads it wherever it is. A decoder that is
`Before` the text of a list of items reads them one by one (`Before.next`), and before two lists it gets
from one to the other (`Before.append`). When the source ends inside of the text (`Cut`), it reads the items
that are whole, and then fails (`Cut.next`).
-/

namespace VeritableLasagna

open VlMsgPackDecoder VlMsgPackEncoder

/-- The bytes stand for the item, and the decoder decides about them as the format does, wherever they are,
also when they are cut short. -/
def MsgPackItem.Readable (bs : List UInt8) (item : MsgPackItem) : Prop :=
  MsgPackItem.Encodes bs item ∧
    ∀ dec : VlMsgPackDecoder, dec.rest <+: bs ∨ bs <+: dec.rest → dec.Supported

section Readable

variable {dec : VlMsgPackDecoder} {b : UInt8} {bs size ds : List UInt8} {item : MsgPackItem} {type : Int8}
  {payload : List UInt8} {form : MsgPackForm}

/-- The first byte of a text that is cut short or goes on. -/
theorem rest_cons (h : dec.rest <+: b :: bs ∨ b :: bs <+: dec.rest) :
    dec.rest = [] ∨ ∃ tail, dec.rest = b :: tail ∧ (tail <+: bs ∨ bs <+: tail) := by
  rcases h with h | h
  · rcases List.prefix_cons_iff.mp h with hnil | ⟨tail, hrest, htail⟩
    · exact Or.inl hnil
    · exact Or.inr ⟨tail, hrest, Or.inl htail⟩
  · obtain ⟨tail, htail⟩ := h
    exact Or.inr ⟨bs ++ tail, htail.symm, Or.inr (List.prefix_append bs tail)⟩

theorem supported_nil (h : dec.rest = []) : dec.Supported := by
  rw [Supported, h]
  trivial

/-- The first byte decides, unless it is that of one of two sized extensions. -/
theorem supported_of_prefix (h : dec.rest <+: b :: bs ∨ b :: bs <+: dec.rest)
    (hform : MsgPackForm.ofTag b.toNat = form) (hunused : form ≠ .unused) (h16 : form ≠ .sizedExt 2)
    (h32 : form ≠ .sizedExt 4) : dec.Supported := by
  rcases rest_cons h with hnil | ⟨tail, hrest, -⟩
  · exact supported_nil hnil
  · exact supported_of_form hrest hform hunused h16 h32

/-- The length of a sized extension, as far as it is there. -/
theorem take_of_comparable {tail : List UInt8} {n : ℕ} (h : tail <+: size ++ ds ∨ size ++ ds <+: tail)
    (hsize : size.length = n) (hlen : n ≤ tail.length) : tail.take n = size := by
  rcases h with ⟨more, hmore⟩ | ⟨more, rfl⟩
  · have htake := congrArg (List.take n) hmore
    rw [List.take_append_of_le_length hlen, List.take_left' hsize] at htake
    exact htake
  · rw [List.append_assoc, List.take_left' hsize]

/-- Anything but an extension is read wherever it is. -/
theorem MsgPackItem.Encodes.readable (h : MsgPackItem.Encodes bs item)
    (hitem : ∀ type bs, item ≠ .ext type bs) : MsgPackItem.Readable bs item := by
  refine ⟨h, fun dec hdec => ?_⟩
  obtain ⟨b, body, rfl, hbody⟩ := h
  obtain ⟨hunused, hsized⟩ := form_of_body hbody hitem
  exact supported_of_prefix hdec rfl hunused (hsized 2) (hsized 4)

/-- An extension that is read back is not padded, and its length is no negative number to the decoder. -/
theorem readable_extBytes (hlength : msgPackExtLength payload.length = payload.length)
    (hshort : payload.length < 2 ^ 15 ∨ 2 ^ 16 ≤ payload.length ∧ payload.length + 1 < 2 ^ 31) :
    MsgPackItem.Readable (msgPackExtBytes type payload) (.ext type.toInt payload) := by
  have hlen : payload.length < 2 ^ 32 := by omega
  have hpayload : msgPackExtPayload payload = payload := by
    rw [msgPackExtPayload, hlength, Nat.sub_self, List.replicate_zero, List.append_nil]
  have henc : MsgPackItem.Encodes (msgPackExtBytes type payload) _ := encodes_extBytes hlen
  rw [hpayload] at henc
  refine ⟨henc, fun dec hdec => ?_⟩
  have hvalue {k : ℕ} (hk : payload.length < 256 ^ k) :
      natOfBE (natToBE k payload.length) = payload.length := by
    rw [natOfBE_natToBE, Nat.mod_eq_of_lt hk]
  rw [msgPackExtBytes, msgPackExtHeader] at hdec
  split_ifs at hdec with hfix h8 h16
  · exact supported_of_prefix hdec (ofTag_fixExt hfix) MsgPackForm.noConfusion MsgPackForm.noConfusion
      MsgPackForm.noConfusion
  · exact supported_of_prefix hdec rfl MsgPackForm.noConfusion (fun h => by cases h) fun h => by cases h
  · rcases rest_cons hdec with hnil | ⟨tail, hrest, htail⟩
    · exact supported_nil hnil
    rw [Supported, hrest]
    refine ⟨by decide, fun _ hle => Or.inl ?_, fun hb => absurd hb (by decide)⟩
    rw [take_of_comparable htail length_natToBE hle, hvalue (by omega)]
    omega
  · rcases rest_cons hdec with hnil | ⟨tail, hrest, htail⟩
    · exact supported_nil hnil
    rw [Supported, hrest]
    refine ⟨by decide, fun hb => absurd hb (by decide), fun _ hle => Or.inl ?_⟩
    rw [take_of_comparable htail length_natToBE hle, hvalue (by omega)]
    omega

end Readable

namespace VlMsgPackDecoder

variable {dec : VlMsgPackDecoder} {bs : List UInt8} {item : MsgPackItem} {items items' : List MsgPackItem}

/-- **The decoder is before a text** of the items. -/
structure Before (dec : VlMsgPackDecoder) (bs : List UInt8) (items : List MsgPackItem) : Prop where
  le : dec.srcOffset ≤ dec.srcLen
  rest : ∃ tail, dec.rest = bs ++ tail
  chunked : Chunked MsgPackItem.Readable bs items

theorem Before.eq_nil (h : dec.Before bs []) : bs = [] := chunked_nil.mp h.chunked

/-- **Two lists of items** are read one after the other. -/
theorem Before.append (h : dec.Before bs (items ++ items')) : ∃ bs₁ bs₂, bs = bs₁ ++ bs₂ ∧
    dec.Before bs₁ items ∧ (dec.advance bs₁.length).Before bs₂ items' := by
  obtain ⟨hle, ⟨tail, hrest⟩, hchunked⟩ := h
  obtain ⟨bs₁, bs₂, h₁, h₂, rfl⟩ := chunked_append.mp hchunked
  rw [List.append_assoc] at hrest
  exact ⟨bs₁, bs₂, rfl, ⟨hle, ⟨_, hrest⟩, h₁⟩, advance_le hle hrest rfl, ⟨tail, rest_advance hrest⟩, h₂⟩

/-- **The next item** is read, whatever token is passed. -/
theorem Before.next (h : dec.Before bs (item :: items)) (tk : VlMsgPackIOToken) :
    ∃ chunk bs' tk', bs = chunk ++ bs' ∧ 0 < chunk.length ∧
      vlMsgPackIODecoderNext dec tk = .ok (true, dec.advance chunk.length, tk') ∧
      tk'.item dec.srcMem = item ∧ tk'.Inside dec.srcLen ∧
      (dec.advance chunk.length).Before bs' items := by
  have hsplit : dec.Before bs ([item] ++ items) := h
  obtain ⟨chunk, bs', rfl, hone, hrest⟩ := hsplit.append
  obtain ⟨hle, ⟨tail, htail⟩, hchunked⟩ := hone
  obtain ⟨chunk, nothing, hreadable, hnothing, rfl⟩ := chunked_cons.mp hchunked
  obtain rfl := chunked_nil.mp hnothing
  rw [List.append_nil] at htail hrest ⊢
  obtain ⟨henc, hsup⟩ := hreadable
  obtain ⟨tk', hnext, hitem, hin⟩ := next_of_encodes hle htail henc (hsup dec (Or.inr ⟨tail, htail.symm⟩)) tk
  refine ⟨chunk, bs', tk', rfl, ?_, hnext, hitem, hin, hrest⟩
  obtain ⟨b, body, rfl, -⟩ := henc
  exact Nat.succ_pos _

/-- **The text is cut short**: the source ends before the text of the items does. -/
structure Cut (dec : VlMsgPackDecoder) (bs : List UInt8) (items : List MsgPackItem) : Prop where
  le : dec.srcOffset ≤ dec.srcLen
  rest : dec.rest <+: bs
  short : dec.rest.length < bs.length
  chunked : Chunked MsgPackItem.Readable bs items

theorem Cut.ne_nil (h : dec.Cut bs items) : items ≠ [] := by
  rintro rfl
  have hshort := h.short
  rw [chunked_nil.mp h.chunked] at hshort
  exact Nat.not_lt_zero _ hshort

/-- **Two lists of items** are cut short in the first or in the second. -/
theorem Cut.append (h : dec.Cut bs (items ++ items')) : ∃ bs₁ bs₂, bs = bs₁ ++ bs₂ ∧
    (dec.Cut bs₁ items ∨ dec.Before bs₁ items ∧ (dec.advance bs₁.length).Cut bs₂ items') := by
  obtain ⟨hle, hrest, hshort, hchunked⟩ := h
  obtain ⟨bs₁, bs₂, h₁, h₂, rfl⟩ := chunked_append.mp hchunked
  refine ⟨bs₁, bs₂, rfl, ?_⟩
  rcases Nat.lt_or_ge dec.rest.length bs₁.length with hlt | hge
  · exact Or.inl ⟨hle, List.prefix_of_prefix_length_le hrest (List.prefix_append bs₁ bs₂) hlt.le, hlt, h₁⟩
  · obtain ⟨tail, htail⟩ := List.prefix_of_prefix_length_le (List.prefix_append bs₁ bs₂) hrest hge
    have hadvance := rest_advance htail.symm
    refine Or.inr ⟨⟨hle, ⟨tail, htail.symm⟩, h₁⟩, advance_le hle htail.symm rfl, ?_, ?_, h₂⟩
    · rw [hadvance]
      rwa [← htail, List.prefix_append_right_inj] at hrest
    · rw [hadvance]
      rw [← htail, List.length_append, List.length_append] at hshort
      omega

/-- An item that is cut short is not read. -/
theorem next_of_cut (ho : dec.srcOffset ≤ dec.srcLen) (hrest : dec.rest <+: bs)
    (hshort : dec.rest.length < bs.length) (h : MsgPackItem.Readable bs item) (tk : VlMsgPackIOToken) :
    ∃ dec' tk', vlMsgPackIODecoderNext dec tk = .ok (false, dec', tk') := by
  by_cases hnil : dec.rest = []
  · exact ⟨dec, tk, next_nil ho hnil⟩
  have hparses : dec.Parses (vlMsgPackIODecoderNext dec tk) _ := (h.2 dec (Or.inl hrest)).parses ho hnil
  obtain ⟨⟨more, dec', tk'⟩, hr, hiff, -⟩ := hparses.matchesFormat hnil
  obtain rfl : more = false := by
    refine Bool.eq_false_iff.mpr fun hmore => ?_
    obtain ⟨bs₀, tail, item₀, htail, henc⟩ := hiff.mp hmore
    obtain ⟨rest, hwhole⟩ := hrest
    rw [htail, List.append_assoc] at hwhole
    obtain ⟨rfl, -⟩ := henc.unique h.1 (hwhole.trans (List.append_nil bs).symm)
    rw [htail, List.length_append] at hshort
    omega
  exact ⟨dec', tk', hr⟩

/-- **The next item** is read, or it is cut short and the call fails. -/
theorem Cut.next (h : dec.Cut bs (item :: items)) (tk : VlMsgPackIOToken) :
    (∃ dec' tk', vlMsgPackIODecoderNext dec tk = .ok (false, dec', tk')) ∨
      ∃ chunk bs' tk', bs = chunk ++ bs' ∧ 0 < chunk.length ∧
        vlMsgPackIODecoderNext dec tk = .ok (true, dec.advance chunk.length, tk') ∧
        tk'.item dec.srcMem = item ∧ tk'.Inside dec.srcLen ∧ (dec.advance chunk.length).Cut bs' items := by
  have hsplit : dec.Cut bs ([item] ++ items) := h
  obtain ⟨bs₁, bs₂, rfl, hcut | ⟨hone, hrest⟩⟩ := hsplit.append
  · obtain ⟨chunk, nothing, hreadable, hnothing, rfl⟩ := chunked_cons.mp hcut.chunked
    obtain rfl := chunked_nil.mp hnothing
    have hbegins := hcut.rest
    have hshort := hcut.short
    rw [List.append_nil] at hbegins hshort
    exact Or.inl (next_of_cut hcut.le hbegins hshort hreadable tk)
  · obtain ⟨chunk, nothing, tk', rfl, hpos, hnext, hitem, hin, hnothing⟩ := hone.next tk
    obtain rfl := hnothing.eq_nil
    rw [List.append_nil] at hrest ⊢
    exact Or.inr ⟨chunk, bs₂, tk', rfl, hpos, hnext, hitem, hin, hrest⟩

end VlMsgPackDecoder

end VeritableLasagna
