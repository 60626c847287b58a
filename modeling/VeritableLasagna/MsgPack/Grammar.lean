import VeritableLasagna.MsgPack.Decoder

/-!
# The decoder against the format

What a call of `vlMsgPackIODecoderNext` sees is the list of the bytes from the read offset on
(`rest`). `Parses` relates a computation of the decoder to a language of byte lists: it returns a
token for the one prefix in the language, or runs into the end of the file and there is none.
-/

namespace VeritableLasagna

namespace VlMsgPackIOToken

variable {tk : VlMsgPackIOToken} {mem : ByteMem} {n : ℕ}

/-- The item a token stands for, read from the source it points into. -/
def item (tk : VlMsgPackIOToken) (srcMem : ByteMem) : MsgPackItem :=
  match tk.type with
  | .nil => .nil
  | .bool => .bool tk.boolean
  | .int => .int tk.integer
  | .uint => .uint tk.uinteger
  | .float32 => .float32 tk.float32
  | .float64 => .float64 tk.float64
  | .string => .str (srcMem.slice tk.ptr tk.length)
  | .binary => .bin (srcMem.slice tk.ptr tk.length)
  | .array => .array tk.elements
  | .map => .map tk.keyValuePairs
  | .ext => .ext tk.extType (srcMem.slice tk.extPtr tk.extLength)

/-- The range the token points to lies in a source of `srcLen` bytes. -/
def Inside (tk : VlMsgPackIOToken) (srcLen : ℕ) : Prop :=
  match tk.type with
  | .string | .binary => tk.ptr + tk.length ≤ srcLen
  | .ext => tk.extPtr + tk.extLength ≤ srcLen
  | _ => True

instance : Decidable (tk.Inside n) := by
  unfold Inside
  split <;> infer_instance

end VlMsgPackIOToken

namespace VlMsgPackDecoder

variable {dec : VlMsgPackDecoder} {tk : VlMsgPackIOToken} {n length : ℕ}
  {P Q : List UInt8 → MsgPackItem → Prop} {m : Except Fault VlDecodeResult}

/-- The bytes still to be read. -/
def rest (dec : VlMsgPackDecoder) : List UInt8 :=
  dec.srcMem.slice dec.srcOffset (dec.srcLen - dec.srcOffset)

theorem length_rest : dec.rest.length = dec.srcLen - dec.srcOffset := ByteMem.length_slice

/-- A part of the rest is a range of the source. -/
theorem slice_of_rest {bs tail : List UInt8} (h : dec.rest = bs ++ tail) :
    dec.srcMem.slice dec.srcOffset bs.length = bs := by
  have hlen := congrArg List.length h
  rw [length_rest, List.length_append] at hlen
  rw [← ByteMem.take_slice (n := dec.srcLen - dec.srcOffset) (by omega)]
  change dec.rest.take bs.length = bs
  rw [h, List.take_left]

theorem rest_advance {bs tail : List UInt8} (h : dec.rest = bs ++ tail) :
    (dec.advance bs.length).rest = tail := by
  have hlen := congrArg List.length h
  rw [length_rest, List.length_append] at hlen
  have hsplit : dec.srcLen - dec.srcOffset =
      bs.length + (dec.srcLen - (dec.srcOffset + bs.length)) := by omega
  have hslice := slice_of_rest h
  rw [rest, hsplit, ByteMem.slice_add, hslice] at h
  exact List.append_cancel_left h

theorem advance_le {size tail : List UInt8} (ho : dec.srcOffset ≤ dec.srcLen)
    (hrest : dec.rest = size ++ tail) (hsize : size.length = n) :
    (dec.advance n).srcOffset ≤ (dec.advance n).srcLen := by
  have hlen := congrArg List.length hrest
  rw [length_rest, List.length_append] at hlen
  change dec.srcOffset + n ≤ dec.srcLen
  omega

theorem read_eq {bs tail : List UInt8} (ho : dec.srcOffset ≤ dec.srcLen)
    (h : dec.rest = bs ++ tail) : dec.read bs.length = .ok (bs, dec.advance bs.length) := by
  have hlen := congrArg List.length h
  rw [length_rest, List.length_append] at hlen
  rw [read, if_pos (by omega), slice_of_rest h]

/-- The check for `n` bytes, on sizes that do not wrap. -/
theorem eofCheck_eq {next : Except Fault VlDecodeResult} (ho : dec.srcOffset ≤ dec.srcLen)
    (hn : n < 2 ^ 63) : vlDecodeEofCheck dec tk n next =
      if n ≤ dec.rest.length then next else .ok (dec.eof tk) := by
  have hlt := dec.srcLen_lt
  rw [vlDecodeEofCheck, length_rest]
  split_ifs <;> first | rfl | omega

/-- The computation parses the language `P` from the read offset on: it reads the prefix of the
rest that is in `P` and returns a token for its item, or there is no such prefix and it reports an
unexpected end of the file. -/
def Parses (dec : VlMsgPackDecoder) (m : Except Fault VlDecodeResult)
    (P : List UInt8 → MsgPackItem → Prop) : Prop :=
  Returns m fun r =>
    (∃ bs tail item, dec.rest = bs ++ tail ∧ P bs item ∧ r.1 = true ∧
      r.2.1 = dec.advance bs.length ∧ r.2.2.item dec.srcMem = item ∧ r.2.2.Inside dec.srcLen) ∨
    (∀ bs tail item, dec.rest = bs ++ tail → ¬ P bs item) ∧
      ∃ n tk', n ≤ dec.rest.length ∧ r = (dec.advance n).eof tk'

theorem Parses.congr (h : dec.Parses m P) (hPQ : ∀ bs item, P bs item ↔ Q bs item) :
    dec.Parses m Q := by
  have hP : P = Q := by
    funext bs item
    exact propext (hPQ bs item)
  rwa [← hP]

/-- A token for which nothing more is to be read. -/
theorem parses_done {i : MsgPackItem} (hitem : tk.item dec.srcMem = i)
    (hin : tk.Inside dec.srcLen) :
    dec.Parses (.ok (true, dec, tk)) (MsgPackForm.value i).Body :=
  returns_ok (Or.inl ⟨[], dec.rest, _, rfl, ⟨rfl, rfl⟩, rfl, rfl, hitem, hin⟩)

/-- The check for `n` bytes splits the rest, or there is no prefix of `n` bytes or more. -/
theorem parses_eofCheck {next : Except Fault VlDecodeResult} (ho : dec.srcOffset ≤ dec.srcLen)
    (hn : n < 2 ^ 63) (hP : ∀ bs item, P bs item → n ≤ bs.length)
    (hnext : ∀ bs tail, dec.rest = bs ++ tail → bs.length = n → dec.Parses next P) :
    dec.Parses (vlDecodeEofCheck dec tk n next) P := by
  rw [eofCheck_eq ho hn]
  split_ifs with h
  · refine hnext (dec.rest.take n) (dec.rest.drop n) (List.take_append_drop _ _).symm ?_
    rw [List.length_take, Nat.min_eq_left h]
  · refine returns_ok (Or.inr ⟨fun bs tail item hrest hbs => h ?_, 0, tk, Nat.zero_le _, rfl⟩)
    have hlen := hP bs item hbs
    rw [hrest, List.length_append]
    omega

/-- **Number rule**: a number of `n` bytes, then what follows it. -/
theorem parses_number (tk : VlMsgPackIOToken)
    (next : ℕ → VlMsgPackDecoder → Except Fault VlDecodeResult)
    {P : List UInt8 → List UInt8 → MsgPackItem → Prop} (ho : dec.srcOffset ≤ dec.srcLen)
    (hn : n < 2 ^ 63)
    (hnext : ∀ size tail, dec.rest = size ++ tail → size.length = n →
      (dec.advance n).Parses (next (natOfBE size) (dec.advance n)) (P size)) :
    dec.Parses (vlDecodeNumber dec tk n next) fun bs item =>
      ∃ size ds, bs = size ++ ds ∧ size.length = n ∧ P size ds item := by
  refine parses_eofCheck ho hn ?_ fun size tail hrest hsize => ?_
  · rintro bs item ⟨size, ds, rfl, hsize, -⟩
    rw [List.length_append]
    omega
  · obtain ⟨r, hr, hres⟩ := hnext size tail hrest hsize
    have hread := read_eq ho hrest
    rw [hsize] at hread
    refine ⟨r, by rw [hread, ok_bind]; exact hr, ?_⟩
    have hrest' := rest_advance hrest
    rw [hsize] at hrest'
    rw [hrest'] at hres
    rcases hres with ⟨ds, tail', item, rfl, hP, htrue, hdec, hitem, hin⟩ | ⟨hno, k, tk', hk, hr'⟩
    · refine Or.inl ⟨size ++ ds, tail', item, ?_, ⟨size, ds, rfl, hsize, hP⟩, htrue, ?_, hitem, hin⟩
      · rw [hrest, List.append_assoc]
      · rw [hdec, List.length_append, hsize, advance, advance, advance, Nat.add_assoc]
    · refine Or.inr ⟨?_, n + k, tk', ?_, ?_⟩
      · rintro bs tail' item hbs ⟨size', ds, rfl, hsize', hP⟩
        rw [hrest, List.append_assoc] at hbs
        obtain ⟨rfl, rfl⟩ := List.append_inj hbs (hsize.trans hsize'.symm)
        exact hno ds tail' item rfl hP
      · rw [hrest, List.length_append]
        omega
      · rw [hr', advance, advance, advance, Nat.add_assoc]

/-- A value of `n` bytes, stored in one member of the token. -/
theorem parses_value {set : ℕ → VlMsgPackIOToken} {f : ℕ → MsgPackItem}
    (ho : dec.srcOffset ≤ dec.srcLen) (hn : n < 2 ^ 63)
    (hset : ∀ v mem, (set v).item mem = f v) (hin : ∀ v, (set v).Inside dec.srcLen) :
    dec.Parses (vlDecodeValue dec tk n set) (MsgPackForm.number n f).Body := by
  have hnum := parses_number tk (fun v dec => .ok (true, dec, set v))
    (P := fun size => (MsgPackForm.value (f (natOfBE size))).Body) ho hn
    fun size tail _ _ => parses_done (hset _ _) (hin (natOfBE size))
  refine hnum.congr fun bs item => ?_
  constructor
  · rintro ⟨size, ds, rfl, hsize, rfl, rfl⟩
    rw [List.append_nil]
    exact ⟨hsize, rfl⟩
  · rintro ⟨hlen, rfl⟩
    exact ⟨bs, [], (List.append_nil bs).symm, hlen, rfl, rfl⟩

/-- A signed value of `n` bytes. -/
theorem parses_signed {k : ℕ} (ho : dec.srcOffset ≤ dec.srcLen) (hn : n < 2 ^ 63)
    (htype : tk.type = .int) (hk : k = 2 ^ (8 * n)) :
    dec.Parses (vlDecodeValue dec tk n fun v => { tk with integer := Int.bmod v k })
      (MsgPackForm.number n (MsgPackForm.signed n)).Body := by
  refine parses_value ho hn (fun v mem => ?_) fun v => ?_
  · rw [hk]
    simp only [VlMsgPackIOToken.item, htype]
    rfl
  · simp only [VlMsgPackIOToken.Inside, htype]

/-- The payload of a string or a binary, of known length. -/
theorem parses_payload {f : List UInt8 → MsgPackItem} (ho : dec.srcOffset ≤ dec.srcLen)
    (hn : length < 2 ^ 63)
    (hf : tk.type = .string ∧ f = .str ∨ tk.type = .binary ∧ f = .bin) :
    dec.Parses (vlDecodePayload dec tk length) (MsgPackForm.bytes length f).Body := by
  refine parses_eofCheck ho hn (fun bs item h => h.1.ge) fun bs tail hrest hlen => ?_
  have hslice := slice_of_rest hrest
  have hle := congrArg List.length hrest
  rw [length_rest, List.length_append] at hle
  subst hlen
  refine returns_ok (Or.inl ⟨bs, tail, f bs, hrest, ⟨rfl, rfl⟩, rfl, rfl, ?_, ?_⟩)
  · rcases hf with ⟨ht, rfl⟩ | ⟨ht, rfl⟩ <;> simp only [VlMsgPackIOToken.item, ht, hslice]
  · have hin : dec.srcOffset + bs.length ≤ dec.srcLen := by omega
    rcases hf with ⟨ht, -⟩ | ⟨ht, -⟩ <;> simpa only [VlMsgPackIOToken.Inside, ht] using hin

/-- A length below `256 ^ 4`, then a payload. -/
private theorem natOfBE_lt_of_le {size : List UInt8} (h : size.length ≤ 4) :
    natOfBE size < 2 ^ 32 := by
  have hlt : natOfBE size < 256 ^ size.length := natOfBE_lt
  have hpow : 256 ^ size.length ≤ 256 ^ 4 := Nat.pow_le_pow_right (by omega) h
  omega

/-- A string or a binary with its length before it. The token may already hold the length. -/
theorem parses_sizedBytes {f : List UInt8 → MsgPackItem} {set : ℕ → VlMsgPackIOToken}
    (ho : dec.srcOffset ≤ dec.srcLen) (hn : n ≤ 4)
    (hf : ∀ v, (set v).type = .string ∧ f = .str ∨ (set v).type = .binary ∧ f = .bin) :
    dec.Parses (vlDecodeNumber dec tk n fun length dec => vlDecodePayload dec (set length) length)
      (MsgPackForm.sizedBytes n f).Body := by
  have hnum := parses_number tk (fun length dec => vlDecodePayload dec (set length) length)
    (P := fun size => (MsgPackForm.bytes (natOfBE size) f).Body) ho (by omega : n < 2 ^ 63) ?_
  · refine hnum.congr fun bs item => ?_
    constructor
    · rintro ⟨size, ds, rfl, hsize, hlen, rfl⟩
      exact ⟨size, ds, rfl, hsize, hlen, rfl⟩
    · rintro ⟨size, ds, rfl, hsize, hlen, rfl⟩
      exact ⟨size, ds, rfl, hsize, hlen, rfl⟩
  · intro size tail hrest hsize
    have hlt := natOfBE_lt_of_le (hsize.le.trans hn)
    exact parses_payload (advance_le ho hrest hsize) (by omega) (hf _)

/-- An extension of `n` bytes, when the check passes exactly if the type and the payload are there,
and the token then receives the length `n`. -/
theorem parses_ext {size : ℤ} (ho : dec.srcOffset ≤ dec.srcLen) (htype : tk.type = .ext)
    (hcheck : ((dec.srcOffset + size) % 2 ^ 64).toNat ≤ dec.srcLen ↔ n + 1 ≤ dec.rest.length)
    (hlength : n + 1 ≤ dec.rest.length → length = n) :
    dec.Parses (vlDecodeExt dec tk size length) (MsgPackForm.ext n).Body := by
  rw [vlDecodeExt, vlDecodeEofCheck]
  split_ifs with h
  · refine returns_ok (Or.inr ⟨?_, 0, _, Nat.zero_le _, rfl⟩)
    rintro bs tail item hrest ⟨t, ds, rfl, rfl, -⟩
    refine absurd (hcheck.mpr ?_) (by omega)
    rw [hrest, List.length_append, List.length_cons]
    omega
  · have hle := hcheck.mp (by omega)
    obtain rfl := hlength hle
    obtain ⟨t, ts, hrest⟩ := List.exists_cons_of_length_pos (by omega : 0 < dec.rest.length)
    have hts : length ≤ ts.length := by
      rw [hrest, List.length_cons] at hle
      omega
    have hone : dec.rest = [t] ++ ts := hrest
    have hall : dec.rest = (t :: ts.take length) ++ ts.drop length := by
      rw [hrest, List.cons_append, List.take_append_drop]
    have hslice := slice_of_rest ((rest_advance hone).trans (List.take_append_drop length ts).symm)
    have hlen : (ts.take length).length = length := List.length_take_of_le hts
    have hread := read_eq ho hone
    rw [List.length_singleton] at hread hslice
    rw [hlen] at hslice
    rw [hread, ok_bind]
    refine returns_ok (Or.inl ⟨_, _, _, hall, ⟨t, ts.take length, rfl, hlen, rfl⟩, rfl, ?_, ?_, ?_⟩)
    · rw [List.length_cons, hlen, advance, advance, advance, Nat.add_assoc, Nat.add_comm 1]
    · have hslice' : dec.srcMem.slice (dec.srcOffset + 1) length = ts.take length := hslice
      have ht : natOfBE [t] = t.toNat := by simp [natOfBE, natOfLE]
      simp only [VlMsgPackIOToken.item, advance, htype, ht, hslice']
      rfl
    · have hlen := congrArg List.length hrest
      rw [length_rest, List.length_cons] at hlen
      have hin : dec.srcOffset + 1 + length ≤ dec.srcLen := by omega
      simpa only [VlMsgPackIOToken.Inside, htype, advance] using hin

/-- An extension with its length before it: the check of the payload may use another number than the
length, as long as it decides the same. -/
theorem parses_sizedExt {next : ℕ → VlMsgPackDecoder → Except Fault VlDecodeResult}
    (ho : dec.srcOffset ≤ dec.srcLen) (hn : n ≤ 4)
    (hnext : ∀ size tail, dec.rest = size ++ tail → size.length = n →
      (dec.advance n).Parses (next (natOfBE size) (dec.advance n))
        (MsgPackForm.ext (natOfBE size)).Body) :
    dec.Parses (vlDecodeNumber dec tk n next) (MsgPackForm.sizedExt n).Body := by
  refine (parses_number tk next ho (by omega) hnext).congr fun bs item => ?_
  constructor
  · rintro ⟨size, ds, rfl, hsize, t, es, rfl, hlen, rfl⟩
    exact ⟨size, t, es, rfl, hsize, hlen, rfl⟩
  · rintro ⟨size, t, es, rfl, hsize, hlen, rfl⟩
    exact ⟨size, _, rfl, hsize, t, es, rfl, hlen, rfl⟩

/-- The check for an extension of `length` bytes, on lengths that do not wrap. -/
theorem extCheck_iff (ho : dec.srcOffset ≤ dec.srcLen) (hn : length < 2 ^ 32) :
    ((dec.srcOffset + ((length + 1 : ℕ) : ℤ)) % 2 ^ 64).toNat ≤ dec.srcLen ↔
      length + 1 ≤ dec.rest.length := by
  have hlt := dec.srcLen_lt
  rw [length_rest]
  omega

/-- The default case, on the tags that are left for it. -/
theorem parses_default {typeTag : ℕ} (ho : dec.srcOffset ≤ dec.srcLen) (htag : typeTag < 256)
    (hfree : typeTag < 0xC0 ∨ 0xE0 ≤ typeTag) :
    dec.Parses (vlDecodeDefault dec tk typeTag) (MsgPackForm.ofTag typeTag).Body := by
  have hint : typeTag ≥ 0xE0 → Int.bmod typeTag (2 ^ 8) = (typeTag : ℤ) - 256 := by
    intro h
    rw [Int.bmod_def]
    split_ifs <;> omega
  have hwf : ∀ n, typeTag % n < 2 ^ 63 := fun n => (Nat.mod_le _ _).trans_lt (by omega)
  rw [MsgPackForm.ofTag_masked hfree, vlDecodeDefault]
  rcases (by omega : typeTag ≤ 0x7F ∨ (0x80 ≤ typeTag ∧ typeTag ≤ 0x8F) ∨
    (0x90 ≤ typeTag ∧ typeTag ≤ 0x9F) ∨ (0xA0 ≤ typeTag ∧ typeTag ≤ 0xBF) ∨ 0xE0 ≤ typeTag)
    with h | h | h | h | h
  · rw [if_pos h, if_pos h]
    have hval : (typeTag : ℤ) % 0x80 = typeTag := by omega
    exact parses_done (congrArg MsgPackItem.int hval) trivial
  · rw [if_neg (by omega), if_neg (by omega), if_pos h, if_neg (by omega), if_pos h.2]
    have hval : typeTag % 0x10 = typeTag - 0x80 := by omega
    exact parses_done (congrArg MsgPackItem.map hval) trivial
  · rw [if_neg (by omega), if_neg (by omega), if_neg (by omega), if_pos h, if_neg (by omega),
      if_neg (by omega), if_pos h.2]
    have hval : typeTag % 0x10 = typeTag - 0x90 := by omega
    exact parses_done (congrArg MsgPackItem.array hval) trivial
  · rw [if_neg (by omega), if_neg (by omega), if_neg (by omega), if_neg (by omega), if_pos h,
      if_neg (by omega), if_neg (by omega), if_neg (by omega), if_pos h.2]
    have hlen : typeTag % 0x20 = typeTag - 0xA0 := by omega
    rw [← hlen]
    exact parses_payload ho (hwf _) (Or.inl ⟨rfl, rfl⟩)
  · rw [if_neg (by omega), if_pos h, if_neg (by omega), if_neg (by omega), if_neg (by omega),
      if_neg (by omega)]
    rw [hint h]
    exact parses_done rfl trivial

/-- **Every case of the switch parses its form**, but for the unused tag and the two extensions
whose length is read into a signed variable. -/
theorem parses_tag {typeTag : ℕ} (ho : dec.srcOffset ≤ dec.srcLen) (htag : typeTag < 256)
    (hunused : typeTag ≠ 0xC1) (h16 : typeTag ≠ VlMsgPackIO.ext16)
    (h32 : typeTag ≠ VlMsgPackIO.ext32) :
    dec.Parses (vlDecodeTag dec tk typeTag) (MsgPackForm.ofTag typeTag).Body := by
  unfold vlDecodeTag
  split
  · exact parses_done rfl trivial
  · exact parses_done rfl trivial
  · exact parses_done rfl trivial
  · exact parses_sizedBytes ho (by omega) fun _ => Or.inr ⟨rfl, rfl⟩
  · exact parses_sizedBytes ho (by omega) fun _ => Or.inr ⟨rfl, rfl⟩
  · exact parses_sizedBytes ho (by omega) fun _ => Or.inr ⟨rfl, rfl⟩
  · refine parses_sizedExt ho (by omega) fun size tail hrest hsize => ?_
    have hlt := natOfBE_lt_of_le (hsize.le.trans (by omega : 1 ≤ 4))
    have ho' := advance_le ho hrest hsize
    exact parses_ext ho' rfl (extCheck_iff ho' hlt) fun _ => rfl
  · exact absurd rfl h16
  · exact absurd rfl h32
  · exact parses_value ho (by omega) (fun _ _ => rfl) fun _ => trivial
  · exact parses_value ho (by omega) (fun _ _ => rfl) fun _ => trivial
  · exact parses_value ho (by omega) (fun _ _ => rfl) fun _ => trivial
  · exact parses_value ho (by omega) (fun _ _ => rfl) fun _ => trivial
  · exact parses_value ho (by omega) (fun _ _ => rfl) fun _ => trivial
  · exact parses_value ho (by omega) (fun _ _ => rfl) fun _ => trivial
  · exact parses_signed ho (by omega) rfl (by norm_num)
  · exact parses_signed ho (by omega) rfl (by norm_num)
  · exact parses_signed ho (by omega) rfl (by norm_num)
  · exact parses_signed ho (by omega) rfl (by norm_num)
  · exact parses_ext ho rfl (extCheck_iff ho (by decide)) fun _ => rfl
  · exact parses_ext ho rfl (extCheck_iff ho (by decide)) fun _ => rfl
  · exact parses_ext ho rfl (extCheck_iff ho (by decide)) fun _ => rfl
  · exact parses_ext ho rfl (extCheck_iff ho (by decide)) fun _ => rfl
  · exact parses_ext ho rfl (extCheck_iff ho (by decide)) fun _ => rfl
  · exact parses_sizedBytes ho (by omega) fun _ => Or.inl ⟨rfl, rfl⟩
  · exact parses_sizedBytes ho (by omega) fun _ => Or.inl ⟨rfl, rfl⟩
  · exact parses_sizedBytes ho (by omega) fun _ => Or.inl ⟨rfl, rfl⟩
  · exact parses_value ho (by omega) (fun _ _ => rfl) fun _ => trivial
  · exact parses_value ho (by omega) (fun _ _ => rfl) fun _ => trivial
  · exact parses_value ho (by omega) (fun _ _ => rfl) fun _ => trivial
  · exact parses_value ho (by omega) (fun _ _ => rfl) fun _ => trivial
  · refine parses_default ho htag ?_
    by_contra hfree
    have hlo : 0xC0 ≤ typeTag := by omega
    have hhi : typeTag < 0xE0 := by omega
    interval_cases typeTag <;> contradiction

end VlMsgPackDecoder

end VeritableLasagna
