import VeritableLasagna.MsgPack.Accepts

/-!
# The decoder stays inside its source

On any bytes, every call should read inside the source, leave the read offset in it, and, when it
returns a token, have moved the offset and point into the source (`StaysInside`). What breaks the
format breaks this too, on fewer inputs: `Contained` is the condition on the state before a call, and
along a run of contained calls the offset never leaves the source.
-/

namespace VeritableLasagna

namespace VlMsgPackDecoder

variable {dec : VlMsgPackDecoder} {tk : VlMsgPackIOToken} {n length : ℕ} {b : UInt8}
  {tail size ds : List UInt8}

/-- The result of a call is inside the source of the decoder it was made on. -/
def ResultInside (dec : VlMsgPackDecoder) (r : VlDecodeResult) : Prop :=
  r.2.1.srcMem = dec.srcMem ∧ r.2.1.srcLen = dec.srcLen ∧ r.2.1.srcOffset ≤ dec.srcLen ∧
    (r.1 = true → dec.srcOffset < r.2.1.srcOffset ∧ r.2.2.Inside dec.srcLen)

/-- **The call stays inside the source**: it reads no byte behind it, so it returns, the read offset
stays in the source, and a token comes with progress and points into the source. -/
def StaysInside (dec : VlMsgPackDecoder) (tk : VlMsgPackIOToken) : Prop :=
  Returns (vlMsgPackIODecoderNext dec tk) dec.ResultInside

/-- The check of an `EXT16` of length `n` fails, or the range of the token is in the source. -/
def ContainsExt16 (dec : VlMsgPackDecoder) (n : ℕ) : Prop :=
  n < 2 ^ 15 ∨ dec.srcOffset + 4 + n < 2 ^ 16 ∨
    dec.srcOffset + 4 + n + (2 ^ 32 - 2 ^ 16) ≤ dec.srcLen

/-- The sum in the check of an `EXT32` of length `n` does not overflow, and the check fails or the
range of the token is in the source. -/
def ContainsExt32 (dec : VlMsgPackDecoder) (n : ℕ) : Prop :=
  n + 1 ≠ 2 ^ 31 ∧
    (n < 2 ^ 31 ∨ dec.srcOffset + 6 + n < 2 ^ 32 ∨ dec.srcOffset + 6 + n ≤ dec.srcLen)

/-- What the bytes at the read offset have to be for the call to stay inside: no unused tag, unless
the token the caller passed is inside already, and no sized extension whose length slips past the
check. -/
def Contained (dec : VlMsgPackDecoder) (tk : VlMsgPackIOToken) : Prop :=
  match dec.rest with
  | [] => True
  | b :: tail =>
    (b.toNat = 0xC1 → tk.Inside dec.srcLen) ∧
    (b.toNat = VlMsgPackIO.ext16 → 2 ≤ tail.length → dec.ContainsExt16 (natOfBE (tail.take 2))) ∧
    (b.toNat = VlMsgPackIO.ext32 → 4 ≤ tail.length → dec.ContainsExt32 (natOfBE (tail.take 4)))

instance : Decidable (dec.ContainsExt16 n) := inferInstanceAs (Decidable (_ ∨ _))

instance : Decidable (dec.ContainsExt32 n) := inferInstanceAs (Decidable (_ ∧ _))

theorem contained_of_rest_nil (h : dec.rest = []) : dec.Contained tk := by
  rw [Contained, h]
  trivial

theorem contained_iff_of_rest_cons (h : dec.rest = b :: tail) : dec.Contained tk ↔
    (b.toNat = 0xC1 → tk.Inside dec.srcLen) ∧
    (b.toNat = VlMsgPackIO.ext16 → 2 ≤ tail.length → dec.ContainsExt16 (natOfBE (tail.take 2))) ∧
    (b.toNat = VlMsgPackIO.ext32 → 4 ≤ tail.length → dec.ContainsExt32 (natOfBE (tail.take 4))) := by
  rw [Contained, h]

instance : Decidable (dec.Contained tk) :=
  match h : dec.rest with
  | [] => .isTrue (contained_of_rest_nil h)
  | _ :: _ => decidable_of_iff _ (contained_iff_of_rest_cons h).symm

/-- What parses the format stays inside. -/
theorem Parses.staysInside (ho : dec.srcOffset ≤ dec.srcLen)
    (h : dec.Parses (vlMsgPackIODecoderNext dec tk) fun bs item => item.Encodes bs) :
    dec.StaysInside tk := by
  refine h.mono fun r hr => ?_
  rcases hr with ⟨bs, tail, item, hrest, henc, htrue, hdec, -, hin⟩ | ⟨-, k, tk', hk, rfl⟩
  · have hle := advance_le ho hrest rfl
    have hpos : 0 < bs.length := by
      obtain ⟨b, body, rfl, -⟩ := henc
      exact Nat.succ_pos _
    rw [ResultInside, hdec]
    exact ⟨rfl, rfl, hle, fun _ => ⟨Nat.lt_add_of_pos_right hpos, hin⟩⟩
  · rw [length_rest] at hk
    have hle : dec.srcOffset + k ≤ dec.srcLen := by omega
    exact ⟨rfl, rfl, hle, fun h => (by cases h)⟩

/-- An extension read from a decoder further on stays inside exactly when its check fails or its
range is in the source. -/
theorem ext_resultInside_iff {extSize : ℤ} (hle : (dec.advance n).srcOffset ≤ dec.srcLen)
    (hn : 0 < n) (htype : tk.type = .ext) :
    Returns (vlDecodeExt (dec.advance n) tk extSize length) dec.ResultInside ↔
      ((((dec.advance n).srcOffset + extSize) % 2 ^ 64).toNat ≤ (dec.advance n).srcLen →
        dec.srcOffset + n + 1 + length ≤ dec.srcLen) := by
  by_cases hcheck : (((dec.advance n).srcOffset + extSize) % 2 ^ 64).toNat ≤ (dec.advance n).srcLen
  · have hlen : (dec.advance n).rest.length = dec.srcLen - (dec.srcOffset + n) := length_rest
    cases hrest : (dec.advance n).rest with
    | nil =>
      rw [hrest, List.length_nil] at hlen
      rw [decodeExt_behind hcheck hrest]
      constructor
      · rintro ⟨r, hr, -⟩
        cases hr
      · intro h
        have hbound := h hcheck
        omega
    | cons t ts =>
      rw [decodeExt_passed hle hcheck hrest, advance_advance]
      constructor
      · rintro ⟨r, hr, -, -, hoff, -⟩ -
        obtain rfl := Except.ok.inj hr
        change dec.srcOffset + (n + (1 + length)) ≤ dec.srcLen at hoff
        omega
      · intro h
        have hbound := h hcheck
        refine returns_ok ⟨rfl, rfl, ?_, fun _ => ⟨?_, ?_⟩⟩
        · change dec.srcOffset + (n + (1 + length)) ≤ dec.srcLen
          omega
        · change dec.srcOffset < dec.srcOffset + (n + (1 + length))
          omega
        · simp only [VlMsgPackIOToken.Inside, htype]
          exact hbound
  · rw [decodeExt_eof hcheck]
    refine ⟨fun _ h => absurd h hcheck, fun _ => returns_ok ⟨rfl, rfl, hle, ?_⟩⟩
    intro h
    cases h

theorem staysInside_ext16 (ho : dec.srcOffset ≤ dec.srcLen) (hrest : dec.rest = b :: (size ++ ds))
    (hb : b.toNat = VlMsgPackIO.ext16) (hsize : size.length = 2) :
    dec.StaysInside tk ↔ dec.ContainsExt16 (natOfBE size) := by
  have hlen := length_rest.symm.trans (congrArg List.length hrest)
  rw [List.length_cons, List.length_append, hsize] at hlen
  have hle : (dec.advance 3).srcOffset ≤ (dec.advance 3).srcLen := by
    change dec.srcOffset + 3 ≤ dec.srcLen
    omega
  have hn := natOfBE_lt_of_two hsize
  have hlength : (Int.bmod (natOfBE size) (2 ^ 16) % 2 ^ 32).toNat =
      if natOfBE size < 2 ^ 15 then natOfBE size else natOfBE size + (2 ^ 32 - 2 ^ 16) := by
    rw [Int.bmod_def]
    split_ifs <;> omega
  rw [StaysInside, next_ext16 ho hrest hb hsize, ext_resultInside_iff hle (by omega) rfl,
    ext16_check hle hn, hlength]
  change (_ ∧ dec.srcOffset + 3 + natOfBE size + 1 ≤ dec.srcLen ∨ _ ∧
    2 ^ 16 ≤ dec.srcOffset + 3 + natOfBE size + 1 → _) ↔ _
  rw [ContainsExt16]
  split_ifs <;> omega

theorem staysInside_ext32 (ho : dec.srcOffset ≤ dec.srcLen) (hrest : dec.rest = b :: (size ++ ds))
    (hb : b.toNat = VlMsgPackIO.ext32) (hsize : size.length = 4) :
    dec.StaysInside tk ↔ dec.ContainsExt32 (natOfBE size) := by
  have hlen := length_rest.symm.trans (congrArg List.length hrest)
  rw [List.length_cons, List.length_append, hsize] at hlen
  have hle : (dec.advance 5).srcOffset ≤ (dec.advance 5).srcLen := by
    change dec.srcOffset + 5 ≤ dec.srcLen
    omega
  have hn := natOfBE_lt_of_four hsize
  have hiff := ext32_overflow hn
  rw [StaysInside, next_ext32 ho hrest hb hsize, ContainsExt32]
  split_ifs with hover
  · have hne := hiff.mp hover
    rw [ext_resultInside_iff hle (by omega) rfl, ext32_check hle hn, ext32_length hn]
    change (_ ∧ dec.srcOffset + 5 + natOfBE size + 1 ≤ dec.srcLen ∨ _ ∧
      2 ^ 32 ≤ dec.srcOffset + 5 + natOfBE size + 1 → _) ↔ _
    clear hiff hover
    omega
  · constructor
    · rintro ⟨r, hr, -⟩
      cases hr
    · rintro ⟨hne, -⟩
      exact absurd (hiff.mpr hne) hover

/-- **A call stays inside exactly from a contained state.** -/
theorem staysInside_iff (ho : dec.srcOffset ≤ dec.srcLen) :
    dec.StaysInside tk ↔ dec.Contained tk := by
  rw [Contained]
  split
  · rename_i hrest
    refine ⟨fun _ => trivial, fun _ => ⟨_, next_nil ho hrest, rfl, rfl, ho, ?_⟩⟩
    intro h
    cases h
  · rename_i b tail hrest
    have ho₁ := advance_one_le ho hrest
    have hrest' := rest_advance_one hrest
    by_cases hunused : b.toNat = 0xC1
    · have hnext : vlMsgPackIODecoderNext dec tk = .ok (true, dec.advance 1, tk) := by
        rw [next_cons ho hrest, hunused]
        rfl
      have hne16 : b.toNat ≠ VlMsgPackIO.ext16 := by
        rw [hunused]
        decide
      have hne32 : b.toNat ≠ VlMsgPackIO.ext32 := by
        rw [hunused]
        decide
      constructor
      · rintro ⟨r, hr, -, -, -, htrue⟩
        obtain rfl := Except.ok.inj (hnext.symm.trans hr)
        exact ⟨fun _ => (htrue rfl).2, fun h => absurd h hne16, fun h => absurd h hne32⟩
      · rintro ⟨h, -⟩
        exact ⟨_, hnext, rfl, rfl, ho₁, fun _ => ⟨Nat.lt_succ_self _, h hunused⟩⟩
    by_cases h16 : b.toNat = VlMsgPackIO.ext16
    · have hne32 : b.toNat ≠ VlMsgPackIO.ext32 := by
        rw [h16]
        decide
      by_cases hlen : 2 ≤ tail.length
      · have hsplit := hrest
        rw [← List.take_append_drop 2 tail] at hsplit
        rw [staysInside_ext16 ho hsplit h16 (List.length_take_of_le hlen)]
        exact ⟨fun h => ⟨fun h1 => absurd h1 hunused, fun _ _ => h, fun h1 => absurd h1 hne32⟩,
          fun h => h.2.1 h16 hlen⟩
      · refine ⟨fun _ => ⟨fun h1 => absurd h1 hunused, fun _ h => absurd h hlen,
          fun h1 => absurd h1 hne32⟩, fun _ => ?_⟩
        refine (parses_next ho hrest ?_).staysInside ho
        rw [h16]
        refine parses_ext16 ho₁ fun h => absurd h ?_
        rwa [hrest']
    by_cases h32 : b.toNat = VlMsgPackIO.ext32
    · by_cases hlen : 4 ≤ tail.length
      · have hsplit := hrest
        rw [← List.take_append_drop 4 tail] at hsplit
        rw [staysInside_ext32 ho hsplit h32 (List.length_take_of_le hlen)]
        exact ⟨fun h => ⟨fun h1 => absurd h1 hunused, fun h1 => absurd h1 h16, fun _ _ => h⟩,
          fun h => h.2.2 h32 hlen⟩
      · refine ⟨fun _ => ⟨fun h1 => absurd h1 hunused, fun h1 => absurd h1 h16,
          fun _ h => absurd h hlen⟩, fun _ => ?_⟩
        refine (parses_next ho hrest ?_).staysInside ho
        rw [h32]
        refine parses_ext32 ho₁ fun h => absurd h ?_
        rwa [hrest']
    refine ⟨fun _ => ⟨fun h => absurd h hunused, fun h => absurd h h16, fun h => absurd h h32⟩,
      fun _ => (parses_next ho hrest ?_).staysInside ho⟩
    exact parses_tag ho₁ b.toNat_lt hunused h16 h32

/-- A call that stays inside leaves a decoder whose offset is in the same source. -/
theorem StaysInside.next {r : VlDecodeResult} (h : dec.StaysInside tk)
    (hr : vlMsgPackIODecoderNext dec tk = .ok r) :
    r.2.1.srcMem = dec.srcMem ∧ r.2.1.srcLen = dec.srcLen ∧ r.2.1.srcOffset ≤ r.2.1.srcLen := by
  obtain ⟨hmem, hlen, hoff, -⟩ := h.of_ok hr
  exact ⟨hmem, hlen, hlen ▸ hoff⟩

end VlMsgPackDecoder

open VlMsgPackDecoder

/-! ### Runs -/

/-- Successive calls with one decoder and one token, whether they succeed or fail, each from a
contained state. -/
def vlMsgPackDecoderMachine : Machine (VlMsgPackDecoder × VlMsgPackIOToken) Unit where
  guard s _ := s.1.Contained s.2
  step s _ := do
    let r ← vlMsgPackIODecoderNext s.1 s.2
    return r.2

instance (s : VlMsgPackDecoder × VlMsgPackIOToken) (o : Unit) :
    Decidable (vlMsgPackDecoderMachine.guard s o) :=
  inferInstanceAs (Decidable (s.1.Contained s.2))

/-- One contained call keeps the read offset in the source. -/
theorem vlMsgPackDecoder_step {s s' : VlMsgPackDecoder × VlMsgPackIOToken}
    (ho : s.1.srcOffset ≤ s.1.srcLen) (hg : s.1.Contained s.2)
    (hstep : vlMsgPackDecoderMachine.step s () = .ok s') :
    s'.1.srcMem = s.1.srcMem ∧ s'.1.srcLen = s.1.srcLen ∧ s'.1.srcOffset ≤ s'.1.srcLen := by
  have hin := (staysInside_iff ho).mpr hg
  obtain ⟨r, hr, -⟩ := id hin
  have hs : vlMsgPackDecoderMachine.step s () = .ok r.2 := by
    change vlMsgPackIODecoderNext s.1 s.2 >>= _ = _
    rw [hr, ok_bind]
    rfl
  obtain rfl := Except.ok.inj (hs.symm.trans hstep)
  exact hin.next hr

end VeritableLasagna
