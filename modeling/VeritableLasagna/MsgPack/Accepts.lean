import VeritableLasagna.MsgPack.Grammar

/-!
# What the decoder accepts

`vlMsgPackIODecoderNext` should return a token exactly when the bytes at the read offset start with
an item of the format (`MatchesFormat`). Three tags break this. The tag the format never uses falls
through the default case, and the call returns `VL_TRUE` with the token it was given. The lengths of
`EXT16` and `EXT32` are read into signed variables, so from `2 ^ 15` and `2 ^ 31 - 1` on the check
for the end of the file adds a number that is negative, or overflows. `Supported` is the condition on
the bytes at the read offset under which nothing of this shows.
-/

namespace VeritableLasagna

namespace VlMsgPackDecoder

variable {dec : VlMsgPackDecoder} {tk : VlMsgPackIOToken} {n : ℕ} {b : UInt8}
  {tail size ds : List UInt8}

/-! ### The first byte -/

theorem next_nil (ho : dec.srcOffset ≤ dec.srcLen) (h : dec.rest = []) :
    vlMsgPackIODecoderNext dec tk = .ok (false, dec, tk) := by
  have hlen := congrArg List.length h
  have hlt := dec.srcLen_lt
  rw [length_rest, List.length_nil] at hlen
  rw [vlMsgPackIODecoderNext, if_pos (by omega)]

theorem advance_advance {k : ℕ} : (dec.advance n).advance k = dec.advance (n + k) := by
  rw [advance, advance, advance, Nat.add_assoc]

theorem rest_advance_one (h : dec.rest = b :: tail) : (dec.advance 1).rest = tail := by
  have h' : dec.rest = [b] ++ tail := h
  exact rest_advance h'

theorem advance_one_le (ho : dec.srcOffset ≤ dec.srcLen) (h : dec.rest = b :: tail) :
    dec.srcOffset + 1 ≤ dec.srcLen := by
  have h' : dec.rest = [b] ++ tail := h
  exact advance_le ho h' rfl

theorem read_one (ho : dec.srcOffset ≤ dec.srcLen) (h : dec.rest = b :: tail) :
    dec.read 1 = .ok ([b], dec.advance 1) := by
  have h' : dec.rest = [b] ++ tail := h
  exact read_eq ho h'

theorem next_cons (ho : dec.srcOffset ≤ dec.srcLen) (h : dec.rest = b :: tail) :
    vlMsgPackIODecoderNext dec tk = vlDecodeTag (dec.advance 1) tk b.toNat := by
  have hlen := congrArg List.length h
  have hlt := dec.srcLen_lt
  have hb : natOfBE [b] = b.toNat := by simp [natOfBE, natOfLE]
  rw [length_rest, List.length_cons] at hlen
  rw [vlMsgPackIODecoderNext, if_neg (by omega), read_one ho h, ok_bind]
  simp only [hb]

/-- The tag, then what its case of the switch parses. -/
theorem parses_next (ho : dec.srcOffset ≤ dec.srcLen) (hrest : dec.rest = b :: tail)
    (h : (dec.advance 1).Parses (vlDecodeTag (dec.advance 1) tk b.toNat)
      (MsgPackForm.ofTag b.toNat).Body) :
    dec.Parses (vlMsgPackIODecoderNext dec tk) fun bs item => item.Encodes bs := by
  have hrest' : (dec.advance 1).rest = tail := rest_advance_one hrest
  rw [next_cons ho hrest]
  refine h.mono fun r hr => ?_
  rw [hrest'] at hr
  rcases hr with ⟨bs, tail', item, rfl, hbody, htrue, hdec, hitem, hin⟩ | ⟨hno, k, tk', hk, rfl⟩
  · refine Or.inl ⟨b :: bs, tail', item, hrest, ⟨b, bs, rfl, hbody⟩, htrue, ?_, hitem, hin⟩
    rw [hdec, List.length_cons, advance, advance, advance, Nat.add_assoc, Nat.add_comm 1]
  · refine Or.inr ⟨?_, 1 + k, tk', ?_, ?_⟩
    · rintro bs tail' item hbs ⟨b', body, rfl, hbody⟩
      rw [hrest] at hbs
      obtain ⟨rfl, htail⟩ := List.cons.inj hbs
      exact hno body tail' item htail hbody
    · rw [hrest, List.length_cons]
      omega
    · rw [advance, advance, advance, Nat.add_assoc]

/-! ### The sized extensions -/

/-- The call decides an `EXT16` item of length `n` as the format does. -/
def DecidesExt16 (dec : VlMsgPackDecoder) (n : ℕ) : Prop :=
  n < 2 ^ 15 ∨ dec.srcOffset + 4 + n < 2 ^ 16 ∧ dec.srcLen < dec.srcOffset + 4 + n

/-- The call decides an `EXT32` item of length `n` as the format does. -/
def DecidesExt32 (dec : VlMsgPackDecoder) (n : ℕ) : Prop :=
  n + 1 < 2 ^ 31 ∨
    2 ^ 31 ≤ n ∧ (2 ^ 32 ≤ dec.srcOffset + 6 + n ↔ dec.srcOffset + 6 + n ≤ dec.srcLen)

/-- The bytes at the read offset start with a tag of the format, and with no extension whose length
the decoder takes for a negative one to a visible effect. -/
def Supported (dec : VlMsgPackDecoder) : Prop :=
  match dec.rest with
  | [] => True
  | b :: tail =>
    b.toNat ≠ 0xC1 ∧
    (b.toNat = VlMsgPackIO.ext16 → 2 ≤ tail.length → dec.DecidesExt16 (natOfBE (tail.take 2))) ∧
    (b.toNat = VlMsgPackIO.ext32 → 4 ≤ tail.length → dec.DecidesExt32 (natOfBE (tail.take 4)))

instance : Decidable dec.Supported := by
  unfold Supported DecidesExt16 DecidesExt32
  split <;> infer_instance

theorem natOfBE_lt_of_two (h : size.length = 2) : natOfBE size < 2 ^ 16 := by
  have hlt : natOfBE size < 256 ^ size.length := natOfBE_lt
  rw [h] at hlt
  omega

theorem natOfBE_lt_of_four (h : size.length = 4) : natOfBE size < 2 ^ 32 := by
  have hlt : natOfBE size < 256 ^ size.length := natOfBE_lt
  rw [h] at hlt
  omega

/-- The offset check of the two sized extensions: `extLen` is `n` as a signed number. -/
theorem ext16_check (ho : dec.srcOffset ≤ dec.srcLen) (hn : n < 2 ^ 16) :
    ((dec.srcOffset + (Int.bmod n (2 ^ 16) + 1)) % 2 ^ 64).toNat ≤ dec.srcLen ↔
      n < 2 ^ 15 ∧ dec.srcOffset + n + 1 ≤ dec.srcLen ∨
        2 ^ 15 ≤ n ∧ 2 ^ 16 ≤ dec.srcOffset + n + 1 := by
  have hlt := dec.srcLen_lt
  rw [Int.bmod_def]
  split_ifs <;> omega

theorem ext16_length (hn : n < 2 ^ 16) :
    (Int.bmod n (2 ^ 16) % 2 ^ 32).toNat = n ↔ n < 2 ^ 15 := by
  rw [Int.bmod_def]
  split_ifs <;> omega

theorem ext32_check (ho : dec.srcOffset ≤ dec.srcLen) (hn : n < 2 ^ 32) :
    ((dec.srcOffset + (Int.bmod n (2 ^ 32) + 1)) % 2 ^ 64).toNat ≤ dec.srcLen ↔
      n < 2 ^ 31 ∧ dec.srcOffset + n + 1 ≤ dec.srcLen ∨
        2 ^ 31 ≤ n ∧ 2 ^ 32 ≤ dec.srcOffset + n + 1 := by
  have hlt := dec.srcLen_lt
  rw [Int.bmod_def]
  split_ifs <;> omega

theorem ext32_length (hn : n < 2 ^ 32) : (Int.bmod n (2 ^ 32) % 2 ^ 32).toNat = n := by
  rw [Int.bmod_def]
  split_ifs <;> omega

theorem ext32_overflow (hn : n < 2 ^ 32) :
    Int.bmod n (2 ^ 32) + 1 < 2 ^ 31 ↔ n + 1 ≠ 2 ^ 31 := by
  rw [Int.bmod_def]
  split_ifs <;> omega

/-- The two sized extensions with a signed length, where the call decides them as the format. -/
theorem parses_ext16 (ho : dec.srcOffset + 1 ≤ dec.srcLen)
    (h : 2 ≤ (dec.advance 1).rest.length →
      dec.DecidesExt16 (natOfBE ((dec.advance 1).rest.take 2))) :
    (dec.advance 1).Parses (vlDecodeExt16 (dec.advance 1) tk) (MsgPackForm.sizedExt 2).Body := by
  refine parses_sizedExt ho (by omega) fun size ds hrest hsize => ?_
  have hle := advance_le ho hrest hsize
  have hoff : ((dec.advance 1).advance 2).srcOffset = dec.srcOffset + 3 := rfl
  have hsrc : ((dec.advance 1).advance 2).srcLen = dec.srcLen := rfl
  have hn := natOfBE_lt_of_two hsize
  rw [hrest, List.length_append, hsize, List.take_left' hsize, DecidesExt16] at h
  have hdec := h (Nat.le_add_right _ _)
  refine parses_ext hle rfl ?_ ?_
  · rw [ext16_check hle hn, length_rest, hoff, hsrc]
    omega
  · rw [ext16_length hn, length_rest, hoff, hsrc]
    omega

theorem parses_ext32 (ho : dec.srcOffset + 1 ≤ dec.srcLen)
    (h : 4 ≤ (dec.advance 1).rest.length →
      dec.DecidesExt32 (natOfBE ((dec.advance 1).rest.take 4))) :
    (dec.advance 1).Parses (vlDecodeExt32 (dec.advance 1) tk) (MsgPackForm.sizedExt 4).Body := by
  refine parses_sizedExt ho (by omega) fun size ds hrest hsize => ?_
  have hle := advance_le ho hrest hsize
  have hoff : ((dec.advance 1).advance 4).srcOffset = dec.srcOffset + 5 := rfl
  have hsrc : ((dec.advance 1).advance 4).srcLen = dec.srcLen := rfl
  have hn := natOfBE_lt_of_four hsize
  rw [hrest, List.length_append, hsize, List.take_left' hsize, DecidesExt32] at h
  have hdec := h (Nat.le_add_right _ _)
  dsimp only
  rw [if_pos ((ext32_overflow hn).mpr (by omega))]
  refine parses_ext hle rfl ?_ fun _ => ext32_length hn
  rw [ext32_check hle hn, length_rest, hoff, hsrc]
  omega

/-- **Where it is supported, the decoder parses the format.** -/
theorem Supported.parses (ho : dec.srcOffset ≤ dec.srcLen) (h : dec.Supported)
    (hne : dec.rest ≠ []) :
    dec.Parses (vlMsgPackIODecoderNext dec tk) fun bs item => item.Encodes bs := by
  obtain ⟨b, tail, hrest⟩ := List.exists_cons_of_ne_nil hne
  rw [Supported, hrest] at h
  obtain ⟨hunused, h16, h32⟩ := h
  have hrest' : (dec.advance 1).rest = tail := rest_advance_one hrest
  have ho' : dec.srcOffset + 1 ≤ dec.srcLen := advance_one_le ho hrest
  rw [← hrest'] at h16 h32
  refine parses_next ho hrest ?_
  by_cases htag16 : b.toNat = VlMsgPackIO.ext16
  · rw [htag16]
    exact parses_ext16 ho' (h16 htag16)
  by_cases htag32 : b.toNat = VlMsgPackIO.ext32
  · rw [htag32]
    exact parses_ext32 ho' (h32 htag32)
  exact parses_tag ho' b.toNat_lt hunused htag16 htag32

/-! ### The format decided -/

/-- **The call reads one token of the format.** It returns `VL_TRUE` exactly when the rest of the
source starts with an item, and then the token is that item, points into the source, and the read
offset moves past the item and nothing else changes. At the end of the source the decoder is
unchanged; before it, `VL_FALSE` comes with an error. -/
def MatchesFormat (dec : VlMsgPackDecoder) (tk : VlMsgPackIOToken) : Prop :=
  Returns (vlMsgPackIODecoderNext dec tk) fun r =>
    (r.1 = true ↔ ∃ bs tail item, dec.rest = bs ++ tail ∧ MsgPackItem.Encodes bs item) ∧
    (∀ bs tail item, dec.rest = bs ++ tail → MsgPackItem.Encodes bs item →
      r.2.1 = dec.advance bs.length ∧ r.2.2.item dec.srcMem = item ∧ r.2.2.Inside dec.srcLen) ∧
    (dec.rest = [] → r.2.1 = dec) ∧
    (r.1 = false → dec.rest ≠ [] → r.2.1.error ≠ .none)

/-- What parses the format matches it. -/
theorem Parses.matchesFormat (hne : dec.rest ≠ [])
    (h : dec.Parses (vlMsgPackIODecoderNext dec tk) fun bs item => item.Encodes bs) :
    dec.MatchesFormat tk := by
  refine h.mono fun r hr => ?_
  rcases hr with ⟨bs, tail, item, hrest, henc, htrue, hdec, hitem, hin⟩ | ⟨hno, k, tk', hk, rfl⟩
  · refine ⟨⟨fun _ => ⟨bs, tail, item, hrest, henc⟩, fun _ => htrue⟩, ?_, fun h => absurd h hne, ?_⟩
    · intro bs' tail' item' hrest' henc'
      obtain ⟨rfl, rfl⟩ := henc.unique henc' (hrest.symm.trans hrest')
      exact ⟨hdec, hitem, hin⟩
    · intro hfalse
      rw [htrue] at hfalse
      cases hfalse
  · refine ⟨⟨fun h => (by cases h), ?_⟩, ?_, fun h => absurd h hne, fun _ _ h => (by cases h)⟩
    · rintro ⟨bs, tail, item, hrest, henc⟩
      exact absurd henc (hno bs tail item hrest)
    · intro bs tail item hrest henc
      exact absurd henc (hno bs tail item hrest)

/-- The number is there, so the check passes and it is read. -/
theorem decodeNumber_eq {next : ℕ → VlMsgPackDecoder → Except Fault VlDecodeResult}
    (ho : dec.srcOffset ≤ dec.srcLen) (hrest : dec.rest = size ++ ds) (hsize : size.length = n)
    (hn : n < 2 ^ 63) :
    vlDecodeNumber dec tk n next = next (natOfBE size) (dec.advance n) := by
  subst hsize
  rw [vlDecodeNumber, eofCheck_eq ho hn, if_pos, read_eq ho hrest, ok_bind]
  rw [hrest, List.length_append]
  exact Nat.le_add_right _ _

/-- The header of a sized extension is there: what is left of the call is to read the extension. -/
theorem next_ext16 (ho : dec.srcOffset ≤ dec.srcLen) (hrest : dec.rest = b :: (size ++ ds))
    (hb : b.toNat = VlMsgPackIO.ext16) (hsize : size.length = 2) :
    vlMsgPackIODecoderNext dec tk = vlDecodeExt (dec.advance 3) { tk with type := .ext }
      (Int.bmod (natOfBE size) (2 ^ 16) + 1) (Int.bmod (natOfBE size) (2 ^ 16) % 2 ^ 32).toNat := by
  have ho₁ : (dec.advance 1).srcOffset ≤ (dec.advance 1).srcLen := advance_one_le ho hrest
  have htag : vlDecodeTag (dec.advance 1) tk VlMsgPackIO.ext16 = vlDecodeExt16 (dec.advance 1) tk :=
    rfl
  rw [next_cons ho hrest, hb, htag, vlDecodeExt16,
    decodeNumber_eq ho₁ (rest_advance_one hrest) hsize (by omega), advance_advance]

theorem next_ext32 (ho : dec.srcOffset ≤ dec.srcLen) (hrest : dec.rest = b :: (size ++ ds))
    (hb : b.toNat = VlMsgPackIO.ext32) (hsize : size.length = 4) :
    vlMsgPackIODecoderNext dec tk = if Int.bmod (natOfBE size) (2 ^ 32) + 1 < 2 ^ 31 then
        vlDecodeExt (dec.advance 5) { tk with type := .ext }
          (Int.bmod (natOfBE size) (2 ^ 32) + 1) (Int.bmod (natOfBE size) (2 ^ 32) % 2 ^ 32).toNat
      else .error .signedOverflow := by
  have ho₁ : (dec.advance 1).srcOffset ≤ (dec.advance 1).srcLen := advance_one_le ho hrest
  have htag : vlDecodeTag (dec.advance 1) tk VlMsgPackIO.ext32 = vlDecodeExt32 (dec.advance 1) tk :=
    rfl
  rw [next_cons ho hrest, hb, htag, vlDecodeExt32,
    decodeNumber_eq ho₁ (rest_advance_one hrest) hsize (by omega), advance_advance]

/-- The check of an extension fails. -/
theorem decodeExt_eof {extSize : ℤ} {length : ℕ}
    (hcheck : ¬ ((dec.srcOffset + extSize) % 2 ^ 64).toNat ≤ dec.srcLen) :
    vlDecodeExt dec tk extSize length = .ok (dec.eof tk) :=
  if_pos (Nat.lt_of_not_le hcheck)

/-- The check of an extension passes at the end of the source: the type is read behind it. -/
theorem decodeExt_behind {extSize : ℤ} {length : ℕ}
    (hcheck : ((dec.srcOffset + extSize) % 2 ^ 64).toNat ≤ dec.srcLen) (hrest : dec.rest = []) :
    vlDecodeExt dec tk extSize length = .error .outOfBounds := by
  have hlen := congrArg List.length hrest
  rw [length_rest, List.length_nil] at hlen
  rw [vlDecodeExt, vlDecodeEofCheck, if_neg (by omega), read, if_neg (by omega)]
  rfl

/-- The check of an extension passes inside the source. -/
theorem decodeExt_passed {extSize : ℤ} {length : ℕ} (ho : dec.srcOffset ≤ dec.srcLen)
    (hcheck : ((dec.srcOffset + extSize) % 2 ^ 64).toNat ≤ dec.srcLen)
    (hrest : dec.rest = b :: tail) :
    vlDecodeExt dec tk extSize length = .ok (true, dec.advance (1 + length),
      { tk with extType := Int.bmod b.toNat (2 ^ 8), extPtr := dec.srcOffset + 1,
                extLength := length }) := by
  have hb : natOfBE [b] = b.toNat := by simp [natOfBE, natOfLE]
  rw [vlDecodeExt, vlDecodeEofCheck, if_neg (by omega), read_one ho hrest, ok_bind]
  simp only [hb, advance_advance]
  rfl

/-- What a call that matches the format says about the check of a sized extension. -/
theorem MatchesFormat.ext {tk' : VlMsgPackIOToken} {width length : ℕ} {extSize : ℤ}
    (h : dec.MatchesFormat tk) (ho : dec.srcOffset ≤ dec.srcLen)
    (hrest : dec.rest = b :: (size ++ ds)) (hform : MsgPackForm.ofTag b.toNat = .sizedExt width)
    (hsize : size.length = width) (htype : tk'.type = .ext) (hn : n = 1 + width)
    (hnext : vlMsgPackIODecoderNext dec tk = vlDecodeExt (dec.advance n) tk' extSize length) :
    ((((dec.advance n).srcOffset + extSize) % 2 ^ 64).toNat ≤ (dec.advance n).srcLen ↔
      natOfBE size + 1 ≤ ds.length) ∧ (natOfBE size + 1 ≤ ds.length → length = natOfBE size) := by
  obtain ⟨r, hr, hiff, hitem, -, -⟩ := h
  have hds : (dec.advance n).rest = ds := by
    rw [hn, ← hsize, ← advance_advance]
    exact rest_advance (rest_advance_one hrest)
  have hle : (dec.advance n).srcOffset ≤ (dec.advance n).srcLen := by
    rw [hn, ← advance_advance]
    exact advance_le (advance_one_le ho hrest) (rest_advance_one hrest) hsize
  rw [hrest] at hiff hitem
  rw [hnext] at hr
  by_cases hcheck : (((dec.advance n).srcOffset + extSize) % 2 ^ 64).toNat ≤ (dec.advance n).srcLen
  · cases ds with
    | nil =>
      rw [decodeExt_behind hcheck hds] at hr
      cases hr
    | cons t ts =>
      rw [decodeExt_passed hle hcheck hds] at hr
      obtain rfl := Except.ok.inj hr
      obtain ⟨bs, tail, item, heq, henc⟩ := hiff.mp rfl
      obtain ⟨-, hval, -⟩ := hitem bs tail item heq henc
      obtain ⟨t', es, hts, hes, rfl⟩ := henc.sizedExt hform hsize heq
      have hfits : natOfBE size + 1 ≤ (t :: ts).length := by
        rw [hts, List.length_cons, List.length_append, hes]
        omega
      refine ⟨⟨fun _ => hfits, fun _ => hcheck⟩, fun _ => ?_⟩
      simp only [VlMsgPackIOToken.item, htype, MsgPackItem.ext.injEq] at hval
      rw [← hes, ← hval.2, ByteMem.length_slice]
  · rw [decodeExt_eof hcheck] at hr
    obtain rfl := Except.ok.inj hr
    have hno : ¬ natOfBE size + 1 ≤ ds.length := fun hfits => by
      have htrue := hiff.mpr (MsgPackItem.exists_encodes_sizedExt hform hsize hfits)
      cases htrue
    exact ⟨⟨fun h => absurd h hcheck, fun h => absurd h hno⟩, fun h => absurd h hno⟩

theorem MatchesFormat.ext16 (h : dec.MatchesFormat tk) (ho : dec.srcOffset ≤ dec.srcLen)
    (hrest : dec.rest = b :: (size ++ ds)) (hb : b.toNat = VlMsgPackIO.ext16)
    (hsize : size.length = 2) : dec.DecidesExt16 (natOfBE size) := by
  have hlen := length_rest.symm.trans (congrArg List.length hrest)
  rw [List.length_cons, List.length_append, hsize] at hlen
  have hle : (dec.advance 3).srcOffset ≤ (dec.advance 3).srcLen := by
    change dec.srcOffset + 3 ≤ dec.srcLen
    omega
  have hn := natOfBE_lt_of_two hsize
  obtain ⟨hcheck, hlength⟩ := h.ext ho hrest (by rw [hb]; rfl) hsize rfl rfl
    (next_ext16 ho hrest hb hsize)
  rw [ext16_length hn] at hlength
  rw [ext16_check hle hn] at hcheck
  change (_ ∧ dec.srcOffset + 3 + natOfBE size + 1 ≤ dec.srcLen ∨ _ ∧
    2 ^ 16 ≤ dec.srcOffset + 3 + natOfBE size + 1 ↔ _) at hcheck
  rw [DecidesExt16]
  omega

theorem MatchesFormat.ext32 (h : dec.MatchesFormat tk) (ho : dec.srcOffset ≤ dec.srcLen)
    (hrest : dec.rest = b :: (size ++ ds)) (hb : b.toNat = VlMsgPackIO.ext32)
    (hsize : size.length = 4) : dec.DecidesExt32 (natOfBE size) := by
  have hlen := length_rest.symm.trans (congrArg List.length hrest)
  rw [List.length_cons, List.length_append, hsize] at hlen
  have hle : (dec.advance 5).srcOffset ≤ (dec.advance 5).srcLen := by
    change dec.srcOffset + 5 ≤ dec.srcLen
    omega
  have hn := natOfBE_lt_of_four hsize
  have hnext : vlMsgPackIODecoderNext dec tk = _ := next_ext32 ho hrest hb hsize
  split_ifs at hnext with hover
  · obtain ⟨hcheck, -⟩ := h.ext ho hrest (by rw [hb]; rfl) hsize rfl rfl hnext
    rw [ext32_check hle hn] at hcheck
    have hne := (ext32_overflow hn).mp hover
    clear hover
    change (_ ∧ dec.srcOffset + 5 + natOfBE size + 1 ≤ dec.srcLen ∨ _ ∧
      2 ^ 32 ≤ dec.srcOffset + 5 + natOfBE size + 1 ↔ _) at hcheck
    rw [DecidesExt32]
    omega
  · obtain ⟨r, hr, -⟩ := h
    rw [hnext] at hr
    cases hr

/-- A call that matches the format reads supported bytes. -/
theorem MatchesFormat.supported (h : dec.MatchesFormat tk) (ho : dec.srcOffset ≤ dec.srcLen) :
    dec.Supported := by
  rw [Supported]
  split
  · trivial
  · rename_i b tail hrest
    refine ⟨fun hb => ?_, fun hb hlen => ?_, fun hb hlen => ?_⟩
    · -- the unused tag returns `VL_TRUE`, and no item starts with it
      obtain ⟨r, hr, hiff, -⟩ := h
      rw [next_cons ho hrest, hb] at hr
      obtain rfl := Except.ok.inj hr
      obtain ⟨bs, tail', item, heq, b', body, rfl, hbody⟩ := hiff.mp rfl
      obtain ⟨rfl, -⟩ := List.cons.inj (hrest.symm.trans heq)
      rw [hb] at hbody
      exact hbody
    · rw [← List.take_append_drop 2 tail] at hrest
      exact h.ext16 ho hrest hb (List.length_take_of_le hlen)
    · rw [← List.take_append_drop 4 tail] at hrest
      exact h.ext32 ho hrest hb (List.length_take_of_le hlen)

/-- At the end of the source there is no item to read. -/
theorem matchesFormat_nil (ho : dec.srcOffset ≤ dec.srcLen) (hrest : dec.rest = []) :
    dec.MatchesFormat tk := by
  refine ⟨_, next_nil ho hrest, ⟨fun h => (by cases h), ?_⟩, ?_, fun _ => rfl, ?_⟩
  · rintro ⟨bs, tail, item, heq, b, body, rfl, -⟩
    rw [hrest] at heq
    cases heq
  · rintro bs tail item heq ⟨b, body, rfl, -⟩
    rw [hrest] at heq
    cases heq
  · intro _ hne
    exact absurd hrest hne

end VlMsgPackDecoder

open VlMsgPackDecoder

/-- **A call matches the format exactly where the bytes at the read offset are supported.** -/
theorem vlMsgPackIODecoderNext_matchesFormat_iff {dec : VlMsgPackDecoder} {tk : VlMsgPackIOToken}
    (ho : dec.srcOffset ≤ dec.srcLen) : dec.MatchesFormat tk ↔ dec.Supported := by
  refine ⟨fun h => h.supported ho, fun h => ?_⟩
  by_cases hrest : dec.rest = []
  · exact matchesFormat_nil ho hrest
  · exact (h.parses ho hrest).matchesFormat hrest

/-- A `nil` at the start of a source of one byte. -/
theorem vlMsgPackIODecoderNext_matchesFormat_nil :
    (vlMsgPackIODecoderStart (fun _ => 0xC0) 1 (by norm_num)).MatchesFormat default :=
  (vlMsgPackIODecoderNext_matchesFormat_iff (Nat.zero_le _)).mpr (by decide)

/-- The tag that the format never uses is accepted. -/
theorem vlMsgPackIODecoderNext_unused_tag :
    ¬ (vlMsgPackIODecoderStart (fun _ => 0xC1) 1 (by norm_num)).MatchesFormat default := by
  rintro ⟨r, hr, hiff, -⟩
  obtain rfl := Except.ok.inj hr
  obtain ⟨bs, tail, item, heq, b, body, rfl, hbody⟩ := hiff.mp rfl
  obtain ⟨rfl, -⟩ := List.cons.inj heq
  exact hbody

end VeritableLasagna
