import VeritableLasagna.MsgPack.Lengths
import VeritableLasagna.MsgPack.RoundTrip

/-!
# The shortest encodings

The format often has several encodings of one value. `MsgPackItem.leastSize` is the length of the
shortest: no encoding is shorter (`MsgPackItem.Encodes.leastSize_le`), and for integers there is one
that long (`exists_encodes_integer`); the others are what the encoder writes. Signed and unsigned
numbers are one type of the format, the integers.

`vlMsgPackIOEncode_shortest_iff` says for which values the encoder takes the shortest encoding: for all
strings, binaries and arrays, for maps whose keys and values 32 bits can count, and for integers other
than four lower limits of signed formats, the upper halves of the unsigned formats when they are given
as signed numbers, and the numbers of seven bits when they are given as unsigned ones.
-/

namespace VeritableLasagna

open VlMsgPackEncoder

/-! ### What the format offers -/

/-- The shortest encoding of an integer. -/
def msgPackIntegerSize (v : ℤ) : ℕ :=
  if -0x20 ≤ v ∧ v ≤ 0x7F then 1
  else if -0x80 ≤ v ∧ v ≤ 0xFF then 2
  else if -0x8000 ≤ v ∧ v ≤ 0xFFFF then 3
  else if -0x80000000 ≤ v ∧ v ≤ 0xFFFFFFFF then 5
  else 9

/-- The shortest header of a container. -/
def msgPackContainerSize (n : ℕ) : ℕ := if n ≤ 0xF then 1 else if n ≤ 0xFFFF then 3 else 5

/-- The length of the shortest encoding of an item, of the kinds that have more than one. -/
def MsgPackItem.leastSize : MsgPackItem → ℕ
  | .int v => msgPackIntegerSize v
  | .uint v => msgPackIntegerSize v
  | .str bs => vlMsgPackStrHeaderLength bs.length + bs.length
  | .bin bs => vlMsgPackBinHeaderLength bs.length + bs.length
  | .array n => msgPackContainerSize n
  | .map n => msgPackContainerSize n
  | _ => 0

namespace MsgPackForm

/-- No item of the form is shorter than its least size. -/
def Sparing : MsgPackForm → Prop
  | value item => item.leastSize ≤ 1
  | number width f => ∀ v < 256 ^ width, (f v).leastSize ≤ 1 + width
  | bytes length f => ∀ ds : List UInt8, ds.length = length → (f ds).leastSize ≤ 1 + length
  | sizedBytes width f =>
    ∀ ds : List UInt8, ds.length < 256 ^ width → (f ds).leastSize ≤ 1 + (width + ds.length)
  | _ => True

theorem Sparing.of_body {f : MsgPackForm} {body : List UInt8} {item : MsgPackItem} (h : f.Sparing)
    (hbody : f.Body body item) : item.leastSize ≤ 1 + body.length := by
  cases f with
  | unused => exact hbody.elim
  | value i =>
    obtain ⟨rfl, rfl⟩ := hbody
    exact h
  | number width f =>
    obtain ⟨rfl, rfl⟩ := hbody
    exact h _ natOfBE_lt
  | bytes length f =>
    obtain ⟨rfl, rfl⟩ := hbody
    exact h _ rfl
  | sizedBytes width f =>
    obtain ⟨size, ds, rfl, rfl, hlen, rfl⟩ := hbody
    rw [List.length_append]
    exact h ds (hlen.trans_lt natOfBE_lt)
  | ext length =>
    obtain ⟨t, ds, rfl, -, rfl⟩ := hbody
    exact Nat.zero_le _
  | sizedExt width =>
    obtain ⟨size, t, ds, rfl, -, -, rfl⟩ := hbody
    exact Nat.zero_le _

/-- The widths of numbers. -/
def Width (k : ℕ) : Prop := k = 1 ∨ k = 2 ∨ k = 4 ∨ k = 8

theorem sparing_uint {k : ℕ} (hk : Width k) : (number k .uint).Sparing := by
  intro v hv
  simp only [MsgPackItem.leastSize, msgPackIntegerSize]
  rcases hk with rfl | rfl | rfl | rfl <;> split_ifs <;> omega

/-- A number in two's complement. -/
theorem sparing_signed {k : ℕ} (hk : Width k) : (number k (signed k)).Sparing := by
  intro v hv
  have hpos : 0 < 2 ^ (8 * k) := Nat.two_pow_pos _
  have hlo := Int.le_bmod (x := v) hpos
  have hhi := Int.bmod_lt (x := v) hpos
  simp only [signed, MsgPackItem.leastSize, msgPackIntegerSize]
  generalize Int.bmod v (2 ^ (8 * k)) = w at hlo hhi ⊢
  rcases hk with rfl | rfl | rfl | rfl <;> split_ifs <;> omega

theorem sparing_bin {k : ℕ} (hk : Width k) : (sizedBytes k .bin).Sparing := by
  intro ds hds
  simp only [MsgPackItem.leastSize, vlMsgPackBinHeaderLength]
  rcases hk with rfl | rfl | rfl | rfl <;> split_ifs <;> omega

theorem sparing_str {k : ℕ} (hk : Width k) : (sizedBytes k .str).Sparing := by
  intro ds hds
  simp only [MsgPackItem.leastSize, vlMsgPackStrHeaderLength, vlMsgPackBinHeaderLength]
  rcases hk with rfl | rfl | rfl | rfl <;> split_ifs <;> omega

theorem sparing_array {k : ℕ} (hk : Width k) (hone : k ≠ 1) : (number k .array).Sparing := by
  intro v hv
  simp only [MsgPackItem.leastSize, msgPackContainerSize]
  rcases hk with rfl | rfl | rfl | rfl <;> split_ifs <;> omega

theorem sparing_map {k : ℕ} (hk : Width k) (hone : k ≠ 1) : (number k .map).Sparing := by
  intro v hv
  simp only [MsgPackItem.leastSize, msgPackContainerSize]
  rcases hk with rfl | rfl | rfl | rfl <;> split_ifs <;> omega

/-- **The table of first bytes** offers nothing below the least size. -/
theorem sparing_ofTag {n : ℕ} (hn : n < 256) : (ofTag n).Sparing := by
  have h₁ : Width 1 := Or.inl rfl
  have h₂ : Width 2 := Or.inr (Or.inl rfl)
  have h₄ : Width 4 := Or.inr (Or.inr (Or.inl rfl))
  have h₈ : Width 8 := Or.inr (Or.inr (Or.inr rfl))
  have hfloat : ∀ k (f : ℕ → MsgPackItem), (∀ v, (f v).leastSize = 0) → (number k f).Sparing :=
    fun k f hf v _ => (hf v).trans_le (Nat.zero_le _)
  by_cases hmasked : n < 0xC0 ∨ 0xE0 ≤ n
  · rw [ofTag_masked hmasked]
    split_ifs with hfix hmap harray hstr
    · simp only [Sparing, MsgPackItem.leastSize, msgPackIntegerSize]
      rw [if_pos (by omega)]
    · simp only [Sparing, MsgPackItem.leastSize, msgPackContainerSize]
      rw [if_pos (by omega)]
    · simp only [Sparing, MsgPackItem.leastSize, msgPackContainerSize]
      rw [if_pos (by omega)]
    · intro ds hds
      simp only [MsgPackItem.leastSize, vlMsgPackStrHeaderLength]
      rw [if_pos (by omega)]
      omega
    · simp only [Sparing, MsgPackItem.leastSize, msgPackIntegerSize]
      rw [if_pos (by omega)]
  -- the other tags, in turn
  · obtain ⟨hlo, hhi⟩ : 0xC0 ≤ n ∧ n < 0xE0 := by omega
    interval_cases n
    exacts [Nat.zero_le _, trivial, Nat.zero_le _, Nat.zero_le _, sparing_bin h₁, sparing_bin h₂,
      sparing_bin h₄, trivial, trivial, trivial, hfloat 4 _ fun _ => rfl, hfloat 8 _ fun _ => rfl,
      sparing_uint h₁, sparing_uint h₂, sparing_uint h₄, sparing_uint h₈, sparing_signed h₁,
      sparing_signed h₂, sparing_signed h₄, sparing_signed h₈, trivial, trivial, trivial, trivial,
      trivial, sparing_str h₁, sparing_str h₂, sparing_str h₄, sparing_array h₂ (by decide),
      sparing_array h₄ (by decide), sparing_map h₂ (by decide), sparing_map h₄ (by decide)]

end MsgPackForm

/-- **No encoding is shorter** than the least size. -/
theorem MsgPackItem.Encodes.leastSize_le {bs : List UInt8} {item : MsgPackItem}
    (h : MsgPackItem.Encodes bs item) : item.leastSize ≤ bs.length := by
  obtain ⟨b, body, rfl, hbody⟩ := h
  have hsize := (MsgPackForm.sparing_ofTag b.toNat_lt).of_body hbody
  rw [List.length_cons]
  omega

/-- The integer of an item that is one. -/
def MsgPackItem.integer : MsgPackItem → Option ℤ
  | .int v => some v
  | .uint v => some v
  | _ => none

theorem MsgPackItem.leastSize_of_integer {item : MsgPackItem} {v : ℤ} (h : item.integer = some v) :
    item.leastSize = msgPackIntegerSize v := by
  cases item <;> cases h <;> rfl

/-- **Every integer of the format has an encoding of its least size.** -/
theorem exists_encodes_integer {v : ℤ} (hlo : -2 ^ 63 ≤ v) (hhi : v < 2 ^ 64) :
    ∃ bs item, item.integer = some v ∧ MsgPackItem.Encodes bs item ∧
      bs.length = msgPackIntegerSize v := by
  -- a negative number takes a signed format, the others an unsigned one
  have hsigned : ∀ (k typeTag : ℕ), MsgPackForm.ofTag (UInt8.ofNat typeTag).toNat =
      .number k (MsgPackForm.signed k) → -((2 ^ (8 * k) : ℕ) : ℤ) ≤ 2 * v → v < 0 →
      1 + k = msgPackIntegerSize v →
      ∃ bs item, item.integer = some v ∧ MsgPackItem.Encodes bs item ∧
        bs.length = msgPackIntegerSize v := by
    intro k typeTag hform hlow hneg hsize
    have hpos : 0 < 2 ^ (8 * k) := Nat.two_pow_pos _
    refine ⟨_, .int v, rfl, encodes_signed rfl hform hlow (by omega), ?_⟩
    rw [List.length_cons, length_natToBE, ← hsize, Nat.add_comm]
  have hunsigned : ∀ (k typeTag : ℕ), MsgPackForm.ofTag (UInt8.ofNat typeTag).toNat =
      .number k .uint → 0 ≤ v → v.toNat < 256 ^ k → 1 + k = msgPackIntegerSize v →
      ∃ bs item, item.integer = some v ∧ MsgPackItem.Encodes bs item ∧
        bs.length = msgPackIntegerSize v := by
    intro k typeTag hform hnonneg hlt hsize
    refine ⟨_, .uint v.toNat, congrArg some (Int.toNat_of_nonneg hnonneg),
      encodes_number hform hlt, ?_⟩
    rw [List.length_cons, length_natToBE, ← hsize, Nat.add_comm]
  rw [msgPackIntegerSize] at hsigned hunsigned ⊢
  rcases Int.lt_or_le v 0 with hneg | hnonneg
  · by_cases hfix : -0x20 ≤ v
    · have hbyte : ((v % 256).toNat : ℤ) - 256 = v := by omega
      have henc : MsgPackItem.Encodes [UInt8.ofNat (v % 256).toNat] (.int v) := by
        refine encodes_value ?_
        rw [UInt8.toNat_ofNat', Nat.mod_eq_of_lt (by omega), MsgPackForm.ofTag_masked (by omega),
          if_neg (by omega), if_neg (by omega), if_neg (by omega), if_neg (by omega), hbyte]
      exact ⟨_, .int v, rfl, henc, by rw [if_pos (by omega)]; rfl⟩
    by_cases h8 : -0x80 ≤ v
    · exact hsigned 1 0xD0 rfl (by norm_num; omega) hneg (by split_ifs <;> omega)
    by_cases h16 : -0x8000 ≤ v
    · exact hsigned 2 0xD1 rfl (by norm_num; omega) hneg (by split_ifs <;> omega)
    by_cases h32 : -0x80000000 ≤ v
    · exact hsigned 4 0xD2 rfl (by norm_num; omega) hneg (by split_ifs <;> omega)
    · exact hsigned 8 0xD3 rfl (by norm_num; omega) hneg (by split_ifs <;> omega)
  · by_cases hfix : v ≤ 0x7F
    · have hbyte : ((v % 256).toNat : ℤ) = v := by omega
      have henc : MsgPackItem.Encodes [UInt8.ofNat (v % 256).toNat] (.int v) := by
        refine encodes_value ?_
        rw [UInt8.toNat_ofNat', Nat.mod_eq_of_lt (by omega), MsgPackForm.ofTag_masked (by omega),
          if_pos (by omega), hbyte]
      exact ⟨_, .int v, rfl, henc, by rw [if_pos (by omega)]; rfl⟩
    by_cases h8 : v ≤ 0xFF
    · exact hunsigned 1 0xCC rfl hnonneg (by omega) (by split_ifs <;> omega)
    by_cases h16 : v ≤ 0xFFFF
    · exact hunsigned 2 0xCD rfl hnonneg (by omega) (by split_ifs <;> omega)
    by_cases h32 : v ≤ 0xFFFFFFFF
    · exact hunsigned 4 0xCE rfl hnonneg (by omega) (by split_ifs <;> omega)
    · exact hunsigned 8 0xCF rfl hnonneg (by omega) (by split_ifs <;> omega)

/-- The bytes are an encoding of an item that `means` says, and no encoding of such an item is
shorter. -/
def MsgPackShortest (means : MsgPackItem → Prop) (bs : List UInt8) : Prop :=
  (∃ item, means item ∧ MsgPackItem.Encodes bs item) ∧
    ∀ bs' item, means item → MsgPackItem.Encodes bs' item → bs.length ≤ bs'.length

/-- An encoding of an item is a shortest one if it has the least size. -/
theorem msgPackShortest_of_eq {bs : List UInt8} {item : MsgPackItem}
    (h : MsgPackItem.Encodes bs item) (hsize : bs.length = item.leastSize) :
    MsgPackShortest (· = item) bs := by
  refine ⟨⟨item, rfl, h⟩, ?_⟩
  rintro bs' item rfl h'
  exact hsize.trans_le h'.leastSize_le

/-- An encoding of an integer is a shortest one exactly if it has the least size. -/
theorem msgPackShortest_integer_iff {bs : List UInt8} {item : MsgPackItem} {v : ℤ}
    (hlo : -2 ^ 63 ≤ v) (hhi : v < 2 ^ 64) (h : MsgPackItem.Encodes bs item)
    (hitem : item.integer = some v) :
    MsgPackShortest (·.integer = some v) bs ↔ bs.length = msgPackIntegerSize v := by
  constructor
  · rintro ⟨-, hleast⟩
    obtain ⟨bs', item', hitem', h', hsize⟩ := exists_encodes_integer hlo hhi
    have hle := hleast bs' item' hitem' h'
    have hge := h.leastSize_le
    rw [MsgPackItem.leastSize_of_integer hitem] at hge
    omega
  · intro hsize
    refine ⟨⟨item, hitem, h⟩, fun bs' item' hitem' h' => ?_⟩
    have hge := h'.leastSize_le
    rw [MsgPackItem.leastSize_of_integer hitem'] at hge
    omega

/-! ### What the encoder takes -/

/-- What is written: a scalar with a length or a number, or a container with what is in it. -/
inductive MsgPackSubject
  | int (value : Int64)
  | uint (value : UInt64)
  | string (value : List UInt8)
  | binary (value : List UInt8)
  | array (count : ℕ) (inner : List MsgPackCall) (items : List MsgPackItem)
  | map (count : ℕ) (inner : List MsgPackCall) (items : List MsgPackItem)

namespace MsgPackSubject

/-- The calls that write it. -/
def calls : MsgPackSubject → List MsgPackCall
  | int value => [.int value]
  | uint value => [.uint value]
  | string value => [.string value]
  | binary value => [.binary value]
  | array _ inner _ => .arrayBegin :: (inner ++ [.arrayEnd])
  | map _ inner _ => .mapBegin :: (inner ++ [.mapEnd])

/-- Lengths and counts are below `2 ^ 32`, and a container has as many elements, or pairs, as it
says. -/
def Proper : MsgPackSubject → Prop
  | int _ | uint _ => True
  | string value | binary value => value.length < 2 ^ 32
  | array count inner items => count < 2 ^ 32 ∧ WellNested inner count items
  | map count inner items => count < 2 ^ 32 ∧ WellNested inner (2 * count) items

/-- The items that are encodings of it; of a container, its headers. -/
def Means : MsgPackSubject → MsgPackItem → Prop
  | int value, item => item.integer = some value.toInt
  | uint value, item => item.integer = some value.toNat
  | string value, item => item = .str value
  | binary value, item => item = .bin value
  | array count _ _, item => item = .array count
  | map count _ _, item => item = .map count

/-- What follows the header of a container. -/
def content : MsgPackSubject → List MsgPackItem
  | array _ _ items | map _ _ items => items
  | _ => []

/-- The encoder has written a shortest encoding of it, and behind the header of a container what is
in it. -/
def WrittenShortest (subject : MsgPackSubject) (enc enc' : VlMsgPackEncoder) : Prop :=
  ∃ bs content, (vlMsgPackEncodeIncrement enc).Appended (bs ++ content) enc' ∧
    EncodesAll content subject.content ∧ MsgPackShortest subject.Means bs

/-- The signed numbers for which the encoder knows the shortest format. -/
def InShortFormat (v : ℤ) : Prop :=
  (v ≠ -0x20 ∧ v ≠ -0x80 ∧ v ≠ -0x8000 ∧ v ≠ -0x80000000) ∧
    ¬ (0x80 ≤ v ∧ v ≤ 0xFF) ∧ ¬ (0x8000 ≤ v ∧ v ≤ 0xFFFF) ∧ ¬ (0x80000000 ≤ v ∧ v ≤ 0xFFFFFFFF)

/-- When the encoder takes the shortest encoding. -/
def Short : MsgPackSubject → Prop
  | int value => InShortFormat value.toInt
  | uint value => 0x80 ≤ value.toNat
  | map count _ _ => count < 2 ^ 31
  | _ => True

end MsgPackSubject

open MsgPackSubject

theorem vlMsgPackIntLength_eq_iff {v : ℤ} :
    vlMsgPackIntLength v = msgPackIntegerSize v ↔ InShortFormat v := by
  rw [vlMsgPackIntLength, msgPackIntegerSize, InShortFormat]
  split_ifs <;> omega

theorem vlMsgPackUIntLength_eq_iff {v : ℕ} :
    vlMsgPackUIntLength v = msgPackIntegerSize v ↔ 0x80 ≤ v := by
  rw [vlMsgPackUIntLength, msgPackIntegerSize]
  split_ifs <;> omega

section Written

variable {enc enc' : VlMsgPackEncoder} {subject : MsgPackSubject} {call : MsgPackCall}
  {item : MsgPackItem}

/-- A scalar: what is appended has the length of the call. -/
theorem writtenShortest_scalar_iff (subject : MsgPackSubject) (h : enc.buffer.WellFormed)
    (hcall : call.item = some item) (hscalar : ¬ call.IsContainer) (hcontent : subject.content = [])
    (hop : vlMsgPackIOEncodeCalls enc [call] = .ok enc') :
    ∃ bs, MsgPackItem.Encodes bs item ∧ bs.length = call.length ∧
      (subject.WrittenShortest enc enc' ↔ MsgPackShortest subject.Means bs) := by
  have hencode : vlMsgPackIOEncode enc call = .ok enc' := by
    obtain ⟨enc₁, hencode, hend⟩ := exists_of_bind_eq_ok hop
    obtain rfl := Except.ok.inj hend
    exact hencode
  obtain ⟨bs, happ, henc⟩ := (vlMsgPackIOEncode_item h hcall).of_ok hencode
  have hgrown := (vlMsgPackIOEncode_grown hscalar hencode).offset
  have hoffset := happ.offset
  refine ⟨bs, henc, by omega, ?_⟩
  constructor
  · rintro ⟨bs', content, happ', hall, hshort⟩
    rw [hcontent] at hall
    obtain ⟨chunks, hchunks, rfl⟩ := hall
    obtain rfl := List.forall₂_nil_right_iff.mp hchunks
    have hsame := happ'.written
    rw [happ.written, List.flatten_nil, List.append_nil] at hsame
    rwa [List.append_cancel_left hsame]
  · intro hshort
    refine ⟨bs, [], by rwa [List.append_nil], ?_, hshort⟩
    rw [hcontent]
    exact encodesAll_nil

/-- A container: what is appended is its header with the count of 32 bits, and its content. -/
theorem vlMsgPackIOEncodeCalls_contained (isArray : Bool) {inner : List MsgPackCall} {k : ℕ}
    {items : List MsgPackItem} (h : enc.buffer.WellFormed) (heven : isArray = false → k % 2 = 0)
    (hinner : WellNested inner k items)
    (hop : vlMsgPackIOEncodeCalls enc ((if isArray then .arrayBegin else .mapBegin) ::
      (inner ++ [if isArray then .arrayEnd else .mapEnd])) = .ok enc') :
    ∃ content, (vlMsgPackEncodeIncrement enc).Appended
        (msgPackContainerHeader isArray (msgPackCount isArray (k % 2 ^ 32)) ++ content) enc' ∧
      EncodesAll content items := by
  refine (vlMsgPackIOEncode_contained isArray h heven
    fun enc henc => vlMsgPackIOEncode_wellNested hinner henc).of_ok ?_
  rw [← hop, vlMsgPackIOEncodeCalls, List.foldlM_cons]
  simp only [List.foldlM_append, List.foldlM_cons, List.foldlM_nil, bind_pure]
  cases isArray <;> rfl

/-- The header of a container has the least size. -/
theorem length_msgPackContainerHeader (isArray : Bool) (n : ℕ) :
    (msgPackContainerHeader isArray n).length = msgPackContainerSize n := by
  rw [msgPackContainerHeader, msgPackContainerSize]
  by_cases hfix : n ≤ 0xF
  · rw [if_pos hfix, if_pos hfix]
    rfl
  rw [if_neg hfix, if_neg hfix]
  by_cases h16 : n ≤ 0xFFFF
  · rw [if_pos h16, if_pos h16, List.length_cons, length_natToBE]
  · rw [if_neg h16, if_neg h16, List.length_cons, length_natToBE]

/-- **When the encoder takes the shortest encoding.** For every signed and unsigned number of 64 bits,
every string and binary, every array and every map of less than `2 ^ 32` bytes, elements or pairs: what
the calls write is a shortest encoding of its type and value if and only if it is a string, a binary or
an array; a map of less than `2 ^ 31` pairs; an unsigned number above seven bits; or a signed number
that is no lower limit of a signed format and not in the upper half of an unsigned one. -/
theorem vlMsgPackIOEncode_shortest_iff (h : enc.buffer.WellFormed) (hproper : subject.Proper)
    (hop : vlMsgPackIOEncodeCalls enc subject.calls = .ok enc') :
    subject.WrittenShortest enc enc' ↔ subject.Short := by
  cases subject with
  | int value =>
    obtain ⟨bs, henc, hlen, hiff⟩ := writtenShortest_scalar_iff (.int value) h rfl id rfl hop
    have hlo := value.le_toInt
    have hhi := value.toInt_lt
    rw [hiff]
    refine (msgPackShortest_integer_iff (by omega) (by omega) henc rfl).trans ?_
    rw [hlen]
    exact vlMsgPackIntLength_eq_iff
  | uint value =>
    obtain ⟨bs, henc, hlen, hiff⟩ := writtenShortest_scalar_iff (.uint value) h rfl id rfl hop
    have hlt := value.toNat_lt
    rw [hiff]
    refine (msgPackShortest_integer_iff (by omega) (by omega) henc rfl).trans ?_
    rw [hlen]
    exact vlMsgPackUIntLength_eq_iff
  | string value =>
    have hitem : (MsgPackCall.string value).item = some (.str value) := if_pos hproper
    obtain ⟨bs, henc, hlen, hiff⟩ := writtenShortest_scalar_iff (.string value) h hitem id rfl hop
    exact iff_of_true (hiff.mpr (msgPackShortest_of_eq henc hlen)) trivial
  | binary value =>
    have hitem : (MsgPackCall.binary value).item = some (.bin value) := if_pos hproper
    obtain ⟨bs, henc, hlen, hiff⟩ := writtenShortest_scalar_iff (.binary value) h hitem id rfl hop
    exact iff_of_true (hiff.mpr (msgPackShortest_of_eq henc hlen)) trivial
  | array count inner items =>
    obtain ⟨hcount, hinner⟩ := hproper
    obtain ⟨content, happ, hall⟩ := vlMsgPackIOEncodeCalls_contained true h (fun h => (by cases h))
      hinner hop
    rw [Nat.mod_eq_of_lt hcount] at happ
    refine iff_of_true ⟨_, content, happ, hall, ?_⟩ trivial
    exact msgPackShortest_of_eq (encodes_container hcount) (length_msgPackContainerHeader _ _)
  | map count inner items =>
    obtain ⟨hcount, hinner⟩ := hproper
    obtain ⟨content, happ, hall⟩ := vlMsgPackIOEncodeCalls_contained false h (fun _ => by omega)
      hinner hop
    have hheader : MsgPackItem.Encodes
        (msgPackContainerHeader false (msgPackCount false (2 * count % 2 ^ 32)))
        (msgPackContainer false (2 * count % 2 ^ 32 / 2)) := by
      have hlt : 2 * count % 2 ^ 32 / 2 < 2 ^ 32 := by omega
      exact encodes_container hlt
    constructor
    -- the count that was written is the one of the header
    · rintro ⟨bs, content', happ', -, ⟨item, rfl, henc⟩, -⟩
      have hsame := happ'.written
      rw [happ.written] at hsame
      obtain ⟨-, hitem⟩ := hheader.unique henc (List.append_cancel_left hsame)
      have hcounts := MsgPackItem.map.inj hitem
      rw [Short]
      omega
    · intro hshort
      rw [Short] at hshort
      have hhalf : 2 * count % 2 ^ 32 / 2 = count := by omega
      rw [hhalf] at hheader
      refine ⟨_, content, happ, hall, msgPackShortest_of_eq hheader ?_⟩
      rw [length_msgPackContainerHeader, msgPackCount]
      simp only [Bool.false_eq_true, if_false, hhalf]
      rfl

end Written

/-- The rule on an unsigned number of nine bits. -/
theorem vlMsgPackIOEncode_shortest_uint :
    ∃ enc, vlMsgPackIOEncodeCalls (vlMsgPackIOEncoderInit fun _ => 0) [.uint 300] = .ok enc ∧
      (MsgPackSubject.uint 300).WrittenShortest (vlMsgPackIOEncoderInit fun _ => 0) enc := by
  have hrun : (vlMsgPackIOEncodeCalls (vlMsgPackIOEncoderInit fun _ => 0) [.uint 300]).isOk =
      true := by decide +kernel
  cases hop : vlMsgPackIOEncodeCalls (vlMsgPackIOEncoderInit fun _ => 0) [.uint 300] with
  | error fault =>
    rw [hop] at hrun
    cases hrun
  | ok enc =>
    have hproper : (MsgPackSubject.uint 300).Proper := trivial
    have hshort : (MsgPackSubject.uint 300).Short := by
      rw [Short]
      decide
    exact ⟨enc, rfl, (vlMsgPackIOEncode_shortest_iff vlBufferInit_wellFormed hproper hop).mpr hshort⟩

/-- The lower limit of the numbers in one byte: the encoder takes two bytes for `-32`, and the format has
an encoding of one. -/
theorem vlMsgPackIOEncode_not_shortest_neg_32 :
    ∃ enc, vlMsgPackIOEncodeCalls (vlMsgPackIOEncoderInit fun _ => 0) [.int (-32)] = .ok enc ∧
      enc.buffer.written = [0xD0, 0xE0] ∧ MsgPackItem.Encodes [0xE0] (.int (-32)) ∧
      ¬ (MsgPackSubject.int (-32)).WrittenShortest (vlMsgPackIOEncoderInit fun _ => 0) enc := by
  have hrun : ((vlMsgPackIOEncodeCalls (vlMsgPackIOEncoderInit fun _ => 0)
      [.int (-32)]).toOption.any fun enc => enc.buffer.written = [0xD0, 0xE0]) = true := by
    decide +kernel
  obtain ⟨enc, henc, hwritten⟩ := (Option.any_eq_true _ _).mp hrun
  have hop := eq_ok_of_toOption henc
  have hone : MsgPackItem.Encodes [0xE0] (.int (-32)) := encodes_value rfl
  refine ⟨enc, hop, of_decide_eq_true hwritten, hone, fun hshort => ?_⟩
  obtain ⟨bs, -, hlen, hiff⟩ :=
    writtenShortest_scalar_iff (.int (-32)) vlBufferInit_wellFormed rfl id rfl hop
  have hmeans : (MsgPackSubject.int (-32)).Means (.int (-32)) := by
    rw [Means]
    decide
  have hle := (hiff.mp hshort).2 _ _ hmeans hone
  have htwo : (MsgPackCall.int (-32)).length = 2 := by decide
  rw [hlen, htwo] at hle
  exact absurd hle (by decide)

end VeritableLasagna
