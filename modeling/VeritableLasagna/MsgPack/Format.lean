import VeritableLasagna.Lib.Bytes

/-!
# The MessagePack format

A MessagePack text is a sequence of **items**: scalars, byte strings with their payload, and the
headers of containers, which only carry a count. The first byte of an item fixes its **form**, that
is, what follows it (`MsgPackForm.ofTag`, the format's table of first bytes); `Encodes` says which
bytes stand for which item. Nothing here mentions a decoder.
-/

namespace VeritableLasagna

/-- An item of a MessagePack text. Floating-point numbers are given by their bit patterns. -/
inductive MsgPackItem
  | nil
  | bool (b : Bool)
  | int (v : ℤ)
  | uint (v : ℕ)
  | float32 (bits : ℕ)
  | float64 (bits : ℕ)
  | str (bs : List UInt8)
  | bin (bs : List UInt8)
  /-- the header of an array of `n` elements -/
  | array (n : ℕ)
  /-- the header of a map of `n` key-value pairs -/
  | map (n : ℕ)
  | ext (type : ℤ) (bs : List UInt8)
  deriving DecidableEq

/-- What follows the first byte of an item. Counts, lengths and numbers are stored most significant
byte first. -/
inductive MsgPackForm
  /-- the format never uses the byte -/
  | unused
  /-- the byte is the whole item -/
  | value (item : MsgPackItem)
  /-- a number of `width` bytes -/
  | number (width : ℕ) (item : ℕ → MsgPackItem)
  /-- a payload of known length -/
  | bytes (length : ℕ) (item : List UInt8 → MsgPackItem)
  /-- a length of `width` bytes, then the payload -/
  | sizedBytes (width : ℕ) (item : List UInt8 → MsgPackItem)
  /-- the type of the extension, then a payload of known length -/
  | ext (length : ℕ)
  /-- a length of `width` bytes, the type of the extension, then the payload -/
  | sizedExt (width : ℕ)

namespace MsgPackForm

/-- The signed number whose two's complement representation in `width` bytes is `v`. -/
def signed (width v : ℕ) : MsgPackItem := .int (Int.bmod v (2 ^ (8 * width)))

/-- The table of first bytes. -/
def ofTag (n : ℕ) : MsgPackForm :=
  if n ≤ 0x7F then .value (.int n)
  else if n ≤ 0x8F then .value (.map (n - 0x80))
  else if n ≤ 0x9F then .value (.array (n - 0x90))
  else if n ≤ 0xBF then .bytes (n - 0xA0) .str
  else match n with
  | 0xC0 => .value .nil
  | 0xC1 => .unused
  | 0xC2 => .value (.bool false)
  | 0xC3 => .value (.bool true)
  | 0xC4 => .sizedBytes 1 .bin
  | 0xC5 => .sizedBytes 2 .bin
  | 0xC6 => .sizedBytes 4 .bin
  | 0xC7 => .sizedExt 1
  | 0xC8 => .sizedExt 2
  | 0xC9 => .sizedExt 4
  | 0xCA => .number 4 .float32
  | 0xCB => .number 8 .float64
  | 0xCC => .number 1 .uint
  | 0xCD => .number 2 .uint
  | 0xCE => .number 4 .uint
  | 0xCF => .number 8 .uint
  | 0xD0 => .number 1 (signed 1)
  | 0xD1 => .number 2 (signed 2)
  | 0xD2 => .number 4 (signed 4)
  | 0xD3 => .number 8 (signed 8)
  | 0xD4 => .ext 1
  | 0xD5 => .ext 2
  | 0xD6 => .ext 4
  | 0xD7 => .ext 8
  | 0xD8 => .ext 16
  | 0xD9 => .sizedBytes 1 .str
  | 0xDA => .sizedBytes 2 .str
  | 0xDB => .sizedBytes 4 .str
  | 0xDC => .number 2 .array
  | 0xDD => .number 4 .array
  | 0xDE => .number 2 .map
  | 0xDF => .number 4 .map
  | n => .value (.int (n - 256))

/-- The tags that carry a value or a length themselves. -/
theorem ofTag_masked {n : ℕ} (h : n < 0xC0 ∨ 0xE0 ≤ n) :
    ofTag n =
      if n ≤ 0x7F then .value (.int n)
      else if n ≤ 0x8F then .value (.map (n - 0x80))
      else if n ≤ 0x9F then .value (.array (n - 0x90))
      else if n ≤ 0xBF then .bytes (n - 0xA0) .str
      else .value (.int (n - 256)) := by
  unfold ofTag
  split_ifs
  · rfl
  · rfl
  · rfl
  · rfl
  · split <;> first | rfl | omega

/-- The bytes that may follow the first byte, with the item they complete. -/
def Body : MsgPackForm → List UInt8 → MsgPackItem → Prop
  | unused, _, _ => False
  | value i, bs, item => bs = [] ∧ item = i
  | number width f, bs, item => bs.length = width ∧ item = f (natOfBE bs)
  | bytes length f, bs, item => bs.length = length ∧ item = f bs
  | sizedBytes width f, bs, item =>
    ∃ size ds, bs = size ++ ds ∧ size.length = width ∧ ds.length = natOfBE size ∧ item = f ds
  | ext length, bs, item =>
    ∃ t ds, bs = t :: ds ∧ ds.length = length ∧ item = .ext (Int.bmod t.toNat 256) ds
  | sizedExt width, bs, item =>
    ∃ size t ds, bs = size ++ t :: ds ∧ size.length = width ∧ ds.length = natOfBE size ∧
      item = .ext (Int.bmod t.toNat 256) ds

end MsgPackForm

/-- The bytes `bs` stand for the item. -/
def MsgPackItem.Encodes (bs : List UInt8) (item : MsgPackItem) : Prop :=
  ∃ b body, bs = b :: body ∧ (MsgPackForm.ofTag b.toNat).Body body item

/-- **A form is prefix-deterministic**: at most one prefix of a text completes it, and to one
item. -/
theorem MsgPackForm.body_unique {f : MsgPackForm} {bs bs' ds ds' : List UInt8}
    {item item' : MsgPackItem} (h : f.Body bs item) (h' : f.Body bs' item')
    (heq : bs ++ ds = bs' ++ ds') : bs = bs' ∧ item = item' := by
  cases f with
  | unused => exact h.elim
  | value i => exact ⟨h.1.trans h'.1.symm, h.2.trans h'.2.symm⟩
  | number width f =>
    obtain ⟨rfl, -⟩ := List.append_inj heq (h.1.trans h'.1.symm)
    exact ⟨rfl, h.2.trans h'.2.symm⟩
  | bytes length f =>
    obtain ⟨rfl, -⟩ := List.append_inj heq (h.1.trans h'.1.symm)
    exact ⟨rfl, h.2.trans h'.2.symm⟩
  | sizedBytes width f =>
    obtain ⟨size, cs, rfl, hw, hn, rfl⟩ := h
    obtain ⟨size', cs', rfl, hw', hn', rfl⟩ := h'
    rw [List.append_assoc, List.append_assoc] at heq
    obtain ⟨rfl, htail⟩ := List.append_inj heq (hw.trans hw'.symm)
    obtain ⟨rfl, -⟩ := List.append_inj htail (hn.trans hn'.symm)
    exact ⟨rfl, rfl⟩
  | ext length =>
    obtain ⟨t, cs, rfl, hn, rfl⟩ := h
    obtain ⟨t', cs', rfl, hn', rfl⟩ := h'
    obtain ⟨hcons, -⟩ := List.append_inj heq (congrArg (· + 1) (hn.trans hn'.symm))
    obtain ⟨rfl, rfl⟩ := List.cons.inj hcons
    exact ⟨rfl, rfl⟩
  | sizedExt width =>
    obtain ⟨size, t, cs, rfl, hw, hn, rfl⟩ := h
    obtain ⟨size', t', cs', rfl, hw', hn', rfl⟩ := h'
    rw [List.append_assoc, List.append_assoc] at heq
    obtain ⟨rfl, htail⟩ := List.append_inj heq (hw.trans hw'.symm)
    obtain ⟨hcons, -⟩ := List.append_inj htail (congrArg (· + 1) (hn.trans hn'.symm))
    obtain ⟨rfl, rfl⟩ := List.cons.inj hcons
    exact ⟨rfl, rfl⟩

/-- **The format is prefix-free**: a text starts with at most one item. -/
theorem MsgPackItem.Encodes.unique {bs bs' ds ds' : List UInt8} {item item' : MsgPackItem}
    (h : Encodes bs item) (h' : Encodes bs' item') (heq : bs ++ ds = bs' ++ ds') :
    bs = bs' ∧ item = item' := by
  obtain ⟨b, body, rfl, hbody⟩ := h
  obtain ⟨b', body', rfl, hbody'⟩ := h'
  obtain ⟨rfl, htail⟩ := List.cons.inj heq
  obtain ⟨rfl, rfl⟩ := MsgPackForm.body_unique hbody hbody' htail
  exact ⟨rfl, rfl⟩

section SizedExt

variable {b : UInt8} {width : ℕ} {size ds : List UInt8}

/-- The only item that can start with the header of a sized extension. -/
theorem MsgPackItem.Encodes.sizedExt {bs tail : List UInt8} {item : MsgPackItem}
    (h : Encodes bs item) (hform : MsgPackForm.ofTag b.toNat = .sizedExt width)
    (hsize : size.length = width) (heq : b :: (size ++ ds) = bs ++ tail) :
    ∃ t es, ds = t :: (es ++ tail) ∧ es.length = natOfBE size ∧
      item = .ext (Int.bmod t.toNat 256) es := by
  obtain ⟨b', body, rfl, hbody⟩ := h
  obtain ⟨rfl, htail⟩ := List.cons.inj heq
  rw [hform] at hbody
  obtain ⟨size', t, es, rfl, hsize', hlen, rfl⟩ := hbody
  have hsplit : size ++ ds = size' ++ (t :: es ++ tail) := htail.trans (List.append_assoc ..)
  obtain ⟨rfl, hds⟩ := List.append_inj hsplit (hsize.trans hsize'.symm)
  exact ⟨t, es, hds, hlen, rfl⟩

/-- A sized extension is there when its type and its payload are. -/
theorem MsgPackItem.exists_encodes_sizedExt
    (hform : MsgPackForm.ofTag b.toNat = .sizedExt width) (hsize : size.length = width)
    (hle : natOfBE size + 1 ≤ ds.length) :
    ∃ bs tail item, b :: (size ++ ds) = bs ++ tail ∧ Encodes bs item := by
  obtain ⟨t, ts, rfl⟩ := List.exists_cons_of_length_pos (by omega : 0 < ds.length)
  have hts : natOfBE size ≤ ts.length := Nat.le_of_succ_le_succ hle
  refine ⟨b :: (size ++ t :: ts.take (natOfBE size)), ts.drop (natOfBE size),
    .ext (Int.bmod t.toNat 256) (ts.take (natOfBE size)), ?_, b, _, rfl, ?_⟩
  · rw [List.cons_append, List.append_assoc, List.cons_append, List.take_append_drop]
  · rw [hform]
    exact ⟨size, t, _, rfl, hsize, List.length_take_of_le hts, rfl⟩

end SizedExt

end VeritableLasagna
