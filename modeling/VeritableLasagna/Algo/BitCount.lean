import VeritableLasagna.Algo.Gcd
import VeritableLasagna.Lib.Bits

/-!
# Counting bits without builtins

Where the compiler has no builtins, `vlAlgoPopCount`, `vlAlgoCLZ` and `vlAlgoCTZ` fall back to loops,
binary search, byte-wise sums and De Bruijn tables. Most of them count right. Three do not
(`bitOpsAgree_iff`):

* `vlAlgoCLZ8` of a byte that is zero is 8, and not zero as `vlAlgoCLZ16` takes it to be, so it counts
  the wrong byte or adds 8 too often.
* The product in `vlAlgoCTZ8` has far fewer than 32 bits, so the index into its table is always zero.
* `vlAlgoCTZ16` is made of `vlAlgoCTZ8`.
-/

namespace VeritableLasagna

/-! ### Population counts -/

/-- The loop of `vlAlgoPopCount8`. -/
def vlAlgoPopCount8Loop : ℕ → UInt8 → ℕ → Except Fault ℕ
  | 0, _, _ => .error .noReturn
  | rounds + 1, value, count =>
    if value ≠ 0 then vlAlgoPopCount8Loop rounds (value >>> 1) (count + (value &&& 1).toNat)
    else .ok count

/-- The fallback of `vlAlgoPopCount8`. -/
def vlAlgoPopCount8 (value : UInt8) : Except Fault ℕ := vlAlgoPopCount8Loop 9 value 0

/-- The loop of `vlAlgoPopCount16`. -/
def vlAlgoPopCount16Loop : ℕ → UInt16 → ℕ → Except Fault ℕ
  | 0, _, _ => .error .noReturn
  | rounds + 1, value, count =>
    if value ≠ 0 then vlAlgoPopCount16Loop rounds (value &&& (value - 1)) (count + 1)
    else .ok count

/-- The fallback of `vlAlgoPopCount16`. -/
def vlAlgoPopCount16 (value : UInt16) : Except Fault ℕ := vlAlgoPopCount16Loop 17 value 0

/-- The fallback of `vlAlgoPopCount32`. -/
def vlAlgoPopCount32 (value : UInt32) : ℕ :=
  let value : UInt32 := value - ((value >>> 1) &&& 0x55555555)
  let value := (value &&& (0x33333333 : UInt32)) + ((value >>> 2) &&& (0x33333333 : UInt32))
  let value : UInt32 := (((value + (value >>> 4)) &&& 0x0F0F0F0F) * 0x01010101) >>> 24
  value.toNat

/-- The fallback of `vlAlgoPopCount64`. -/
def vlAlgoPopCount64 (value : UInt64) : ℕ :=
  vlAlgoPopCount32 value.toUInt32 + vlAlgoPopCount32 (value >>> 32).toUInt32

/-! ### Leading zeros -/

/-- One step of the binary search for the leading zeros: if the upper part is empty, the lower part is
moved up. -/
def clzStep (mask shift : UInt32) (s : ℕ × UInt32) : ℕ × UInt32 :=
  if s.2 &&& mask = 0 then (s.1 + shift.toNat, s.2 <<< shift) else s

/-- The fallback of `vlAlgoCLZ32`. -/
def vlAlgoCLZ32 (value : UInt32) : ℕ :=
  if value = 0 then 32
  else
    let s := clzStep 0xFFFF0000 16 (0, value)
    let s := clzStep 0xFF000000 8 s
    let s := clzStep 0xF0000000 4 s
    let s := clzStep 0xC0000000 2 s
    if s.2 &&& 0x80000000 = 0 then s.1 + 1 else s.1

/-- The fallback of `vlAlgoCLZ8`. -/
def vlAlgoCLZ8 (value : UInt8) : ℕ :=
  if value = 0 then 8
  else
    let s : ℕ × UInt8 := if value &&& 0xF0 = 0 then (4, value <<< 4) else (0, value)
    let s := if s.2 &&& 0xC0 = 0 then (s.1 + 2, s.2 <<< 2) else s
    if s.2 &&& 0x80 = 0 then s.1 + 1 else s.1

/-- The fallback of `vlAlgoCLZ16`. -/
def vlAlgoCLZ16 (value : UInt16) : ℕ :=
  if value = 0 then 16
  else if vlAlgoCLZ8 (value >>> 8).toUInt8 ≠ 0 then vlAlgoCLZ8 (value >>> 8).toUInt8 + 8
  else vlAlgoCLZ8 (value &&& 0xFF).toUInt8

/-- The fallback of `vlAlgoCLZ64`. -/
def vlAlgoCLZ64 (value : UInt64) : ℕ :=
  if value = 0 then 64
  else
    let high := (value >>> 32).toUInt32
    if high ≠ 0 then vlAlgoCLZ32 high else 32 + vlAlgoCLZ32 value.toUInt32

/-! ### Trailing zeros -/

/-- An entry of a table. -/
def tableEntry (table : List ℕ) (index : UInt32) : Except Fault ℕ :=
  match table[index.toNat]? with
  | some entry => .ok entry
  | none => .error .outOfBounds

/-- The fallback of `vlAlgoCTZ8`. -/
def vlAlgoCTZ8 (value : UInt8) : Except Fault ℕ :=
  if value = 0 then .ok 8
  else tableEntry [0, 1, 2, 4, 7, 3, 6, 5] (((value &&& -value).toUInt32 * 0x17) >>> 29)

/-- The fallback of `vlAlgoCTZ16`. -/
def vlAlgoCTZ16 (value : UInt16) : Except Fault ℕ :=
  if value = 0 then .ok 16
  else if value &&& 0xFF ≠ 0 then vlAlgoCTZ8 (value &&& 0xFF).toUInt8
  else do
    let count ← vlAlgoCTZ8 (value >>> 8).toUInt8
    return 8 + count

/-- The fallback of `vlAlgoCTZ32`. -/
def vlAlgoCTZ32 (value : UInt32) : Except Fault ℕ :=
  if value = 0 then .ok 32
  else tableEntry [0, 1, 28, 2, 29, 14, 24, 3, 30, 22, 20, 15, 25, 17, 4, 8,
    31, 27, 13, 23, 21, 19, 16, 7, 26, 12, 18, 6, 11, 5, 10, 9]
    (((value &&& -value) * 0x077CB531) >>> 27)

/-- The fallback of `vlAlgoCTZ64`. -/
def vlAlgoCTZ64 (value : UInt64) : Except Fault ℕ :=
  if value = 0 then .ok 64
  else
    let low := value.toUInt32
    if low ≠ 0 then vlAlgoCTZ32 low
    else do
      let count ← vlAlgoCTZ32 (value >>> 32).toUInt32
      return 32 + count

/-- **The fallbacks count what the builtins do**, one value of each width. -/
structure BitOpsAgree (v₈ : UInt8) (v₁₆ : UInt16) (v₃₂ : UInt32) (v₆₄ : UInt64) : Prop where
  popCount8 : vlAlgoPopCount8 v₈ = .ok (oneBits 8 v₈.toNat)
  popCount16 : vlAlgoPopCount16 v₁₆ = .ok (oneBits 16 v₁₆.toNat)
  popCount32 : vlAlgoPopCount32 v₃₂ = oneBits 32 v₃₂.toNat
  popCount64 : vlAlgoPopCount64 v₆₄ = oneBits 64 v₆₄.toNat
  clz8 : vlAlgoCLZ8 v₈ = leadingZeros 8 v₈.toNat
  clz16 : vlAlgoCLZ16 v₁₆ = leadingZeros 16 v₁₆.toNat
  clz32 : vlAlgoCLZ32 v₃₂ = leadingZeros 32 v₃₂.toNat
  clz64 : vlAlgoCLZ64 v₆₄ = leadingZeros 64 v₆₄.toNat
  ctz8 : vlAlgoCTZ8 v₈ = .ok (trailingZeros 8 v₈.toNat)
  ctz16 : vlAlgoCTZ16 v₁₆ = .ok (trailingZeros 16 v₁₆.toNat)
  ctz32 : vlAlgoCTZ32 v₃₂ = .ok (trailingZeros 32 v₃₂.toNat)
  ctz64 : vlAlgoCTZ64 v₆₄ = .ok (trailingZeros 64 v₆₄.toNat)

/-! ### Bytes -/

theorem vlAlgoPopCount8_eq (b : UInt8) : vlAlgoPopCount8 b = .ok (oneBits 8 b.toNat) :=
  forall_byte (p := fun b => vlAlgoPopCount8 b = .ok (oneBits 8 b.toNat)) (by decide +kernel) b

theorem vlAlgoCLZ8_eq (b : UInt8) : vlAlgoCLZ8 b = leadingZeros 8 b.toNat :=
  forall_byte (p := fun b => vlAlgoCLZ8 b = leadingZeros 8 b.toNat) (by decide +kernel) b

/-- **The table of `vlAlgoCTZ8`** is only read at its first entry. -/
theorem vlAlgoCTZ8_eq (b : UInt8) : vlAlgoCTZ8 b = .ok (if b = 0 then 8 else 0) :=
  forall_byte (p := fun b => vlAlgoCTZ8 b = .ok (if b = 0 then 8 else 0)) (by decide +kernel) b

/-! ### Population counts, wider -/

/-- Every round takes one of the ones out. -/
theorem vlAlgoPopCount16Loop_eq (rounds : ℕ) (value : UInt16) (count : ℕ)
    (h : oneBits 16 value.toNat < rounds) :
    vlAlgoPopCount16Loop rounds value count = .ok (count + oneBits 16 value.toNat) := by
  induction rounds generalizing value count with
  | zero => exact absurd h (Nat.not_lt_zero _)
  | succ rounds ih =>
    rw [vlAlgoPopCount16Loop]
    by_cases hv : value = 0
    · rw [if_neg (not_not.mpr hv), hv]
      rfl
    · have hpos : value.toNat ≠ 0 := fun hzero => hv (UInt16.toNat.inj hzero)
      have hand : (value &&& (value - 1)).toNat = value.toNat &&& (value.toNat - 1) := by
        rw [UInt16.toNat_and, UInt16.toNat_sub_of_le _ _ (UInt16.le_iff_toNat_le.mpr ?_)]
        · rfl
        · exact Nat.one_le_iff_ne_zero.mpr hpos
      have htaken := oneBits_land_pred hpos value.toNat_lt
      rw [← hand] at htaken
      rw [if_pos hv, ih _ _ (by omega), ← htaken]
      congr 1
      omega

theorem oneBits_le (w n : ℕ) : oneBits w n ≤ w :=
  List.countP_le_length.trans (List.length_range).le

theorem vlAlgoPopCount16_eq (value : UInt16) :
    vlAlgoPopCount16 value = .ok (oneBits 16 value.toNat) := by
  rw [vlAlgoPopCount16, vlAlgoPopCount16Loop_eq _ _ _ (Nat.lt_succ_of_le (oneBits_le 16 _)),
    Nat.zero_add]

/-- A word of four bytes. -/
def quad (d c b a : ℕ) : ℕ := 2 ^ 8 * (2 ^ 8 * (2 ^ 8 * d + c) + b) + a

section Quad

variable {a b c d m s : ℕ}

/-- **A mask of each byte**, over the word shifted down. -/
theorem quad_shiftRight_land (ha : a < 2 ^ 8) (hb : b < 2 ^ 8) (hc : c < 2 ^ 8) (hs : s ≤ 8)
    (hm : m < 2 ^ (8 - s)) : (quad d c b a >>> s) &&& quad m m m m =
      quad ((d >>> s) &&& m) ((c >>> s) &&& m) ((b >>> s) &&& m) ((a >>> s) &&& m) := by
  rw [quad, quad, two_pow_mul_add_shiftRight_land ha hs hm, two_pow_mul_add_shiftRight_land hb hs hm,
    two_pow_mul_add_shiftRight_land hc hs hm, quad]

theorem oneBits_quad (ha : a < 2 ^ 8) (hb : b < 2 ^ 8) (hc : c < 2 ^ 8) : oneBits 32 (quad d c b a) =
    oneBits 8 d + oneBits 8 c + oneBits 8 b + oneBits 8 a := by
  have h₃ : oneBits (8 + 24) (quad d c b a) = _ := oneBits_two_pow_mul_add ha
  have h₂ : oneBits (8 + 16) (2 ^ 8 * (2 ^ 8 * d + c) + b) = _ := oneBits_two_pow_mul_add hb
  have h₁ : oneBits (8 + 8) (2 ^ 8 * d + c) = _ := oneBits_two_pow_mul_add hc
  exact h₃.trans (congrArg (· + _) (h₂.trans (congrArg (· + _) h₁)))

end Quad

theorem exists_quad (value : UInt32) : ∃ d c b a, value.toNat = quad d c b a ∧
    d < 2 ^ 8 ∧ c < 2 ^ 8 ∧ b < 2 ^ 8 ∧ a < 2 ^ 8 := by
  have hlt := value.toNat_lt
  refine ⟨value.toNat / 2 ^ 24, value.toNat / 2 ^ 16 % 2 ^ 8, value.toNat / 2 ^ 8 % 2 ^ 8,
    value.toNat % 2 ^ 8, ?_, ?_⟩
  · rw [quad]
    omega
  · omega

/-- The ones of every two bits of a byte. -/
def pairs (b : ℕ) : ℕ := b - ((b >>> 1) &&& 0x55)

/-- The ones of every four bits of a byte, of those of every two. -/
def nibbles (p : ℕ) : ℕ := (p &&& 0x33) + ((p >>> 2) &&& 0x33)

/-- **What the sums do in a byte**, without a carry out of it. -/
theorem byteSums {b : ℕ} (hb : b < 2 ^ 8) : (b >>> 1) &&& 0x55 ≤ b ∧ nibbles (pairs b) ≤ 0x44 ∧
    nibbles (pairs b) % 16 ≤ 4 ∧ (nibbles (pairs b) + nibbles (pairs b) / 16) % 16 = oneBits 8 b := by
  have h : ∀ n : Fin (2 ^ 8), (n.val >>> 1) &&& 0x55 ≤ n.val ∧ nibbles (pairs n.val) ≤ 0x44 ∧
      nibbles (pairs n.val) % 16 ≤ 4 ∧
      (nibbles (pairs n.val) + nibbles (pairs n.val) / 16) % 16 = oneBits 8 n.val := by
    decide +kernel
  exact h ⟨b, hb⟩

section Word

variable {a b c d : ℕ} {value : UInt32}

/-- The first step, in the bytes. -/
theorem quad_pairs (hvalue : value.toNat = quad d c b a) (hd : d < 2 ^ 8) (hc : c < 2 ^ 8)
    (hb : b < 2 ^ 8) (ha : a < 2 ^ 8) : (value - ((value >>> 1) &&& 0x55555555)).toNat =
      quad (pairs d) (pairs c) (pairs b) (pairs a) := by
  have hand : ((value >>> 1) &&& 0x55555555).toNat = quad ((d >>> 1) &&& 0x55) ((c >>> 1) &&& 0x55)
      ((b >>> 1) &&& 0x55) ((a >>> 1) &&& 0x55) := by
    rw [UInt32.toNat_and, UInt32.toNat_shiftRight, hvalue]
    exact quad_shiftRight_land (m := 0x55) (s := 1) ha hb hc (by norm_num) (by norm_num)
  have hd' := (byteSums hd).1
  have hc' := (byteSums hc).1
  have hb' := (byteSums hb).1
  have ha' := (byteSums ha).1
  rw [UInt32.toNat_sub_of_le, hvalue, hand]
  · unfold quad pairs
    omega
  · rw [UInt32.le_iff_toNat_le, hand, hvalue]
    unfold quad
    omega

/-- The second step, in the bytes. -/
theorem quad_nibbles (hvalue : value.toNat = quad d c b a) (hd : nibbles d ≤ 0x44)
    (hc : c < 2 ^ 8) (hc' : nibbles c ≤ 0x44) (hb : b < 2 ^ 8) (hb' : nibbles b ≤ 0x44)
    (ha : a < 2 ^ 8) (ha' : nibbles a ≤ 0x44) :
    ((value &&& (0x33333333 : UInt32)) + ((value >>> 2) &&& (0x33333333 : UInt32))).toNat =
      quad (nibbles d) (nibbles c) (nibbles b) (nibbles a) := by
  have hlow : (value &&& 0x33333333).toNat = quad (d &&& 0x33) (c &&& 0x33) (b &&& 0x33) (a &&& 0x33) := by
    rw [UInt32.toNat_and, hvalue]
    exact quad_shiftRight_land (m := 0x33) (s := 0) ha hb hc (by norm_num) (by norm_num)
  have hhigh : ((value >>> 2) &&& 0x33333333).toNat = quad ((d >>> 2) &&& 0x33) ((c >>> 2) &&& 0x33)
      ((b >>> 2) &&& 0x33) ((a >>> 2) &&& 0x33) := by
    rw [UInt32.toNat_and, UInt32.toNat_shiftRight, hvalue]
    exact quad_shiftRight_land (m := 0x33) (s := 2) ha hb hc (by norm_num) (by norm_num)
  unfold nibbles at hd hc' hb' ha'
  rw [UInt32.toNat_add, hlow, hhigh]
  unfold quad nibbles
  omega

/-- The third step, in the bytes: what comes down from the byte above falls under the mask. -/
theorem quad_total (hvalue : value.toNat = quad d c b a) (hd : d ≤ 0x44) (hd' : d % 16 ≤ 4)
    (hc : c ≤ 0x44) (hc' : c % 16 ≤ 4) (hb : b ≤ 0x44) (hb' : b % 16 ≤ 4) (ha : a ≤ 0x44) :
    ((value + (value >>> 4)) &&& 0x0F0F0F0F).toNat = quad ((d + d / 16) % 16) ((c + c / 16) % 16)
      ((b + b / 16) % 16) ((a + a / 16) % 16) := by
  have hadd : (value + (value >>> 4)).toNat = quad (d + d / 16) (c + c / 16 + 16 * (d % 16))
      (b + b / 16 + 16 * (c % 16)) (a + a / 16 + 16 * (b % 16)) := by
    rw [UInt32.toNat_add, UInt32.toNat_shiftRight, hvalue]
    have hdiv : quad d c b a >>> 4 = quad d c b a / 16 := Nat.shiftRight_eq_div_pow _ 4
    have hshift : quad d c b a >>> (UInt32.toNat 4 % 32) = quad d c b a / 16 := hdiv
    rw [hshift]
    unfold quad
    omega
  have hland : ∀ x : ℕ, x &&& 15 = x % 16 := fun x => Nat.and_two_pow_sub_one_eq_mod x 4
  have hmask := quad_shiftRight_land (d := d + d / 16) (m := 15) (s := 0)
    (by omega : a + a / 16 + 16 * (b % 16) < 2 ^ 8) (by omega : b + b / 16 + 16 * (c % 16) < 2 ^ 8)
    (by omega : c + c / 16 + 16 * (d % 16) < 2 ^ 8) (by norm_num) (by norm_num)
  simp only [Nat.shiftRight_zero, hland, Nat.add_mul_mod_self_left] at hmask
  rw [UInt32.toNat_and, hadd]
  exact hmask

/-- **The multiplication adds the four bytes up** in the highest. -/
theorem quad_sum (hvalue : value.toNat = quad d c b a) (hd : d ≤ 8) (hc : c ≤ 8) (hb : b ≤ 8)
    (ha : a ≤ 8) : ((value * 0x01010101) >>> 24).toNat = d + c + b + a := by
  have hshift : ((value * 0x01010101) >>> 24).toNat = (value * 0x01010101).toNat / 2 ^ 24 := by
    rw [UInt32.toNat_shiftRight]
    exact Nat.shiftRight_eq_div_pow _ 24
  have hmul : (value * 0x01010101).toNat = quad d c b a * 0x01010101 % 2 ^ 32 := by
    rw [UInt32.toNat_mul, hvalue]
    rfl
  -- column by column
  have hcolumns : quad d c b a * 0x01010101 = 2 ^ 32 * (2 ^ 16 * d + 2 ^ 8 * (d + c) + (d + c + b)) +
      (2 ^ 24 * (d + c + b + a) + (2 ^ 16 * (c + b + a) + 2 ^ 8 * (b + a) + a)) := by
    unfold quad
    ring
  rw [hshift, hmul, hcolumns, Nat.mul_add_mod, Nat.mod_eq_of_lt (by omega)]
  omega

end Word

theorem vlAlgoPopCount32_eq (value : UInt32) : vlAlgoPopCount32 value = oneBits 32 value.toNat := by
  obtain ⟨d, c, b, a, hvalue, hd, hc, hb, ha⟩ := exists_quad value
  obtain ⟨-, hd₁, hd₂, hd₃⟩ := byteSums hd
  obtain ⟨-, hc₁, hc₂, hc₃⟩ := byteSums hc
  obtain ⟨-, hb₁, hb₂, hb₃⟩ := byteSums hb
  obtain ⟨-, ha₁, -, ha₃⟩ := byteSums ha
  have hlt : ∀ {x : ℕ}, x < 2 ^ 8 → pairs x < 2 ^ 8 := fun hx => (Nat.sub_le _ _).trans_lt hx
  have hsums := quad_total (quad_nibbles (quad_pairs hvalue hd hc hb ha) hd₁ (hlt hc) hc₁ (hlt hb) hb₁
    (hlt ha) ha₁) hd₁ hd₂ hc₁ hc₂ hb₁ hb₂ ha₁
  rw [hd₃, hc₃, hb₃, ha₃] at hsums
  rw [hvalue, oneBits_quad ha hb hc]
  exact quad_sum hsums (oneBits_le 8 d) (oneBits_le 8 c) (oneBits_le 8 b) (oneBits_le 8 a)

theorem UInt64.exists_split (value : UInt64) : value.toNat =
    2 ^ 32 * (value >>> 32).toUInt32.toNat + value.toUInt32.toNat := by
  have hhigh : (value >>> 32).toUInt32.toNat = value.toNat / 2 ^ 32 % 2 ^ 32 := by
    rw [UInt64.toNat_toUInt32, UInt64.toNat_shiftRight]
    exact congrArg (· % 2 ^ 32) (Nat.shiftRight_eq_div_pow _ 32)
  have hlt := value.toNat_lt
  rw [hhigh, UInt64.toNat_toUInt32]
  omega

theorem vlAlgoPopCount64_eq (value : UInt64) : vlAlgoPopCount64 value = oneBits 64 value.toNat := by
  have hsplit := oneBits_two_pow_mul_add (n := (value >>> 32).toUInt32.toNat) (w := 32)
    value.toUInt32.toNat_lt
  rw [← UInt64.exists_split] at hsplit
  rw [vlAlgoPopCount64, vlAlgoPopCount32_eq, vlAlgoPopCount32_eq, Nat.add_comm]
  exact hsplit.symm

/-! ### Leading zeros, wider -/

/-- The mask of a step asks for the upper part. -/
theorem land_mask_eq_zero {k : ℕ} {v mask : UInt32} (hk : k ≤ 32)
    (hmask : mask.toNat = 2 ^ 32 - 2 ^ k) : v &&& mask = 0 ↔ v.toNat < 2 ^ k := by
  have hlt := v.toNat_lt
  have hpow : (2 : ℕ) ^ 32 = 2 ^ k * 2 ^ (32 - k) := by rw [← pow_add, Nat.add_sub_of_le hk]
  have hquot : v.toNat / 2 ^ k < 2 ^ (32 - k) := Nat.div_lt_of_lt_mul (hpow ▸ hlt)
  have hand : (v &&& mask).toNat = 2 ^ k * (v.toNat / 2 ^ k) := by
    have hones : 2 ^ 32 - 2 ^ k = 2 ^ k * (2 ^ (32 - k) - 1) + 0 := by
      rw [Nat.mul_sub, Nat.mul_one, ← hpow, Nat.add_zero]
    have hdiv := two_pow_mul_add_land (a := v.toNat / 2 ^ k) (c := 2 ^ (32 - k) - 1)
      (Nat.mod_lt v.toNat (Nat.two_pow_pos k)) (Nat.two_pow_pos k)
    rw [Nat.div_add_mod, Nat.and_two_pow_sub_one_eq_mod, Nat.mod_eq_of_lt hquot, Nat.and_zero] at hdiv
    rw [UInt32.toNat_and, hmask, hones]
    exact hdiv
  rw [← UInt32.toNat_inj, hand, ← Nat.div_eq_zero_iff_lt (Nat.two_pow_pos k)]
  exact mul_eq_zero.trans (or_iff_right (Nat.two_pow_pos k).ne')

/-- The word is the number moved up by what has been counted, to the place `k` at least. -/
def Moved (n k : ℕ) (s : ℕ × UInt32) : Prop := s.2.toNat = n * 2 ^ s.1 ∧ 2 ^ k ≤ s.2.toNat

/-- **A step of the search** gets the number half the way further up. -/
theorem Moved.clzStep {n k j : ℕ} {mask shift : UInt32} {s : ℕ × UInt32} (h : Moved n j s)
    (hk : j + shift.toNat = k) (hshift : k + shift.toNat = 32) (hpos : shift.toNat < 32)
    (hmask : mask.toNat = 2 ^ 32 - 2 ^ k) : Moved n k (clzStep mask shift s) := by
  obtain ⟨hmoved, hle⟩ := h
  rw [VeritableLasagna.clzStep]
  split_ifs with hzero
  · rw [land_mask_eq_zero (by omega) hmask] at hzero
    have hpow : (2 : ℕ) ^ 32 = 2 ^ k * 2 ^ shift.toNat := by rw [← pow_add, hshift]
    have hlt : s.2.toNat * 2 ^ shift.toNat < 2 ^ 32 :=
      hpow ▸ Nat.mul_lt_mul_of_pos_right hzero (Nat.two_pow_pos _)
    have hup : (s.2 <<< shift).toNat = s.2.toNat * 2 ^ shift.toNat := by
      rw [UInt32.toNat_shiftLeft, Nat.mod_eq_of_lt hpos, Nat.shiftLeft_eq,
        Nat.mod_eq_of_lt hlt]
    refine ⟨?_, ?_⟩
    · show (s.2 <<< shift).toNat = n * 2 ^ (s.1 + shift.toNat)
      rw [hup, hmoved, pow_add, Nat.mul_assoc]
    · show 2 ^ k ≤ (s.2 <<< shift).toNat
      rw [hup, ← hk, pow_add]
      exact Nat.mul_le_mul_right _ hle
  · rw [land_mask_eq_zero (by omega) hmask, not_lt] at hzero
    exact ⟨hmoved, hzero⟩

/-- The four steps leave at most one more place. -/
theorem exists_moved {value : UInt32} (hzero : value ≠ 0) : Moved value.toNat 30
    (clzStep 0xC0000000 2 (clzStep 0xF0000000 4 (clzStep 0xFF000000 8 (clzStep 0xFFFF0000 16
      (0, value))))) := by
  have hpos : 1 ≤ value.toNat := Nat.one_le_iff_ne_zero.mpr fun h => hzero (UInt32.toNat.inj h)
  refine Moved.clzStep (j := 28) ?_ (by rfl) (by rfl) (by decide) (by rfl)
  refine Moved.clzStep (j := 24) ?_ (by rfl) (by rfl) (by decide) (by rfl)
  refine Moved.clzStep (j := 16) ?_ (by rfl) (by rfl) (by decide) (by rfl)
  refine Moved.clzStep (j := 0) ?_ (by rfl) (by rfl) (by decide) (by rfl)
  exact ⟨(Nat.mul_one _).symm, hpos⟩

theorem vlAlgoCLZ32_eq (value : UInt32) : vlAlgoCLZ32 value = leadingZeros 32 value.toNat := by
  rw [vlAlgoCLZ32]
  by_cases hzero : value = 0
  · rw [if_pos hzero, hzero]
    exact leadingZeros_zero.symm
  · rw [if_neg hzero]
    obtain ⟨hmoved, hle⟩ := exists_moved hzero
    set s := clzStep 0xC0000000 2 (clzStep 0xF0000000 4 (clzStep 0xFF000000 8 (clzStep 0xFFFF0000 16
      (0, value))))
    have hlt := s.2.toNat_lt
    have htop : s.2 &&& 0x80000000 = 0 ↔ s.2.toNat < 2 ^ 31 := land_mask_eq_zero (by norm_num) (by rfl)
    show (if s.2 &&& 0x80000000 = 0 then s.1 + 1 else s.1) = _
    by_cases hbit : s.2 &&& 0x80000000 = 0
    · rw [if_pos hbit]
      have hup : value.toNat * 2 ^ (s.1 + 1) = s.2.toNat * 2 := by rw [hmoved, pow_succ, Nat.mul_assoc]
      exact (leadingZeros_eq_of_shift (by rw [hup]; omega) (by rw [hup]; have := htop.mp hbit; omega)).symm
    · rw [if_neg hbit]
      rw [htop, not_lt] at hbit
      exact (leadingZeros_eq_of_shift (by rw [← hmoved]; exact hbit) (by rw [← hmoved]; exact hlt)).symm

theorem vlAlgoCLZ64_eq (value : UInt64) : vlAlgoCLZ64 value = leadingZeros 64 value.toNat := by
  rw [vlAlgoCLZ64]
  by_cases hzero : value = 0
  · rw [if_pos hzero, hzero]
    exact leadingZeros_zero.symm
  · rw [if_neg hzero]
    have hsplit : leadingZeros (32 + 32) value.toNat = _ :=
      (congrArg _ (UInt64.exists_split value)).trans (leadingZeros_two_pow_mul_add
        (value >>> 32).toUInt32.toNat_lt value.toUInt32.toNat_lt)
    refine Eq.trans ?_ hsplit.symm
    have hhigh : (value >>> 32).toUInt32 ≠ 0 ↔ (value >>> 32).toUInt32.toNat ≠ 0 :=
      not_congr UInt32.toNat_inj.symm
    show (if (value >>> 32).toUInt32 ≠ 0 then vlAlgoCLZ32 (value >>> 32).toUInt32 else
      32 + vlAlgoCLZ32 value.toUInt32) = _
    rw [vlAlgoCLZ32_eq, vlAlgoCLZ32_eq]
    exact if_congr hhigh rfl rfl

/-- The two bytes of a word. -/
theorem UInt16.exists_split (value : UInt16) : value.toNat =
    2 ^ 8 * (value >>> 8).toUInt8.toNat + (value &&& 0xFF).toUInt8.toNat := by
  have hhigh : (value >>> 8).toUInt8.toNat = value.toNat / 2 ^ 8 % 2 ^ 8 := by
    rw [UInt16.toNat_toUInt8, UInt16.toNat_shiftRight]
    exact congrArg (· % 2 ^ 8) (Nat.shiftRight_eq_div_pow _ 8)
  have hlow : (value &&& 0xFF).toUInt8.toNat = value.toNat % 2 ^ 8 := by
    rw [UInt16.toNat_toUInt8, UInt16.toNat_and]
    exact (congrArg (· % 2 ^ 8) (Nat.and_two_pow_sub_one_eq_mod value.toNat 8)).trans (Nat.mod_mod _ _)
  have hlt := value.toNat_lt
  rw [hhigh, hlow]
  omega

/-- The leading zeros of a byte, at their two ends. -/
theorem leadingZeros_byte (b : UInt8) : (leadingZeros 8 b.toNat = 0 ↔ 0x80 ≤ b.toNat) ∧
    (leadingZeros 8 b.toNat = 8 ↔ b.toNat = 0) :=
  forall_byte (p := fun b => (leadingZeros 8 b.toNat = 0 ↔ 0x80 ≤ b.toNat) ∧
    (leadingZeros 8 b.toNat = 8 ↔ b.toNat = 0)) (by decide +kernel) b

/-- **`vlAlgoCLZ16` counts right** of zero, and where neither byte has a leading zero. -/
theorem vlAlgoCLZ16_eq_iff (value : UInt16) : vlAlgoCLZ16 value = leadingZeros 16 value.toNat ↔
    value = 0 ∨ 0x80 ≤ value.toNat / 2 ^ 8 ∧ 0x80 ≤ value.toNat % 2 ^ 8 := by
  have hvalue := UInt16.exists_split value
  have hsplit : leadingZeros (8 + 8) value.toNat = _ := (congrArg _ hvalue).trans
    (leadingZeros_two_pow_mul_add (value >>> 8).toUInt8.toNat_lt (value &&& 0xFF).toUInt8.toNat_lt)
  have hlt := (value &&& 0xFF).toUInt8.toNat_lt
  obtain ⟨hhigh, hhigh'⟩ := leadingZeros_byte (value >>> 8).toUInt8
  obtain ⟨hlow, hlow'⟩ := leadingZeros_byte (value &&& 0xFF).toUInt8
  rw [vlAlgoCLZ16, vlAlgoCLZ8_eq, vlAlgoCLZ8_eq]
  refine (Eq.congr rfl hsplit).trans ?_
  by_cases hzero : value = 0
  · rw [← UInt16.toNat_inj] at hzero
    change value.toNat = 0 at hzero
    rw [if_pos (UInt16.toNat_inj.mp hzero), if_neg (by omega), hlow'.mpr (by omega)]
    exact iff_of_true rfl (Or.inl (UInt16.toNat_inj.mp hzero))
  · have hpos : value.toNat ≠ 0 := fun h => hzero (UInt16.toNat_inj.mp h)
    rw [if_neg hzero, or_iff_right hzero]
    split_ifs <;> omega

/-- **`vlAlgoCTZ8` counts right** of zero and of the odd bytes. -/
theorem vlAlgoCTZ8_eq_iff (value : UInt8) :
    vlAlgoCTZ8 value = .ok (trailingZeros 8 value.toNat) ↔ value = 0 ∨ value.toNat % 2 = 1 :=
  forall_byte (p := fun b => vlAlgoCTZ8 b = .ok (trailingZeros 8 b.toNat) ↔ b = 0 ∨ b.toNat % 2 = 1)
    (by decide +kernel) value

theorem trailingZeros_byte {b : UInt8} (hb : b ≠ 0) :
    trailingZeros 8 b.toNat = 0 ↔ b.toNat % 2 = 1 := by
  have h := vlAlgoCTZ8_eq_iff b
  rw [vlAlgoCTZ8_eq, if_neg hb, or_iff_right hb, Except.ok.injEq] at h
  exact eq_comm.trans h

/-- **`vlAlgoCTZ16` counts right** of zero, and where the lowest byte that is not zero is odd. -/
theorem vlAlgoCTZ16_eq_iff (value : UInt16) : vlAlgoCTZ16 value = .ok (trailingZeros 16 value.toNat) ↔
    value = 0 ∨ value.toNat % 2 = 1 ∨ value.toNat % 2 ^ 9 = 2 ^ 8 := by
  have hvalue := UInt16.exists_split value
  have hsplit : trailingZeros (8 + 8) value.toNat = _ := (congrArg _ hvalue).trans
    (trailingZeros_two_pow_mul_add (value >>> 8).toUInt8.toNat_lt (value &&& 0xFF).toUInt8.toNat_lt)
  have hlt := (value &&& 0xFF).toUInt8.toNat_lt
  have hand : value &&& 0xFF = 0 ↔ (value &&& 0xFF).toUInt8 = 0 := by
    have hmod : (value &&& 0xFF).toNat < 2 ^ 8 := by
      rw [UInt16.toNat_and]
      exact Nat.and_lt_two_pow _ (by decide)
    rw [← UInt16.toNat_inj, ← UInt8.toNat_inj, UInt16.toNat_toUInt8, Nat.mod_eq_of_lt hmod]
    rfl
  have hzeros : ∀ b : UInt8, b = 0 ↔ b.toNat = 0 := fun b => UInt8.toNat_inj.symm
  rw [vlAlgoCTZ16, vlAlgoCTZ8_eq, vlAlgoCTZ8_eq, hsplit]
  by_cases hzero : value = 0
  · have hlow : (value &&& 0xFF).toUInt8 = 0 := by rw [hzero]; rfl
    have hhigh : (value >>> 8).toUInt8 = 0 := by rw [hzero]; rfl
    rw [if_pos hzero, hlow, hhigh]
    exact iff_of_true rfl (Or.inl hzero)
  · rw [if_neg hzero, or_iff_right hzero]
    by_cases hlow : (value &&& 0xFF).toUInt8 = 0
    · have hhigh : (value >>> 8).toUInt8 ≠ 0 := by
        intro hhigh
        rw [hlow, hhigh] at hvalue
        exact hzero (UInt16.toNat.inj hvalue)
      rw [if_neg (not_not.mpr (hand.mpr hlow)), if_neg hhigh, if_neg (not_not.mpr ((hzeros _).mp hlow))]
      show Except.ok (8 + 0) = Except.ok _ ↔ _
      have hbyte := trailingZeros_byte hhigh
      rw [hzeros] at hlow
      rw [Except.ok.injEq]
      omega
    · rw [if_pos (mt hand.mp hlow), if_neg hlow, if_pos (mt (hzeros _).mpr hlow), Except.ok.injEq]
      have hbyte := trailingZeros_byte hlow
      rw [hzeros] at hlow
      omega

/-! ### Trailing zeros, wider -/

/-- **The table of `vlAlgoCTZ32`** has the place of every one, where the product looks for it. -/
theorem tableEntry_product {k : ℕ} (hk : k < 32) {v : UInt32} (hv : v.toNat = 2 ^ k) :
    tableEntry [0, 1, 28, 2, 29, 14, 24, 3, 30, 22, 20, 15, 25, 17, 4, 8,
      31, 27, 13, 23, 21, 19, 16, 7, 26, 12, 18, 6, 11, 5, 10, 9] ((v * 0x077CB531) >>> 27) = .ok k := by
  have h : ∀ k : Fin 32, tableEntry [0, 1, 28, 2, 29, 14, 24, 3, 30, 22, 20, 15, 25, 17, 4, 8,
      31, 27, 13, 23, 21, 19, 16, 7, 26, 12, 18, 6, 11, 5, 10, 9]
      ((UInt32.ofNat (2 ^ k.val) * 0x077CB531) >>> 27) = .ok k.val := by
    decide +kernel
  rw [← UInt32.ofNat_toNat (x := v), hv]
  exact h ⟨k, hk⟩

theorem vlAlgoCTZ32_eq (value : UInt32) :
    vlAlgoCTZ32 value = .ok (trailingZeros 32 value.toNat) := by
  rw [vlAlgoCTZ32]
  by_cases hzero : value = 0
  · rw [if_pos hzero, hzero]
    exact congrArg _ trailingZeros_zero.symm
  · have hpos : value.toNat ≠ 0 := fun h => hzero (UInt32.toNat.inj h)
    have hlt := value.toNat_lt
    obtain ⟨k, m, hvalue⟩ := exists_lowest hpos
    have hk : k < 32 := (Nat.pow_lt_pow_iff_right (by norm_num)).mp (by omega : 2 ^ k < 2 ^ 32)
    have hlowest : (value &&& -value).toNat = 2 ^ k := by
      have hneg : (-value).toNat = 2 ^ 32 - value.toNat := by
        rw [UInt32.toNat_neg]
        exact Nat.mod_eq_of_lt (Nat.sub_lt (by norm_num) (Nat.pos_of_ne_zero hpos))
      rw [UInt32.toNat_and, hneg, hvalue]
      exact land_neg (hvalue ▸ hlt)
    rw [if_neg hzero, tableEntry_product hk hlowest, hvalue, trailingZeros_eq hk]

theorem vlAlgoCTZ64_eq (value : UInt64) :
    vlAlgoCTZ64 value = .ok (trailingZeros 64 value.toNat) := by
  rw [vlAlgoCTZ64]
  by_cases hzero : value = 0
  · rw [if_pos hzero, hzero]
    exact congrArg _ trailingZeros_zero.symm
  · have hsplit : trailingZeros (32 + 32) value.toNat = _ :=
      (congrArg _ (UInt64.exists_split value)).trans (trailingZeros_two_pow_mul_add
        (value >>> 32).toUInt32.toNat_lt value.toUInt32.toNat_lt)
    have hlow : value.toUInt32 ≠ 0 ↔ value.toUInt32.toNat ≠ 0 := not_congr UInt32.toNat_inj.symm
    rw [if_neg hzero, hsplit, apply_ite Except.ok]
    dsimp only
    rw [vlAlgoCTZ32_eq, vlAlgoCTZ32_eq]
    exact if_congr hlow rfl rfl

/-! ### All of them -/

/-- **The fallbacks and the builtins agree** exactly where `vlAlgoCTZ8`, `vlAlgoCTZ16` and `vlAlgoCLZ16`
count right: on the other widths, and of the ones, they always do. -/
theorem bitOpsAgree_iff (v₈ : UInt8) (v₁₆ : UInt16) (v₃₂ : UInt32) (v₆₄ : UInt64) :
    BitOpsAgree v₈ v₁₆ v₃₂ v₆₄ ↔ (v₈ = 0 ∨ v₈.toNat % 2 = 1) ∧
      (v₁₆ = 0 ∨ 0x80 ≤ v₁₆.toNat / 2 ^ 8 ∧ 0x80 ≤ v₁₆.toNat % 2 ^ 8) ∧
      (v₁₆ = 0 ∨ v₁₆.toNat % 2 = 1 ∨ v₁₆.toNat % 2 ^ 9 = 2 ^ 8) := by
  rw [← vlAlgoCTZ8_eq_iff, ← vlAlgoCLZ16_eq_iff, ← vlAlgoCTZ16_eq_iff]
  constructor
  · intro h
    exact ⟨h.ctz8, h.clz16, h.ctz16⟩
  · rintro ⟨hctz8, hclz16, hctz16⟩
    exact ⟨vlAlgoPopCount8_eq v₈, vlAlgoPopCount16_eq v₁₆, vlAlgoPopCount32_eq v₃₂,
      vlAlgoPopCount64_eq v₆₄, vlAlgoCLZ8_eq v₈, hclz16, vlAlgoCLZ32_eq v₃₂, vlAlgoCLZ64_eq v₆₄, hctz8,
      hctz16, vlAlgoCTZ32_eq v₃₂, vlAlgoCTZ64_eq v₆₄⟩

/-- The trailing zeros of the byte 2, and the leading and trailing zeros of the word 2. -/
theorem not_bitOpsAgree_two : ¬ BitOpsAgree 2 2 2 2 := by
  intro h
  have hctz : vlAlgoCTZ8 2 = .ok 0 := by decide +kernel
  have hone : trailingZeros 8 2 = 1 := by decide +kernel
  have heq := h.ctz8.symm.trans hctz
  exact absurd (hone.symm.trans (Except.ok.inj heq)) Nat.one_ne_zero

end VeritableLasagna
