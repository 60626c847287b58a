import VeritableLasagna.Half.FromFloat

/-!
# Halves to floats

`vlHalfToFloat` widens a half. Every number of the format is a `float`, and the conversion hits it
(`vlHalfToFloat_exact`): the sign stays, infinities and NaNs stay what they are, with their payload, and a
finite half becomes the `float` of the same value. For a subnormal half, the loop shifts the fraction up to
the hidden bit, one step of the exponent for each place.

There and back again (`vlHalf_thereAndBack`), the zeros, the normal numbers and the infinities return as they
were. The subnormal numbers do not: `vlHalfFromFloat` turns the larger ones into zeros, and shifts too far for
the others. The payload of a NaN is lost.
-/

namespace VeritableLasagna

/-! ### Fields and classes -/

/-- `vlHalfSign`. -/
def vlHalfSign (h : UInt16) : UInt16 := (h &&& 0x8000) >>> 15

/-- `vlHalfExp`. -/
def vlHalfExp (h : UInt16) : UInt16 := (h &&& 0x7C00) >>> 10

/-- `vlHalfFrac`. -/
def vlHalfFrac (h : UInt16) : UInt16 := h &&& 0x03FF

/-- `vlHalfIsZero`. -/
def vlHalfIsZero (h : UInt16) : Bool := h &&& 0x7FFF == 0

/-- `vlHalfIsSubnormal`. -/
def vlHalfIsSubnormal (h : UInt16) : Bool := vlHalfExp h == 0 && vlHalfFrac h != 0

/-- `vlHalfIsInf`. -/
def vlHalfIsInf (h : UInt16) : Bool := h &&& 0x7FFF == 0x7C00

/-- `vlHalfIsNaN`. -/
def vlHalfIsNaN (h : UInt16) : Bool := vlHalfExp h == 31 && vlHalfFrac h != 0

/-- `vlHalfSignBit`. -/
def vlHalfSignBit (h : UInt16) : Bool := h &&& 0x8000 != 0

/-! ### The conversion -/

/-- The loop of `vlHalfToFloat`: the fraction is shifted up to the hidden bit. -/
def vlHalfNormalize : ℕ → UInt32 → ℤ → Except Fault (UInt32 × ℤ)
  | 0, _, _ => .error .noReturn
  | rounds + 1, frac, e =>
    if frac &&& 0x400 = 0 then vlHalfNormalize rounds (frac <<< 1) (e - 1) else .ok (frac, e)

/-- `vlHalfToFloat`, to the pattern of a `float`. -/
def vlHalfToFloat (h : UInt16) : Except Fault UInt32 :=
  let sign := (vlHalfSign h).toUInt32
  let exp := (vlHalfExp h).toUInt32
  let frac := (vlHalfFrac h).toUInt32
  if exp = 0 then
    if frac = 0 then .ok (sign <<< 31)
    else do
      let normalized ← vlHalfNormalize 11 frac (-14)
      .ok ((sign <<< 31) ||| (UInt32.ofNat (normalized.2 + 127).toNat <<< 23) |||
        ((normalized.1 &&& 0x3FF) <<< 13))
  else if exp = 31 then .ok ((sign <<< 31) ||| ((255 : UInt32) <<< 23) ||| (frac <<< 13))
  else .ok ((sign <<< 31) ||| ((exp - 15 + 127) <<< 23) ||| (frac <<< 13))

/-! ### What the fields are -/

section Fields

variable (h : UInt16)

theorem toNat_vlHalfSign : (vlHalfSign h).toNat = h.toNat / 2 ^ 15 := by
  have hlt := h.toNat_lt
  have hand : h.toNat >>> 15 &&& 1 = h.toNat >>> 15 % 2 := Nat.and_two_pow_sub_one_eq_mod _ 1
  rw [vlHalfSign, UInt16.toNat_shiftRight, UInt16.toNat_and]
  show (h.toNat &&& 0x8000) >>> 15 = _
  rw [Nat.shiftRight_and_distrib]
  refine hand.trans ?_
  rw [Nat.shiftRight_eq_div_pow]
  omega

theorem toNat_vlHalfExp : (vlHalfExp h).toNat = h.toNat / 2 ^ 10 % 2 ^ 5 := by
  have hand : h.toNat >>> 10 &&& 31 = h.toNat >>> 10 % 2 ^ 5 := Nat.and_two_pow_sub_one_eq_mod _ 5
  rw [vlHalfExp, UInt16.toNat_shiftRight, UInt16.toNat_and]
  show (h.toNat &&& 0x7C00) >>> 10 = _
  rw [Nat.shiftRight_and_distrib]
  refine hand.trans ?_
  rw [Nat.shiftRight_eq_div_pow]

theorem toNat_vlHalfFrac : (vlHalfFrac h).toNat = h.toNat % 2 ^ 10 := by
  rw [vlHalfFrac, UInt16.toNat_and]
  exact Nat.and_two_pow_sub_one_eq_mod _ 10

/-- The pattern without the sign. -/
theorem toNat_unsigned : (h &&& 0x7FFF).toNat = h.toNat % 2 ^ 15 := by
  rw [UInt16.toNat_and]
  exact Nat.and_two_pow_sub_one_eq_mod _ 15

theorem vlHalfIsZero_iff : vlHalfIsZero h = true ↔ h.toNat % 2 ^ 15 = 0 := by
  rw [vlHalfIsZero, beq_iff_eq, ← UInt16.toNat_inj, toNat_unsigned]
  rfl

theorem vlHalfIsInf_iff : vlHalfIsInf h = true ↔ h.toNat % 2 ^ 15 = 0x7C00 := by
  rw [vlHalfIsInf, beq_iff_eq, ← UInt16.toNat_inj, toNat_unsigned]
  rfl

theorem vlHalfIsSubnormal_iff :
    vlHalfIsSubnormal h = true ↔ 0 < h.toNat % 2 ^ 15 ∧ h.toNat % 2 ^ 15 < 2 ^ 10 := by
  rw [vlHalfIsSubnormal, Bool.and_eq_true, beq_iff_eq, bne_iff_ne, ← UInt16.toNat_inj, Ne,
    ← UInt16.toNat_inj, toNat_vlHalfExp, toNat_vlHalfFrac]
  show _ = 0 ∧ ¬ _ = 0 ↔ _
  omega

theorem vlHalfIsNaN_iff : vlHalfIsNaN h = true ↔ 0x7C00 < h.toNat % 2 ^ 15 := by
  rw [vlHalfIsNaN, Bool.and_eq_true, beq_iff_eq, bne_iff_ne, ← UInt16.toNat_inj, Ne, ← UInt16.toNat_inj,
    toNat_vlHalfExp, toNat_vlHalfFrac]
  show _ = 31 ∧ ¬ _ = 0 ↔ _
  omega

theorem vlHalfSignBit_iff : vlHalfSignBit h = true ↔ h.toNat / 2 ^ 15 = 1 := by
  have hlt := h.toNat_lt
  have hand : (h &&& 0x8000).toNat = h.toNat / 2 ^ 15 * 2 ^ 15 := by
    rw [UInt16.toNat_and]
    show h.toNat &&& 2 ^ 15 = _
    rw [Nat.and_two_pow, Nat.testBit_eq_decide_div_mod_eq]
    have hcases : h.toNat / 2 ^ 15 = 0 ∨ h.toNat / 2 ^ 15 = 1 := by omega
    rcases hcases with h0 | h1
    · rw [h0]
      rfl
    · rw [h1]
      rfl
  rw [vlHalfSignBit, bne_iff_ne, Ne, ← UInt16.toNat_inj, hand]
  show ¬ _ = 0 ↔ _
  omega

end Fields

/-- The three fields of a `float`, of which the lower 13 bits of the fraction are clear. -/
theorem toNat_packFloat {sign exp frac : UInt32} (hs : sign.toNat < 2) (he : exp.toNat < 2 ^ 8)
    (hq : frac.toNat < 2 ^ 10) : ((sign <<< 31) ||| (exp <<< 23) ||| (frac <<< 13)).toNat =
      2 ^ 31 * sign.toNat + (2 ^ 23 * exp.toNat + 2 ^ 13 * frac.toNat) := by
  have hshift {word : UInt32} (k : UInt32) (j : ℕ) (hk : k.toNat % 32 = j)
      (hfits : word.toNat * 2 ^ j < 2 ^ 32) : (word <<< k).toNat = 2 ^ j * word.toNat := by
    rw [UInt32.toNat_shiftLeft, hk, Nat.shiftLeft_eq, Nat.mod_eq_of_lt hfits, mul_comm]
  have hlow : 2 ^ 23 * exp.toNat + 2 ^ 13 * frac.toNat < 2 ^ 31 := by omega
  have hfields : 2 ^ 23 * exp.toNat ||| 2 ^ 13 * frac.toNat = 2 ^ 23 * exp.toNat + 2 ^ 13 * frac.toNat :=
    (Nat.two_pow_add_eq_or_of_lt (by omega) exp.toNat).symm
  rw [UInt32.toNat_or, UInt32.toNat_or, hshift 31 31 rfl (by omega), hshift 23 23 rfl (by omega),
    hshift 13 13 rfl (by omega), Nat.lor_assoc, hfields, ← Nat.two_pow_add_eq_or_of_lt hlow]

/-! ### The loop -/

/-- **The loop** shifts the fraction up to the hidden bit. -/
theorem vlHalfNormalize_returns {d rounds : ℕ} {frac : UInt32} {e : ℤ} (hlow : 2 ^ 10 ≤ frac.toNat * 2 ^ d)
    (hhigh : frac.toNat * 2 ^ d < 2 ^ 11) (hrounds : d < rounds) :
    Returns (vlHalfNormalize rounds frac e) fun r => r.1.toNat = frac.toNat * 2 ^ d ∧ r.2 = e - d := by
  have hbit {word : UInt32} (hlt : word.toNat < 2 ^ 11) : word &&& 0x400 = 0 ↔ word.toNat < 2 ^ 10 := by
    have hand : (word &&& 0x400).toNat = word.toNat / 2 ^ 10 * 2 ^ 10 := by
      rw [UInt32.toNat_and]
      show word.toNat &&& 2 ^ 10 = _
      rw [Nat.and_two_pow, Nat.testBit_eq_decide_div_mod_eq]
      have hcases : word.toNat / 2 ^ 10 = 0 ∨ word.toNat / 2 ^ 10 = 1 := by omega
      rcases hcases with h0 | h1
      · rw [h0]
        rfl
      · rw [h1]
        rfl
    rw [← UInt32.toNat_inj, hand]
    show _ = 0 ↔ _
    omega
  -- The induction is on the places that are left; each round takes one.
  induction d generalizing rounds frac e with
  | zero =>
    -- The hidden bit is reached, and the loop ends.
    obtain ⟨rounds, rfl⟩ : ∃ k, rounds = k + 1 := ⟨rounds - 1, by omega⟩
    rw [pow_zero, mul_one] at hlow hhigh ⊢
    rw [vlHalfNormalize, if_neg (by rw [hbit hhigh]; omega)]
    exact returns_ok ⟨rfl, by simp⟩
  | succ d ih =>
    obtain ⟨rounds, rfl⟩ : ∃ k, rounds = k + 1 := ⟨rounds - 1, by omega⟩
    have hdouble : frac.toNat * 2 ^ (d + 1) = frac.toNat * 2 * 2 ^ d := by rw [pow_succ']; ring
    have hpos := Nat.two_pow_pos d
    have hsmall : frac.toNat < 2 ^ 10 := by
      have hle : frac.toNat * 2 ≤ frac.toNat * 2 * 2 ^ d := Nat.le_mul_of_pos_right _ hpos
      omega
    have hshift : (frac <<< 1).toNat = frac.toNat * 2 := by
      rw [UInt32.toNat_shiftLeft]
      show frac.toNat <<< 1 % 2 ^ 32 = _
      rw [Nat.shiftLeft_eq]
      omega
    rw [hdouble] at hlow hhigh ⊢
    rw [← hshift] at hlow hhigh ⊢
    rw [vlHalfNormalize, if_pos ((hbit (by omega)).mpr hsmall)]
    refine (ih hlow hhigh (by omega)).mono fun r hr => ⟨hr.1, ?_⟩
    rw [hr.2]
    push_cast
    ring

/-! ### The patterns -/

/-- **How the pattern of a half widens**, without the sign. A subnormal fraction is `d` places below the
hidden bit. -/
inductive HalfWidens : ℕ → ℕ → Prop
  | zero : HalfWidens 0 0
  | subnormal {n d q : ℕ} : n * 2 ^ d = 2 ^ 10 + q → q < 2 ^ 10 → 1 ≤ d → d ≤ 10 →
      HalfWidens n (2 ^ 23 * (113 - d) + 2 ^ 13 * q)
  | normal {n : ℕ} : 2 ^ 10 ≤ n → n < 0x7C00 → HalfWidens n (2 ^ 13 * (n + 2 ^ 10 * 112))
  | special {n : ℕ} : 0x7C00 ≤ n → n < 2 ^ 15 → HalfWidens n (2 ^ 23 * 255 + 2 ^ 13 * (n - 0x7C00))

/-- How far a subnormal fraction is below the hidden bit. -/
theorem exists_places {n : ℕ} (hpos : 0 < n) (hlt : n < 2 ^ 10) :
    ∃ d, 1 ≤ d ∧ d ≤ 10 ∧ 2 ^ 10 ≤ n * 2 ^ d ∧ n * 2 ^ d < 2 ^ 11 := by
  have hlog : Nat.log 2 n < 10 := Nat.log_lt_of_lt_pow hpos.ne' hlt
  have hle := Nat.pow_log_le_self 2 hpos.ne'
  have hgt := Nat.lt_pow_succ_log_self Nat.one_lt_two n
  have hsum : Nat.log 2 n + (10 - Nat.log 2 n) = 10 := by omega
  refine ⟨10 - Nat.log 2 n, by omega, by omega, ?_, ?_⟩
  · calc 2 ^ 10 = 2 ^ Nat.log 2 n * 2 ^ (10 - Nat.log 2 n) := by rw [← pow_add, hsum]
      _ ≤ n * 2 ^ (10 - Nat.log 2 n) := Nat.mul_le_mul_right _ hle
  · calc n * 2 ^ (10 - Nat.log 2 n) < 2 ^ (Nat.log 2 n + 1) * 2 ^ (10 - Nat.log 2 n) :=
          Nat.mul_lt_mul_of_pos_right hgt (Nat.two_pow_pos _)
      _ = 2 ^ 11 := by rw [← pow_add, Nat.add_right_comm, hsum]

/-- A fraction that reaches the hidden bit is not zero. -/
theorem places_pos {n d q : ℕ} (hplaces : n * 2 ^ d = 2 ^ 10 + q) : 0 < n := by
  by_contra hzero
  rw [Nat.eq_zero_of_not_pos hzero, Nat.zero_mul] at hplaces
  omega

/-- A fraction below the hidden bit is subnormal. -/
theorem places_lt {n d q : ℕ} (hplaces : n * 2 ^ d = 2 ^ 10 + q) (hq : q < 2 ^ 10) (hd : 1 ≤ d) :
    n < 2 ^ 10 := by
  have hle : n * 2 ^ 1 ≤ n * 2 ^ d := Nat.mul_le_mul_left n (Nat.pow_le_pow_right (by norm_num) hd)
  omega

/-- A fraction is more than five places below the hidden bit if it is less than 32. -/
theorem places_far_iff {n d q : ℕ} (hplaces : n * 2 ^ d = 2 ^ 10 + q) (hq : q < 2 ^ 10) :
    n < 32 ↔ 6 ≤ d := by
  constructor
  · intro hfar
    by_contra hd
    have hle : n * 2 ^ d ≤ n * 2 ^ 5 :=
      Nat.mul_le_mul_left n (Nat.pow_le_pow_right (by norm_num) (by omega))
    omega
  · intro hd
    have hle : n * 2 ^ 6 ≤ n * 2 ^ d := Nat.mul_le_mul_left n (Nat.pow_le_pow_right (by norm_num) hd)
    omega

/-- **What `vlHalfToFloat` returns**: the sign, and the widened pattern. -/
theorem vlHalfToFloat_returns (h : UInt16) : Returns (vlHalfToFloat h) fun f =>
    ∃ m, HalfWidens (h.toNat % 2 ^ 15) m ∧ f.toNat = 2 ^ 31 * (h.toNat / 2 ^ 15) + m := by
  have hlt := h.toNat_lt
  have hsign : (vlHalfSign h).toUInt32.toNat = h.toNat / 2 ^ 15 :=
    (UInt16.toNat_toUInt32 _).trans (toNat_vlHalfSign h)
  have hexp : (vlHalfExp h).toUInt32.toNat = h.toNat / 2 ^ 10 % 2 ^ 5 :=
    (UInt16.toNat_toUInt32 _).trans (toNat_vlHalfExp h)
  have hfrac : (vlHalfFrac h).toUInt32.toNat = h.toNat % 2 ^ 10 :=
    (UInt16.toNat_toUInt32 _).trans (toNat_vlHalfFrac h)
  rw [vlHalfToFloat]
  generalize (vlHalfSign h).toUInt32 = sign at hsign ⊢
  generalize (vlHalfExp h).toUInt32 = exp at hexp ⊢
  generalize (vlHalfFrac h).toUInt32 = frac at hfrac ⊢
  have hexp0 : exp = 0 ↔ exp.toNat = 0 := UInt32.toNat_inj.symm
  have hexp31 : exp = 31 ↔ exp.toNat = 31 := UInt32.toNat_inj.symm
  have hfrac0 : frac = 0 ↔ frac.toNat = 0 := UInt32.toNat_inj.symm
  by_cases hzero : exp = 0
  · rw [if_pos hzero]
    rw [hexp0] at hzero
    by_cases hnone : frac = 0
    · -- A zero: the sign alone.
      rw [if_pos hnone]
      rw [hfrac0] at hnone
      have hunsigned : h.toNat % 2 ^ 15 = 0 := by omega
      refine returns_ok ⟨0, hunsigned ▸ .zero, ?_⟩
      rw [UInt32.toNat_shiftLeft, hsign]
      show (h.toNat / 2 ^ 15) <<< 31 % 2 ^ 32 = _
      rw [Nat.shiftLeft_eq]
      omega
    · -- A subnormal half: after the loop, the hidden bit is masked away.
      rw [if_neg hnone]
      rw [hfrac0] at hnone
      have hunsigned : h.toNat % 2 ^ 15 = frac.toNat := by omega
      obtain ⟨d, hd, hd', hlow, hhigh⟩ := exists_places (by omega : 0 < frac.toNat) (by omega)
      refine (vlHalfNormalize_returns hlow hhigh (by omega)).bind fun r hr => ?_
      obtain ⟨hshifted, he⟩ := hr
      have hmant : (r.1 &&& 0x3FF).toNat = frac.toNat * 2 ^ d - 2 ^ 10 := by
        rw [UInt32.toNat_and]
        refine (Nat.and_two_pow_sub_one_eq_mod _ 10).trans ?_
        omega
      have hexponent : (UInt32.ofNat (r.2 + 127).toNat).toNat = 113 - d := by
        rw [he]
        refine Nat.mod_eq_of_lt ?_ |>.trans ?_
        all_goals omega
      refine returns_ok ⟨2 ^ 23 * (113 - d) + 2 ^ 13 * (frac.toNat * 2 ^ d - 2 ^ 10), ?_, ?_⟩
      · rw [hunsigned]
        exact .subnormal (by omega) (by omega) hd hd'
      · rw [toNat_packFloat (by omega) (by omega) (by omega), hsign, hexponent, hmant]
  · rw [if_neg hzero]
    rw [hexp0] at hzero
    by_cases hspecial : exp = 31
    · rw [if_pos hspecial]
      rw [hexp31] at hspecial
      refine returns_ok ⟨_, .special (by omega) (by omega), ?_⟩
      rw [toNat_packFloat (by omega) (by decide) (by omega), hsign, hfrac]
      show 2 ^ 31 * _ + (2 ^ 23 * 255 + _) = _
      omega
    · rw [if_neg hspecial]
      rw [hexp31] at hspecial
      -- The subtraction may wrap around, but the sum fits.
      have hbiased : (exp - 15 + 127).toNat = exp.toNat + 112 := by
        rw [UInt32.toNat_add, UInt32.toNat_sub]
        show ((2 ^ 32 - 15 + exp.toNat) % 2 ^ 32 + 127) % 2 ^ 32 = _
        omega
      refine returns_ok ⟨_, .normal (by omega) (by omega), ?_⟩
      rw [toNat_packFloat (by omega) (by omega) (by omega), hsign, hbiased, hfrac]
      omega

/-! ### The value -/

/-- **The value stays** where a finite pattern widens. -/
theorem HalfWidens.magnitude {n m : ℕ} (h : HalfWidens n m) (hfinite : n < 0x7C00) :
    floatMagnitude m = halfMagnitude n := by
  cases h with
  | zero => rw [floatMagnitude, floatGrid_of_lt (by norm_num), halfMagnitude_zero, Nat.cast_zero, zero_div]
  | @subnormal n d q hn hq hd hd' =>
    have hsmall := places_lt hn hq hd
    have hexp : 113 - d = 112 - d + 1 := by omega
    -- The last place of the half is 125 places above the last one of the `float`.
    have hgrid : (2 ^ 23 + 2 ^ 13 * q) * 2 ^ (112 - d) = n * 2 ^ 125 := by
      calc (2 ^ 23 + 2 ^ 13 * q) * 2 ^ (112 - d) = 2 ^ 13 * (2 ^ 10 + q) * 2 ^ (112 - d) := by ring
        _ = n * (2 ^ 13 * 2 ^ (d + (112 - d))) := by rw [← hn, pow_add]; ring
        _ = n * 2 ^ 125 := by rw [show d + (112 - d) = 112 by omega, ← pow_add]
    rw [floatMagnitude, hexp, floatGrid_normal (by omega), hgrid, halfMagnitude, floatGrid_of_lt hsmall]
    have hunit : (2 : ℚ) ^ 149 = 2 ^ 24 * 2 ^ 125 := by rw [← pow_add]
    rw [Nat.cast_mul, Nat.cast_pow, Nat.cast_ofNat, hunit, mul_div_mul_right _ _ (by positivity)]
  | normal hlow hhigh =>
    obtain ⟨e, q, hq, rfl⟩ : ∃ e q, q < 2 ^ 10 ∧ n = 2 ^ 10 * (e + 1) + q :=
      ⟨n / 2 ^ 10 - 1, n % 2 ^ 10, by omega, by omega⟩
    have hindex : 2 ^ 13 * (2 ^ 10 * (e + 1) + q + 2 ^ 10 * 112) = 2 ^ 23 * (e + 112 + 1) + 2 ^ 13 * q := by
      ring
    rw [floatMagnitude, hindex, floatGrid_normal (by omega), halfMagnitude, floatGrid_normal hq]
    push_cast
    rw [pow_add]
    field_simp
    ring
  | special hlow _ => omega

/-- **An exact widening**: the sign and the payload of a NaN are kept, the zeros and the special patterns
agree, and a finite half and its `float` stand for the same number. -/
structure Widened (h : UInt16) (f : UInt32) : Prop where
  sign : f.toNat / 2 ^ 31 = 1 ↔ vlHalfSignBit h = true
  zero : f.toNat % 2 ^ 31 = 0 ↔ vlHalfIsZero h = true
  nan : FloatIsNaN f ↔ vlHalfIsNaN h = true
  inf : FloatIsInf f ↔ vlHalfIsInf h = true
  value : vlHalfIsNaN h = false → vlHalfIsInf h = false → floatValue f = halfValue h
  payload : vlHalfIsNaN h = true → f.toNat % 2 ^ 23 = 2 ^ 13 * (vlHalfFrac h).toNat

/-- **Every half is a `float`**, and `vlHalfToFloat` finds it. -/
theorem vlHalfToFloat_exact (h : UInt16) : Returns (vlHalfToFloat h) (Widened h) := by
  refine (vlHalfToFloat_returns h).mono fun f hf => ?_
  obtain ⟨m, hm, hfm⟩ := hf
  have hnan := vlHalfIsNaN_iff h
  have hinf := vlHalfIsInf_iff h
  have hlt := h.toNat_lt
  have hh : h.toNat = 2 ^ 15 * (h.toNat / 2 ^ 15) + h.toNat % 2 ^ 15 := (Nat.div_add_mod _ _).symm
  have hn : h.toNat % 2 ^ 15 < 2 ^ 15 := Nat.mod_lt _ (by norm_num)
  have hpattern : m < 2 ^ 31 ∧ (m = 0 ↔ h.toNat % 2 ^ 15 = 0) ∧
      (0x7F800000 < m ↔ 0x7C00 < h.toNat % 2 ^ 15) ∧
      (m = 0x7F800000 ↔ h.toNat % 2 ^ 15 = 0x7C00) ∧
      (0x7C00 < h.toNat % 2 ^ 15 → m % 2 ^ 23 = 2 ^ 13 * (h.toNat % 2 ^ 15 % 2 ^ 10)) := by
    generalize h.toNat % 2 ^ 15 = n at hm hn ⊢
    cases hm with
    | zero => omega
    | @subnormal _ d q hplaces hq hd hd' =>
      have hpos := places_pos hplaces
      have hsmall := places_lt hplaces hq hd
      omega
    | normal hlow hhigh => omega
    | special hlow hhigh => omega
  obtain ⟨hlt', hzero', hnan', hinf', hpayload⟩ := hpattern
  have hdiv : f.toNat / 2 ^ 31 = h.toNat / 2 ^ 15 := by omega
  have hmod : f.toNat % 2 ^ 31 = m := by omega
  refine ⟨?_, ?_, ?_, ?_, fun hnotnan hnotinf => ?_, fun hisnan => ?_⟩
  · rw [hdiv, vlHalfSignBit_iff]
  · rw [hmod, hzero', vlHalfIsZero_iff]
  · rw [FloatIsNaN, hmod, hnan, hnan']
  · rw [FloatIsInf, hmod, hinf, hinf']
  · have hfinite : h.toNat % 2 ^ 15 < 0x7C00 := by
      rw [← Bool.not_eq_true, hnan] at hnotnan
      rw [← Bool.not_eq_true, hinf] at hnotinf
      omega
    rw [floatValue, hdiv, hmod, hm.magnitude hfinite, halfValue_eq hh hn]
  · rw [toNat_vlHalfFrac]
    have hfrac := hpayload (hnan.mp hisnan)
    omega

/-! ### There and back -/

/-- A NaN is packed with the fraction 1. -/
theorem vlHalfFromFloat_nan_eq {f : UInt32} (hnan : FloatIsNaN f) :
    vlHalfFromFloat f = .ok (vlHalfPack ((f >>> 31) &&& 1).toUInt16 31 1) := by
  obtain ⟨hsign, hsign', hfields⟩ := floatFields f
  rw [FloatIsNaN, hfields] at hnan
  have hfrac : f &&& 0x7FFFFF ≠ 0 := by
    rw [Ne, ← UInt32.toNat_inj, toNat_fracField]
    show ¬ _ = 0
    omega
  rw [vlHalfFromFloat, toNat_expField]
  dsimp only
  rw [if_pos (by omega), if_neg hfrac]

/-- A conversion that returns a pattern returns the half of that pattern. -/
theorem eq_ok_of_toNat {op : Except Fault UInt16} {h : UInt16} {n : ℕ}
    (hop : Returns op fun h => h.toNat = n) (hh : h.toNat = n) : op = .ok h := by
  obtain ⟨h', rfl, hh'⟩ := hop
  rw [UInt16.toNat.inj (hh'.trans hh.symm)]

/-- **A half, widened and converted back**, is the same half if it is a zero, normal or infinite. A subnormal
half becomes a zero, unless its fraction is below 32: then the shift is undefined. A NaN gets the fraction 1.
-/
theorem vlHalf_thereAndBack (h : UInt16) : (vlHalfToFloat h >>= vlHalfFromFloat) =
    if vlHalfIsNaN h then .ok (vlHalfPack (vlHalfSign h) 31 1)
    else if vlHalfIsSubnormal h then
      if (vlHalfFrac h).toNat < 32 then .error .shiftTooFar else .ok (vlHalfPack (vlHalfSign h) 0 0)
    else .ok h := by
  obtain ⟨f, hf, m, hm, hfm⟩ := vlHalfToFloat_returns h
  have hlt := h.toNat_lt
  have hsign := toNat_vlHalfSign h
  have hfrac := toNat_vlHalfFrac h
  rw [hf, ok_bind, if_congr (vlHalfIsNaN_iff h) rfl rfl, if_congr (vlHalfIsSubnormal_iff h) rfl rfl]
  obtain ⟨n, hn⟩ : ∃ n, n = h.toNat % 2 ^ 15 := ⟨_, rfl⟩
  rw [← hn] at hm ⊢
  cases hm with
  | zero =>
    rw [if_neg (by omega), if_neg (by omega)]
    exact eq_ok_of_toNat (vlHalfFromFloat_zero (.inl (by omega))) (by omega)
  | @subnormal _ d q hplaces hq hd hd' =>
    have hsmall := places_lt hplaces hq hd
    rw [if_neg (by omega), if_pos ⟨places_pos hplaces, hsmall⟩]
    by_cases hfar : n < 32
    · -- More than five places: the shift is too far.
      have hd6 := (places_far_iff hplaces hq).mp hfar
      rw [if_pos (by omega)]
      exact vlHalfFromFloat_fault (by omega) (by omega)
    · have hd5 := mt (places_far_iff hplaces hq).mpr hfar
      rw [if_neg (by omega)]
      refine eq_ok_of_toNat (vlHalfFromFloat_zero (.inr ⟨by omega, by omega⟩)) ?_
      rw [toNat_vlHalfPack (by omega) (by decide) (by decide), hsign]
      show 2 ^ 15 * _ + (2 ^ 10 * 0 + 0) = _
      omega
  | normal hlow hhigh =>
    -- The bits that are rounded away are the 13 that the widening has put in.
    rw [if_neg (by omega), if_neg (by omega)]
    have hback := vlHalfFromFloat_normal (f := f) (by omega) (by omega)
    have hmod : f.toNat % 2 ^ 31 % 2 ^ 13 = 0 := by omega
    have hdiv : f.toNat % 2 ^ 31 / 2 ^ 13 - 2 ^ 10 * 112 = n := by omega
    rw [hmod, hdiv, roundIndex, if_neg (by omega)] at hback
    exact eq_ok_of_toNat hback (by omega)
  | special hlow hhigh =>
    by_cases hnan : 0x7C00 < n
    · have hisnan : FloatIsNaN f := by
        rw [FloatIsNaN]
        omega
      have hsame : ((f >>> 31) &&& 1).toUInt16 = vlHalfSign h := by
        rw [← UInt16.toNat_inj, toNat_signField, hsign]
        omega
      rw [if_pos hnan, vlHalfFromFloat_nan_eq hisnan, hsame]
    · have hnotnan : ¬ FloatIsNaN f := by
        rw [FloatIsNaN]
        omega
      rw [if_neg hnan, if_neg (by omega)]
      exact eq_ok_of_toNat (vlHalfFromFloat_large (by omega) hnotnan) (by omega)

end VeritableLasagna
