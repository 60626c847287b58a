import VeritableLasagna.Lib.Bits
import VeritableLasagna.Lib.Machine
import VeritableLasagna.Lib.Rounding

/-!
# Floats to halves

`vlHalfFromFloat` converts a `float` to the nearest binary16 number. Both are given by their patterns, and
the patterns of a sign, read as numbers, index the numbers of the format in their order (`floatGrid`). The
normal numbers come out right, with every carry and up to the overflow. Two other ranges do not:

* The significand of a number that becomes subnormal is shifted 13 bits too far, so that nothing of it is
  left, and further than C allows below `2^-19`.
* A NaN is packed with the fraction 1, whose bit for quietness is not set.
-/

namespace VeritableLasagna

/-! ### The conversion -/

/-- `value << count`. -/
def shiftLeft32 (value count : UInt32) : Except Fault UInt32 :=
  if count < 32 then .ok (value <<< count) else .error .shiftTooFar

/-- `value >> count`. -/
def shiftRight32 (value count : UInt32) : Except Fault UInt32 :=
  if count < 32 then .ok (value >>> count) else .error .shiftTooFar

/-- `vlHalfPack`. -/
def vlHalfPack (sign exp frac : UInt16) : UInt16 :=
  ((sign &&& 1) <<< 15) ||| ((exp &&& 0x1F) <<< 10) ||| (frac &&& 0x03FF)

/-- The rounding of a fraction, `if (rem > half || (rem == half && (frac16 & 1))) frac16++`. -/
def roundFrac (rem half frac16 : UInt32) : UInt32 :=
  if rem > half ∨ rem = half ∧ frac16 &&& 1 ≠ 0 then frac16 + 1 else frac16

/-- The branch of `vlHalfFromFloat` for the numbers below the least normal half. -/
def vlHalfFromFloatSubnormal (sign frac : UInt32) (e : ℤ) : Except Fault UInt16 := do
  let mant := frac ||| 0x800000
  let shift := UInt32.ofNat (-e - 1).toNat
  let rshift := shift + 13
  let frac16 ← shiftRight32 mant rshift
  let unit ← shiftLeft32 1 rshift
  let half ← shiftLeft32 1 (rshift - 1)
  return vlHalfPack sign.toUInt16 0 (roundFrac (mant &&& (unit - 1)) half frac16).toUInt16

/-- The branch of `vlHalfFromFloat` for the normal halves. -/
def vlHalfFromFloatNormal (sign frac : UInt32) (e : ℤ) : UInt16 :=
  let frac16 := roundFrac (frac &&& 0x1FFF) 0x1000 (frac >>> 13)
  if frac16 = 0x400 then
    if e + 1 > 15 then vlHalfPack sign.toUInt16 31 0
    else vlHalfPack sign.toUInt16 (UInt16.ofNat (e + 1 + 15).toNat) 0
  else vlHalfPack sign.toUInt16 (UInt16.ofNat (e + 15).toNat) frac16.toUInt16

/-- `vlHalfFromFloat`, of the pattern of a `float`. -/
def vlHalfFromFloat (f : UInt32) : Except Fault UInt16 :=
  let sign := (f >>> 31) &&& 1
  let exp : ℤ := ((f >>> 23) &&& 0xFF).toNat
  let frac := f &&& 0x7FFFFF
  if exp = 255 then
    .ok (if frac = 0 then vlHalfPack sign.toUInt16 31 0 else vlHalfPack sign.toUInt16 31 1)
  else
    let e := exp - 127
    if e > 15 then .ok (vlHalfPack sign.toUInt16 31 0)
    else if e < -14 then
      if e < -24 then .ok (vlHalfPack sign.toUInt16 0 0) else vlHalfFromFloatSubnormal sign frac e
    else .ok (vlHalfFromFloatNormal sign frac e)

/-! ### What the patterns stand for -/

/-- The sign that a sign bit stands for. -/
def signum (s : ℕ) : ℚ := if s = 0 then 1 else -1

/-- The magnitude of a half, of its pattern without the sign. -/
def halfMagnitude (n : ℕ) : ℚ := floatGrid 10 n / 2 ^ 24

/-- The number that a half stands for, if it is finite. -/
def halfValue (h : UInt16) : ℚ := signum (h.toNat / 2 ^ 15) * halfMagnitude (h.toNat % 2 ^ 15)

/-- The magnitude of a `float`, of its pattern without the sign. -/
def floatMagnitude (n : ℕ) : ℚ := floatGrid 23 n / 2 ^ 149

/-- The number that a `float` stands for, if it is finite. -/
def floatValue (f : UInt32) : ℚ := signum (f.toNat / 2 ^ 31) * floatMagnitude (f.toNat % 2 ^ 31)

/-- The pattern of a NaN. -/
def FloatIsNaN (f : UInt32) : Prop := 0x7F800000 < f.toNat % 2 ^ 31

instance (f : UInt32) : Decidable (FloatIsNaN f) := inferInstanceAs (Decidable (_ < _))

/-- The pattern of an infinity. -/
def FloatIsInf (f : UInt32) : Prop := f.toNat % 2 ^ 31 = 0x7F800000

/-- **A correct rounding** of a `float` to a half: a finite number below the overflow threshold goes to the
nearest finite half, ties to the even fraction, all other numbers go to the infinity of their sign, and a
NaN goes to a NaN with the quiet bit. -/
structure CorrectlyRounded (f : UInt32) (h : UInt16) : Prop where
  sign : ¬ FloatIsNaN f → h.toNat / 2 ^ 15 = f.toNat / 2 ^ 31
  nearest : ¬ FloatIsNaN f → ¬ FloatIsInf f → |floatValue f| < 65520 →
    NearestEven halfValue (fun h => Even h.toNat) {h | h.toNat % 2 ^ 15 < 0x7C00} (floatValue f) h
  overflow : ¬ FloatIsNaN f → FloatIsInf f ∨ 65520 ≤ |floatValue f| → h.toNat % 2 ^ 15 = 0x7C00
  nan : FloatIsNaN f → h &&& 0x7E00 = 0x7E00

/-! ### Fields -/

section Fields

variable (f : UInt32)

theorem toNat_signField : ((f >>> 31) &&& 1).toUInt16.toNat = f.toNat / 2 ^ 31 := by
  have hlt := f.toNat_lt
  have hand : (f.toNat >>> 31) &&& 1 = f.toNat >>> 31 % 2 := Nat.and_two_pow_sub_one_eq_mod _ 1
  have hsign : ((f >>> 31) &&& 1).toNat = f.toNat / 2 ^ 31 % 2 := by
    rw [UInt32.toNat_and, UInt32.toNat_shiftRight]
    exact hand.trans (congrArg (· % 2) (Nat.shiftRight_eq_div_pow _ 31))
  rw [UInt32.toNat_toUInt16, hsign]
  omega

theorem toNat_expField : ((f >>> 23) &&& 0xFF).toNat = f.toNat / 2 ^ 23 % 2 ^ 8 := by
  have hand : (f.toNat >>> 23) &&& 0xFF = f.toNat >>> 23 % 2 ^ 8 := Nat.and_two_pow_sub_one_eq_mod _ 8
  rw [UInt32.toNat_and, UInt32.toNat_shiftRight]
  exact hand.trans (congrArg (· % 2 ^ 8) (Nat.shiftRight_eq_div_pow _ 23))

theorem toNat_fracField : (f &&& 0x7FFFFF).toNat = f.toNat % 2 ^ 23 := by
  rw [UInt32.toNat_and]
  exact Nat.and_two_pow_sub_one_eq_mod _ 23

end Fields

theorem toNat_vlHalfPack {sign exp frac : UInt16} (hs : sign.toNat < 2) (hE : exp.toNat < 2 ^ 5)
    (hq : frac.toNat < 2 ^ 10) : (vlHalfPack sign exp frac).toNat =
      2 ^ 15 * sign.toNat + (2 ^ 10 * exp.toNat + frac.toNat) := by
  have hsign : ((sign &&& 1) <<< 15).toNat = 2 ^ 15 * sign.toNat := by
    have hand : sign.toNat &&& 1 = sign.toNat % 2 := Nat.and_two_pow_sub_one_eq_mod _ 1
    rw [UInt16.toNat_shiftLeft, UInt16.toNat_and]
    show (sign.toNat &&& 1) <<< 15 % 2 ^ 16 = _
    rw [hand, Nat.shiftLeft_eq]
    omega
  have hexp : ((exp &&& 0x1F) <<< 10).toNat = 2 ^ 10 * exp.toNat := by
    have hand : exp.toNat &&& 0x1F = exp.toNat % 2 ^ 5 := Nat.and_two_pow_sub_one_eq_mod _ 5
    rw [UInt16.toNat_shiftLeft, UInt16.toNat_and]
    show (exp.toNat &&& 0x1F) <<< 10 % 2 ^ 16 = _
    rw [hand, Nat.shiftLeft_eq]
    omega
  have hfrac : (frac &&& 0x03FF).toNat = frac.toNat := by
    rw [UInt16.toNat_and]
    exact (Nat.and_two_pow_sub_one_eq_mod _ 10).trans (Nat.mod_eq_of_lt hq)
  have hlow : 2 ^ 10 * exp.toNat + frac.toNat < 2 ^ 15 := by omega
  rw [vlHalfPack, UInt16.toNat_or, UInt16.toNat_or, hsign, hexp, hfrac, Nat.lor_assoc,
    ← Nat.two_pow_add_eq_or_of_lt hq, ← Nat.two_pow_add_eq_or_of_lt hlow]

/-! ### Values -/

theorem halfMagnitude_strictMono : StrictMono halfMagnitude := fun _ _ h =>
  div_lt_div_of_pos_right (Nat.cast_lt.mpr (floatGrid_strictMono 10 h)) (by norm_num)

theorem floatMagnitude_strictMono : StrictMono floatMagnitude := fun _ _ h =>
  div_lt_div_of_pos_right (Nat.cast_lt.mpr (floatGrid_strictMono 23 h)) (by norm_num)

theorem floatMagnitude_nonneg (n : ℕ) : 0 ≤ floatMagnitude n := by
  rw [floatMagnitude]
  positivity

theorem halfMagnitude_nonneg (n : ℕ) : 0 ≤ halfMagnitude n := by
  rw [halfMagnitude]
  positivity

theorem abs_signum (s : ℕ) : |signum s| = 1 := by
  rw [signum]
  split_ifs
  · exact abs_one
  · rw [abs_neg, abs_one]

theorem abs_floatValue (f : UInt32) : |floatValue f| = floatMagnitude (f.toNat % 2 ^ 31) := by
  rw [floatValue, abs_mul, abs_signum, one_mul, abs_of_nonneg (floatMagnitude_nonneg _)]

/-- The least magnitude above which a `float` does not vanish as a half. -/
theorem floatMagnitude_vanishing : floatMagnitude (2 ^ 23 * 102) = 2 ^ (-25 : ℤ) := by
  rw [floatMagnitude, show 2 ^ 23 * 102 = 2 ^ 23 * (101 + 1) + 0 from rfl,
    floatGrid_normal (Nat.two_pow_pos 23)]
  norm_num

/-- The least magnitude of a normal half. -/
theorem floatMagnitude_normal : floatMagnitude (2 ^ 23 * 113) = 2 ^ (-14 : ℤ) := by
  rw [floatMagnitude, show 2 ^ 23 * 113 = 2 ^ 23 * (112 + 1) + 0 from rfl,
    floatGrid_normal (Nat.two_pow_pos 23)]
  norm_num

/-- The overflow threshold. -/
theorem floatMagnitude_threshold : floatMagnitude (2 ^ 23 * 142 + (2 ^ 23 - 2 ^ 12)) = 65520 := by
  rw [floatMagnitude, show 2 ^ 23 * 142 + (2 ^ 23 - 2 ^ 12) = 2 ^ 23 * (141 + 1) + (2 ^ 23 - 2 ^ 12) from rfl,
    floatGrid_normal (by norm_num)]
  norm_num

/-! ### The two signs -/

section Signs

variable {s n : ℕ} {x : ℚ} {h : UInt16}

theorem halfValue_eq (hh : h.toNat = 2 ^ 15 * s + n) (hn : n < 2 ^ 15) :
    halfValue h = signum s * halfMagnitude n := by
  have hdiv : (2 ^ 15 * s + n) / 2 ^ 15 = s := by omega
  have hmod : (2 ^ 15 * s + n) % 2 ^ 15 = n := by omega
  rw [halfValue, hh, hdiv, hmod]

/-- Between two numbers of a sign it is as far as between their magnitudes. -/
theorem abs_signum_mul_sub (s : ℕ) (x y : ℚ) : |signum s * x - signum s * y| = |x - y| := by
  rw [← mul_sub, abs_mul, abs_signum, one_mul]

/-- Between two numbers of different signs it is as far as both are from zero. -/
theorem abs_signum_sub {s t : ℕ} (hs : s < 2) (ht : t < 2) (hst : t ≠ s) {x y : ℚ} (hx : 0 ≤ x)
    (hy : 0 ≤ y) : |signum s * x - signum t * y| = x + y := by
  have hcases : s = 0 ∧ t = 1 ∨ s = 1 ∧ t = 0 := by omega
  obtain ⟨rfl, rfl⟩ | ⟨rfl, rfl⟩ := hcases
  · rw [signum, signum, if_pos rfl, if_neg one_ne_zero, one_mul, neg_one_mul, sub_neg_eq_add,
      abs_of_nonneg (add_nonneg hx hy)]
  · rw [signum, signum, if_neg one_ne_zero, if_pos rfl, neg_one_mul, one_mul, abs_sub_comm,
      sub_neg_eq_add, abs_of_nonneg (add_nonneg hy hx), add_comm]

theorem even_signed (hh : h.toNat = 2 ^ 15 * s + n) : Even h.toNat ↔ Even n := by
  rw [Nat.even_iff, Nat.even_iff]
  omega

theorem halfMagnitude_zero : halfMagnitude 0 = 0 := by
  rw [halfMagnitude, floatGrid_of_lt (Nat.two_pow_pos 10), Nat.cast_zero, zero_div]

/-- A half of the other sign is farther away than the nearest of the magnitudes. -/
theorem NearestEven.across (hx : 0 ≤ x) (h : NearestEven halfMagnitude Even {n | n < 0x7C00} x n) {j : ℕ}
    (hj : j < 0x7C00) (hne : halfMagnitude j ≠ 0 ∨ halfMagnitude n ≠ 0) :
    |x - halfMagnitude n| < x + halfMagnitude j ∨
      |x - halfMagnitude n| = x + halfMagnitude j ∧ Even n := by
  have hn := halfMagnitude_nonneg n
  have hj' := halfMagnitude_nonneg j
  by_cases hjn : halfMagnitude j = halfMagnitude n
  · have hpos : 0 < halfMagnitude n := hn.lt_of_ne fun h => by
      rw [hjn, or_self] at hne
      exact hne h.symm
    -- zero itself is a half
    have hxpos : 0 < x := by
      refine hx.lt_of_ne fun hx0 => ?_
      have hzero := h.2 0 (by norm_num : (0 : ℕ) < 0x7C00) (by rw [halfMagnitude_zero]; exact hpos.ne)
      rw [← hx0, halfMagnitude_zero, sub_zero, abs_zero] at hzero
      rcases hzero with hlt | ⟨heq, -⟩
      · exact absurd hlt (abs_nonneg _).not_gt
      · rw [abs_eq_zero] at heq
        linarith
    rw [hjn]
    exact Or.inl (abs_lt.mpr ⟨by linarith, by linarith⟩)
  · have hfar : |x - halfMagnitude j| ≤ x + halfMagnitude j := abs_le.mpr ⟨by linarith, by linarith⟩
    rcases h.2 j hj hjn with hlt | ⟨heq, heven⟩
    · exact Or.inl (hlt.trans_le hfar)
    · exact (heq.le.trans hfar).lt_or_eq.imp_right fun heq => ⟨heq, heven⟩

/-- **The nearest half has the sign of the number**: among the halves of one sign, the magnitudes tell. -/
theorem nearestEven_half_iff (hx : 0 ≤ x) (hh : h.toNat = 2 ^ 15 * s + n) (hs : s < 2)
    (hn : n < 2 ^ 15) : NearestEven halfValue (fun h => Even h.toNat) {h | h.toNat % 2 ^ 15 < 0x7C00}
      (signum s * x) h ↔ NearestEven halfMagnitude Even {n | n < 0x7C00} x n := by
  have hmem : h ∈ {h : UInt16 | h.toNat % 2 ^ 15 < 0x7C00} ↔ n ∈ {n | n < 0x7C00} := by
    show h.toNat % 2 ^ 15 < 0x7C00 ↔ n < 0x7C00
    omega
  rw [NearestEven, NearestEven, hmem, halfValue_eq hh hn, abs_signum_mul_sub, even_signed hh]
  refine and_congr_right fun hmem' => ⟨fun hall j hj hne => ?_, fun hall h' hh' hne => ?_⟩
  · -- the half of this magnitude, with the sign of the number
    have hj' : j < 0x7C00 := hj
    have hsigned : (UInt16.ofNat (2 ^ 15 * s + j)).toNat = 2 ^ 15 * s + j :=
      Nat.mod_eq_of_lt (by omega)
    have hfar := hall (UInt16.ofNat (2 ^ 15 * s + j)) (by
      show (UInt16.ofNat (2 ^ 15 * s + j)).toNat % 2 ^ 15 < 0x7C00
      omega)
    rw [halfValue_eq hsigned (by omega), abs_signum_mul_sub] at hfar
    refine hfar fun heq => hne ?_
    have hzero : |halfMagnitude j - halfMagnitude n| = 0 := by
      rw [← abs_signum_mul_sub s, heq, sub_self, abs_zero]
    exact sub_eq_zero.mp (abs_eq_zero.mp hzero)
  · have hlt := h'.toNat_lt
    have hvalue : h'.toNat = 2 ^ 15 * (h'.toNat / 2 ^ 15) + h'.toNat % 2 ^ 15 := (Nat.div_add_mod _ _).symm
    have hj : h'.toNat % 2 ^ 15 < 0x7C00 := hh'
    rw [halfValue_eq hvalue (Nat.mod_lt _ (by norm_num))] at hne ⊢
    generalize h'.toNat % 2 ^ 15 = j at hne hj ⊢
    by_cases hst : h'.toNat / 2 ^ 15 = s
    · rw [hst] at hne ⊢
      rw [abs_signum_mul_sub]
      exact hall j hj fun heq => hne (by rw [heq])
    · rw [abs_signum_sub hs (by omega) hst hx (halfMagnitude_nonneg j)]
      refine NearestEven.across hx ⟨hmem', hall⟩ hj ?_
      by_contra hzero
      rw [not_or, not_not, not_not] at hzero
      exact hne (by rw [hzero.1, hzero.2, mul_zero, mul_zero])

end Signs

/-! ### Correct roundings -/

section Correct

variable {f : UInt32} {h : UInt16} {n : ℕ}

/-- A number is rounded correctly if its magnitude is, with its sign. -/
theorem correctlyRounded_iff (hnan : ¬ FloatIsNaN f) (hh : h.toNat = 2 ^ 15 * (f.toNat / 2 ^ 31) + n)
    (hn : n < 2 ^ 15) : CorrectlyRounded f h ↔
      (f.toNat % 2 ^ 31 < 2 ^ 23 * 142 + (2 ^ 23 - 2 ^ 12) →
        NearestEven halfMagnitude Even {n | n < 0x7C00} (floatMagnitude (f.toNat % 2 ^ 31)) n) ∧
      (2 ^ 23 * 142 + (2 ^ 23 - 2 ^ 12) ≤ f.toNat % 2 ^ 31 → n = 0x7C00) := by
  have hlt := f.toNat_lt
  have hthreshold : |floatValue f| < 65520 ↔ f.toNat % 2 ^ 31 < 2 ^ 23 * 142 + (2 ^ 23 - 2 ^ 12) := by
    rw [abs_floatValue, ← floatMagnitude_threshold]
    exact floatMagnitude_strictMono.lt_iff_lt
  have hmod : h.toNat % 2 ^ 15 = n := by omega
  have hnearest := nearestEven_half_iff (s := f.toNat / 2 ^ 31) (floatMagnitude_nonneg (f.toNat % 2 ^ 31))
    hh (by omega) hn
  constructor
  · intro hround
    refine ⟨fun hbelow => hnearest.mp (hround.nearest hnan ?_ (hthreshold.mpr hbelow)), fun habove => ?_⟩
    · intro hinf
      rw [FloatIsInf] at hinf
      omega
    · rw [← hmod]
      exact hround.overflow hnan (Or.inr (not_lt.mp (mt hthreshold.mp (not_lt.mpr habove))))
  · rintro ⟨hbelow, habove⟩
    refine ⟨fun _ => by omega, fun _ _ hlt => hnearest.mpr (hbelow (hthreshold.mp hlt)), fun _ hlarge => ?_,
      fun h => absurd h hnan⟩
    rw [hmod]
    refine habove ?_
    rcases hlarge with hinf | hlarge
    · rw [FloatIsInf] at hinf
      omega
    · exact not_lt.mp (mt hthreshold.mpr (not_lt.mpr hlarge))

theorem halfMagnitude_one : halfMagnitude 1 = 2 ^ (-24 : ℤ) := by
  rw [halfMagnitude, floatGrid_of_lt (by norm_num)]
  norm_num

/-- **Zero is nearest** up to half the least subnormal number. -/
theorem nearestEven_zero_iff {x : ℚ} (hx : 0 ≤ x) :
    NearestEven halfMagnitude Even {n | n < 0x7C00} x 0 ↔ x ≤ 2 ^ (-25 : ℤ) := by
  have hhalf : (2 : ℚ) ^ (-24 : ℤ) = 2 ^ (-25 : ℤ) + 2 ^ (-25 : ℤ) := by norm_num
  have hpos : (0 : ℚ) < 2 ^ (-25 : ℤ) := by norm_num
  constructor
  · intro h
    have hone := h.2 1 (by norm_num : (1 : ℕ) < 0x7C00) (halfMagnitude_strictMono Nat.one_pos).ne'
    rw [halfMagnitude_zero, halfMagnitude_one, sub_zero, abs_of_nonneg hx] at hone
    have hle : x ≤ |x - 2 ^ (-24 : ℤ)| := hone.elim le_of_lt fun h => h.1.le
    by_contra hlt
    rcases le_abs'.mp hle with h' | h' <;> linarith
  · intro h
    refine (nearestEven_lower halfMagnitude_strictMono (n := 0) ?_ ?_ ?_).mono (Set.subset_univ _)
      (by norm_num : (0 : ℕ) < 0x7C00)
    · rw [halfMagnitude_zero]
      exact hx
    · rw [Nat.zero_add, halfMagnitude_one]
      linarith
    · rw [Nat.zero_add, halfMagnitude_zero, halfMagnitude_one, hhalf, sub_zero]
      rcases h.lt_or_eq with hlt | heq
      · exact Or.inl (by linarith)
      · exact Or.inr ⟨by linarith, Even.zero⟩

/-- **The normal numbers**, of which 13 bits of the fraction are rounded off. -/
theorem nearestEven_normal {m : ℕ} (hm : 2 ^ 23 * 113 ≤ m) :
    NearestEven halfMagnitude Even Set.univ (floatMagnitude m)
      (roundIndex (2 ^ 13) (m % 2 ^ 13) (m / 2 ^ 13 - 2 ^ 10 * 112)) := by
  obtain ⟨e, q, r, hq, hr, rfl⟩ : ∃ e q r, q < 2 ^ 10 ∧ r < 2 ^ 13 ∧
      m = 2 ^ 23 * (e + 112 + 1) + (2 ^ 13 * q + r) :=
    ⟨m / 2 ^ 23 - 113, m / 2 ^ 13 % 2 ^ 10, m % 2 ^ 13, by omega, by omega, by omega⟩
  have hmod : (2 ^ 23 * (e + 112 + 1) + (2 ^ 13 * q + r)) % 2 ^ 13 = r := by omega
  have hdiv : (2 ^ 23 * (e + 112 + 1) + (2 ^ 13 * q + r)) / 2 ^ 13 - 2 ^ 10 * 112 = 2 ^ 10 * (e + 1) + q := by
    omega
  rw [hmod, hdiv]
  have hu : (0 : ℚ) < 2 ^ (e + 112) / 2 ^ 149 := by positivity
  refine nearestEven_round halfMagnitude_strictMono hu hr ?_ ?_
  · rw [floatMagnitude, floatGrid_normal (by omega), halfMagnitude, floatGrid_normal hq]
    push_cast
    field_simp
    ring
  · rw [halfMagnitude, floatGrid_normal_succ hq, halfMagnitude]
    push_cast
    field_simp
    ring

/-- The rounding carries into the infinity from the overflow threshold on. -/
theorem roundIndex_threshold {m : ℕ} (hm : m < 2 ^ 23 * 143) :
    (m < 2 ^ 23 * 142 + (2 ^ 23 - 2 ^ 12) →
      roundIndex (2 ^ 13) (m % 2 ^ 13) (m / 2 ^ 13 - 2 ^ 10 * 112) < 0x7C00) ∧
    (2 ^ 23 * 142 + (2 ^ 23 - 2 ^ 12) ≤ m →
      roundIndex (2 ^ 13) (m % 2 ^ 13) (m / 2 ^ 13 - 2 ^ 10 * 112) = 0x7C00) := by
  simp only [roundIndex, Nat.even_iff]
  constructor
  · intro h
    split_ifs <;> omega
  · intro h
    split_ifs <;> omega

end Correct

/-! ### What the code packs -/

section Runs

variable {sign frac rem half frac16 : UInt32} {s e q r : ℕ}

theorem toNat_roundFrac (hq : frac16.toNat < 2 ^ 31) : (roundFrac rem half frac16).toNat =
    if half.toNat < rem.toNat ∨ rem.toNat = half.toNat ∧ frac16.toNat % 2 = 1 then frac16.toNat + 1
    else frac16.toNat := by
  have hodd : frac16 &&& 1 ≠ 0 ↔ frac16.toNat % 2 = 1 := by
    have hand : (frac16 &&& 1).toNat = frac16.toNat % 2 := by
      rw [UInt32.toNat_and]
      exact Nat.and_two_pow_sub_one_eq_mod _ 1
    rw [Ne, ← UInt32.toNat_inj, hand]
    show ¬ _ = 0 ↔ _
    omega
  have hadd : (frac16 + 1).toNat = frac16.toNat + 1 := by
    rw [UInt32.toNat_add]
    show (frac16.toNat + 1) % 2 ^ 32 = _
    omega
  have hup : rem > half ∨ rem = half ∧ frac16 &&& 1 ≠ 0 ↔
      half.toNat < rem.toNat ∨ rem.toNat = half.toNat ∧ frac16.toNat % 2 = 1 :=
    or_congr UInt32.lt_iff_toNat_lt (and_congr UInt32.toNat_inj.symm hodd)
  rw [roundFrac, if_congr hup rfl rfl, apply_ite UInt32.toNat, hadd]

/-- **The normal branch packs** the index that the fraction is rounded to. -/
theorem toNat_vlHalfFromFloatNormal (hs : sign.toUInt16.toNat = s) (hs' : s < 2)
    (hfrac : frac.toNat = 2 ^ 13 * q + r) (hq : q < 2 ^ 10) (hr : r < 2 ^ 13) (he : e < 30) :
    (vlHalfFromFloatNormal sign frac (e - 14)).toNat =
      2 ^ 15 * s + roundIndex (2 ^ 13) r (2 ^ 10 * (e + 1) + q) := by
  have hrem : (frac &&& 0x1FFF).toNat = r := by
    rw [UInt32.toNat_and]
    refine (Nat.and_two_pow_sub_one_eq_mod _ 13).trans ?_
    omega
  have hfrac16 : (frac >>> 13).toNat = q := by
    rw [UInt32.toNat_shiftRight]
    refine (Nat.shiftRight_eq_div_pow _ 13).trans ?_
    omega
  have hround : (roundFrac (frac &&& 0x1FFF) 0x1000 (frac >>> 13)).toNat = _ :=
    toNat_roundFrac (by omega)
  rw [hrem, hfrac16] at hround
  change _ = if 2 ^ 12 < r ∨ r = 2 ^ 12 ∧ q % 2 = 1 then q + 1 else q at hround
  have hindex : roundIndex (2 ^ 13) r (2 ^ 10 * (e + 1) + q) =
      2 ^ 10 * (e + 1) + if 2 ^ 12 < r ∨ r = 2 ^ 12 ∧ q % 2 = 1 then q + 1 else q := by
    have hodd : ¬ Even (2 ^ 10 * (e + 1) + q) ↔ q % 2 = 1 := by
      rw [Nat.even_iff]
      omega
    have hnear : 2 ^ 13 < 2 * r ∨ 2 * r = 2 ^ 13 ∧ ¬ Even (2 ^ 10 * (e + 1) + q) ↔
        2 ^ 12 < r ∨ r = 2 ^ 12 ∧ q % 2 = 1 := by
      rw [hodd]
      omega
    rw [roundIndex, if_congr hnear rfl rfl]
    split_ifs <;> rfl
  have hle : (roundFrac (frac &&& 0x1FFF) 0x1000 (frac >>> 13)).toNat ≤ 2 ^ 10 := by
    rw [hround]
    split_ifs <;> omega
  rw [hindex, ← hround]
  unfold vlHalfFromFloatNormal
  generalize roundFrac (frac &&& 0x1FFF) 0x1000 (frac >>> 13) = rounded at hle ⊢
  have hfull : rounded = 0x400 ↔ rounded.toNat = 2 ^ 10 := UInt32.toNat_inj.symm
  have hexp : ∀ n : ℕ, n < 2 ^ 5 → (UInt16.ofNat n).toNat = n := fun n hn => Nat.mod_eq_of_lt (by omega)
  dsimp only
  by_cases hcarry : rounded = 0x400
  · -- the carry goes into the exponent
    rw [if_pos hcarry, hfull.mp hcarry]
    by_cases htop : (e : ℤ) - 14 + 1 > 15
    · rw [if_pos htop, toNat_vlHalfPack (by omega) (by decide) (by decide), hs]
      show 2 ^ 15 * s + (2 ^ 10 * 31 + 0) = _
      omega
    · have hnat : ((e : ℤ) - 14 + 1 + 15).toNat = e + 2 := by omega
      have hfits := hexp (e + 2) (by omega)
      rw [if_neg htop, hnat, toNat_vlHalfPack (by omega) (by omega) (by decide), hs, hfits]
      show 2 ^ 15 * s + (2 ^ 10 * (e + 2) + 0) = _
      omega
  · rw [if_neg hcarry]
    rw [hfull] at hcarry
    have hnat : ((e : ℤ) - 14 + 15).toNat = e + 1 := by omega
    have hfits := hexp (e + 1) (by omega)
    have hfrac16 : rounded.toUInt16.toNat = rounded.toNat := by
      rw [UInt32.toNat_toUInt16]
      omega
    rw [hnat, toNat_vlHalfPack (by omega) (by omega) (by omega), hs, hfits, hfrac16]

theorem toNat_sub_one {word : UInt32} (h : 0 < word.toNat) : (word - 1).toNat = word.toNat - 1 :=
  UInt32.toNat_sub_of_le word 1 (UInt32.le_iff_toNat_le.mpr h)

/-- A shift further than the significand is long leaves no bit of it, and none to round up for. -/
theorem toNat_roundFrac_far {mant rshift : UInt32} (hmant : mant.toNat < 2 ^ 24)
    (hlow : 26 < rshift.toNat) (hhigh : rshift.toNat < 32) : (roundFrac (mant &&& ((1 : UInt32) <<< rshift - 1))
      ((1 : UInt32) <<< (rshift - 1)) (mant >>> rshift)).toNat = 0 := by
  obtain ⟨k, hk⟩ := Nat.exists_eq_add_of_lt hlow
  have hpred : (rshift - 1).toNat = 26 + k := by
    rw [toNat_sub_one (by omega), hk]
    rfl
  have hfar : 2 ^ 24 ≤ 2 ^ (26 + k) := Nat.pow_le_pow_right (by norm_num) (by omega)
  have hfrac16 : (mant >>> rshift).toNat = 0 := by
    rw [UInt32.toNat_shiftRight, Nat.mod_eq_of_lt hhigh, Nat.shiftRight_eq_div_pow, hk]
    exact Nat.div_eq_of_lt (hmant.trans_le (Nat.pow_le_pow_right (by norm_num) (by omega)))
  have hhalf : ((1 : UInt32) <<< (rshift - 1)).toNat = 2 ^ (26 + k) := by
    rw [UInt32.toNat_shiftLeft, hpred, Nat.mod_eq_of_lt (by omega : 26 + k < 32), Nat.shiftLeft_eq]
    refine (congrArg (· % 2 ^ 32) (Nat.one_mul _)).trans (Nat.mod_eq_of_lt ?_)
    exact Nat.pow_lt_pow_right (by norm_num) (by omega)
  have hrem : (mant &&& ((1 : UInt32) <<< rshift - 1)).toNat < 2 ^ (26 + k) := by
    rw [UInt32.toNat_and]
    exact (Nat.and_le_left.trans_lt hmant).trans_le hfar
  rw [toNat_roundFrac (by omega), hhalf, hfrac16, if_neg (by omega)]

/-- **The subnormal branch packs nothing.** -/
theorem vlHalfFromFloatSubnormal_returns (hs : sign.toUInt16.toNat = s) (hs' : s < 2)
    (hfrac : frac.toNat < 2 ^ 23) {e : ℤ} (hlow : -19 ≤ e) (hhigh : e < -14) :
    Returns (vlHalfFromFloatSubnormal sign frac e) fun h => h.toNat = 2 ^ 15 * s := by
  have hmant : (frac ||| 0x800000).toNat < 2 ^ 24 := by
    rw [UInt32.toNat_or]
    exact Nat.or_lt_two_pow (by omega) (by decide)
  have hshift : (UInt32.ofNat (-e - 1).toNat + 13).toNat = (-e - 1).toNat + 13 := by
    rw [UInt32.toNat_add]
    show ((-e - 1).toNat % 2 ^ 32 + 13) % 2 ^ 32 = _
    omega
  rw [vlHalfFromFloatSubnormal]
  generalize UInt32.ofNat (-e - 1).toNat + 13 = rshift at hshift ⊢
  have hwide : rshift < 32 := UInt32.lt_iff_toNat_lt.mpr (by show rshift.toNat < 32; omega)
  have hwide' : rshift - 1 < 32 := by
    rw [UInt32.lt_iff_toNat_lt, toNat_sub_one (by omega)]
    exact (Nat.sub_le _ _).trans_lt (UInt32.lt_iff_toNat_lt.mp hwide)
  have hzero := toNat_roundFrac_far hmant (by omega : 26 < rshift.toNat) (by omega)
  rw [shiftRight32, shiftLeft32, shiftLeft32, if_pos hwide, if_pos hwide, if_pos hwide']
  refine returns_ok ?_
  have hfrac16 := (UInt32.toNat_toUInt16 _).trans (congrArg (· % 2 ^ 16) hzero)
  rw [toNat_vlHalfPack (by omega) (by decide) (by omega), hs, hfrac16]
  rfl

/-- Further down, C does not say what the shift does. -/
theorem vlHalfFromFloatSubnormal_fault {e : ℤ} (hlow : -24 ≤ e) (hhigh : e < -19) :
    vlHalfFromFloatSubnormal sign frac e = .error .shiftTooFar := by
  have hshift : (UInt32.ofNat (-e - 1).toNat + 13).toNat = (-e - 1).toNat + 13 := by
    rw [UInt32.toNat_add]
    show ((-e - 1).toNat % 2 ^ 32 + 13) % 2 ^ 32 = _
    omega
  have hwide : ¬ UInt32.ofNat (-e - 1).toNat + 13 < 32 := by
    rw [UInt32.lt_iff_toNat_lt, hshift]
    show ¬ (-e - 1).toNat + 13 < 32
    omega
  rw [vlHalfFromFloatSubnormal, shiftRight32, if_neg hwide]
  rfl

end Runs

section FromFloat

variable {f : UInt32}

theorem floatFields (f : UInt32) : ((f >>> 31) &&& 1).toUInt16.toNat = f.toNat / 2 ^ 31 ∧ f.toNat / 2 ^ 31 < 2 ∧
    f.toNat % 2 ^ 31 = 2 ^ 23 * (f.toNat / 2 ^ 23 % 2 ^ 8) + f.toNat % 2 ^ 23 := by
  have hlt := f.toNat_lt
  exact ⟨toNat_signField f, by omega, by omega⟩

/-- A NaN is packed without the quiet bit. -/
theorem vlHalfFromFloat_nan (hnan : FloatIsNaN f) :
    Returns (vlHalfFromFloat f) fun h => h &&& 0x7E00 ≠ 0x7E00 := by
  obtain ⟨hsign, hsign', hfields⟩ := floatFields f
  rw [FloatIsNaN, hfields] at hnan
  have hfrac : f &&& 0x7FFFFF ≠ 0 := by
    rw [Ne, ← UInt32.toNat_inj, toNat_fracField]
    show ¬ _ = 0
    omega
  rw [vlHalfFromFloat, toNat_expField]
  dsimp only
  rw [if_pos (by omega), if_neg hfrac]
  refine returns_ok ?_
  have hpacked : ∀ sign : UInt16, sign.toNat < 2 → vlHalfPack sign 31 1 &&& 0x7E00 ≠ 0x7E00 := by
    intro sign hlt
    have hcases : sign.toNat = (0 : UInt16).toNat ∨ sign.toNat = (1 : UInt16).toNat := by
      show _ = 0 ∨ _ = 1
      omega
    rcases hcases with h | h
    · rw [UInt16.toNat.inj h]
      decide
    · rw [UInt16.toNat.inj h]
      decide
  exact hpacked _ (by omega)

/-- Numbers from the next power of two on, and the infinities. -/
theorem vlHalfFromFloat_large (hlow : 2 ^ 23 * 143 ≤ f.toNat % 2 ^ 31) (hnan : ¬ FloatIsNaN f) :
    Returns (vlHalfFromFloat f) fun h => h.toNat = 2 ^ 15 * (f.toNat / 2 ^ 31) + 0x7C00 := by
  obtain ⟨hsign, hsign', hfields⟩ := floatFields f
  rw [FloatIsNaN, hfields] at hnan
  rw [hfields] at hlow
  have hpack : (vlHalfPack ((f >>> 31) &&& 1).toUInt16 31 0).toNat = 2 ^ 15 * (f.toNat / 2 ^ 31) + 0x7C00 := by
    rw [toNat_vlHalfPack (by omega) (by decide) (by decide), hsign]
    rfl
  rw [vlHalfFromFloat, toNat_expField]
  dsimp only
  by_cases hinf : ((f.toNat / 2 ^ 23 % 2 ^ 8 : ℕ) : ℤ) = 255
  · have hfrac : f &&& 0x7FFFFF = 0 := by
      rw [← UInt32.toNat_inj, toNat_fracField]
      show _ = 0
      omega
    rw [if_pos hinf, if_pos hfrac]
    exact returns_ok hpack
  · rw [if_neg hinf, if_pos (by omega)]
    exact returns_ok hpack

/-- Numbers of the normal range. -/
theorem vlHalfFromFloat_normal (hlow : 2 ^ 23 * 113 ≤ f.toNat % 2 ^ 31)
    (hhigh : f.toNat % 2 ^ 31 < 2 ^ 23 * 143) : Returns (vlHalfFromFloat f) fun h =>
      h.toNat = 2 ^ 15 * (f.toNat / 2 ^ 31) + roundIndex (2 ^ 13) (f.toNat % 2 ^ 31 % 2 ^ 13)
        (f.toNat % 2 ^ 31 / 2 ^ 13 - 2 ^ 10 * 112) := by
  obtain ⟨hsign, hsign', hfields⟩ := floatFields f
  rw [hfields] at hlow hhigh ⊢
  obtain ⟨e, he⟩ : ∃ e, f.toNat / 2 ^ 23 % 2 ^ 8 = e + 113 := ⟨f.toNat / 2 ^ 23 % 2 ^ 8 - 113, by omega⟩
  have hfrac := toNat_fracField f
  have hnormal := toNat_vlHalfFromFloatNormal (q := f.toNat % 2 ^ 23 / 2 ^ 13) (r := f.toNat % 2 ^ 23 % 2 ^ 13)
    (e := e) hsign hsign' (by rw [hfrac, Nat.div_add_mod]) (by omega) (by omega) (by omega)
  have hexp : ((e + 113 : ℕ) : ℤ) - 127 = e - 14 := by omega
  rw [vlHalfFromFloat, toNat_expField, he]
  dsimp only
  rw [if_neg (by omega), if_neg (by omega), if_neg (by omega), hexp]
  have hrem : (2 ^ 23 * (e + 113) + f.toNat % 2 ^ 23) % 2 ^ 13 = f.toNat % 2 ^ 23 % 2 ^ 13 := by omega
  have hindex : (2 ^ 23 * (e + 113) + f.toNat % 2 ^ 23) / 2 ^ 13 - 2 ^ 10 * 112 =
      2 ^ 10 * (e + 1) + f.toNat % 2 ^ 23 / 2 ^ 13 := by omega
  rw [hrem, hindex]
  exact returns_ok hnormal

/-- Numbers that vanish, or seem to. -/
theorem vlHalfFromFloat_zero (h : f.toNat % 2 ^ 31 < 2 ^ 23 * 103 ∨
    2 ^ 23 * 108 ≤ f.toNat % 2 ^ 31 ∧ f.toNat % 2 ^ 31 < 2 ^ 23 * 113) :
    Returns (vlHalfFromFloat f) fun h => h.toNat = 2 ^ 15 * (f.toNat / 2 ^ 31) := by
  obtain ⟨hsign, hsign', hfields⟩ := floatFields f
  rw [hfields] at h
  have hfrac := toNat_fracField f
  rw [vlHalfFromFloat, toNat_expField]
  dsimp only
  rw [if_neg (by omega), if_neg (by omega), if_pos (by omega)]
  rcases h with hlow | ⟨hlow, hhigh⟩
  · rw [if_pos (by omega)]
    refine returns_ok ?_
    rw [toNat_vlHalfPack (by omega) (by decide) (by decide), hsign]
    rfl
  · rw [if_neg (by omega)]
    exact vlHalfFromFloatSubnormal_returns hsign hsign' (by omega) (by omega) (by omega)

/-- Numbers whose shift is undefined. -/
theorem vlHalfFromFloat_fault (hlow : 2 ^ 23 * 103 ≤ f.toNat % 2 ^ 31)
    (hhigh : f.toNat % 2 ^ 31 < 2 ^ 23 * 108) : vlHalfFromFloat f = .error .shiftTooFar := by
  obtain ⟨-, -, hfields⟩ := floatFields f
  rw [hfields] at hlow hhigh
  rw [vlHalfFromFloat, toNat_expField]
  dsimp only
  rw [if_neg (by omega), if_neg (by omega), if_pos (by omega), if_neg (by omega)]
  exact vlHalfFromFloatSubnormal_fault (by omega) (by omega)

/-- **A `float` is rounded correctly** exactly if it is no NaN, and not one of those between `2^-25` and
`2^-14`. -/
theorem vlHalfFromFloat_correctlyRounded_iff (f : UInt32) :
    Returns (vlHalfFromFloat f) (CorrectlyRounded f) ↔
      ¬ FloatIsNaN f ∧ (|floatValue f| ≤ 2 ^ (-25 : ℤ) ∨ 2 ^ (-14 : ℤ) ≤ |floatValue f|) := by
  obtain ⟨-, hs, -⟩ := floatFields f
  have hvanish : |floatValue f| ≤ 2 ^ (-25 : ℤ) ↔ f.toNat % 2 ^ 31 ≤ 2 ^ 23 * 102 := by
    rw [abs_floatValue, ← floatMagnitude_vanishing]
    exact floatMagnitude_strictMono.le_iff_le
  have hnormal : 2 ^ (-14 : ℤ) ≤ |floatValue f| ↔ 2 ^ 23 * 113 ≤ f.toNat % 2 ^ 31 := by
    rw [abs_floatValue, ← floatMagnitude_normal]
    exact floatMagnitude_strictMono.le_iff_le
  by_cases hnan : FloatIsNaN f
  · obtain ⟨h, hrun, hquiet⟩ := vlHalfFromFloat_nan hnan
    refine iff_of_false (fun hround => hquiet ?_) fun hcond => hcond.1 hnan
    exact (hround.of_ok hrun).nan hnan
  rw [and_iff_right hnan]
  -- the code returns, and what it returns is correct as the condition says
  have hiff : ∀ {n : ℕ}, n < 2 ^ 15 →
      Returns (vlHalfFromFloat f) (fun h => h.toNat = 2 ^ 15 * (f.toNat / 2 ^ 31) + n) →
      (((f.toNat % 2 ^ 31 < 2 ^ 23 * 142 + (2 ^ 23 - 2 ^ 12) →
        NearestEven halfMagnitude Even {n | n < 0x7C00} (floatMagnitude (f.toNat % 2 ^ 31)) n) ∧
      (2 ^ 23 * 142 + (2 ^ 23 - 2 ^ 12) ≤ f.toNat % 2 ^ 31 → n = 0x7C00)) ↔
        (|floatValue f| ≤ 2 ^ (-25 : ℤ) ∨ 2 ^ (-14 : ℤ) ≤ |floatValue f|)) →
      (Returns (vlHalfFromFloat f) (CorrectlyRounded f) ↔
        (|floatValue f| ≤ 2 ^ (-25 : ℤ) ∨ 2 ^ (-14 : ℤ) ≤ |floatValue f|)) := by
    rintro n hn ⟨h, hrun, hh⟩ hcond
    rw [← hcond, ← correctlyRounded_iff hnan hh hn]
    exact ⟨fun hround => hround.of_ok hrun, fun hround => ⟨h, hrun, hround⟩⟩
  by_cases hlarge : 2 ^ 23 * 143 ≤ f.toNat % 2 ^ 31
  · refine hiff (by norm_num) (vlHalfFromFloat_large hlarge hnan) (iff_of_true ⟨fun h => ?_, fun _ => rfl⟩ ?_)
    · omega
    · rw [hvanish, hnormal]
      omega
  by_cases hinner : 2 ^ 23 * 113 ≤ f.toNat % 2 ^ 31
  · obtain ⟨hbelow, habove⟩ := roundIndex_threshold (not_le.mp hlarge)
    refine hiff ?_ (vlHalfFromFloat_normal hinner (not_le.mp hlarge)) (iff_of_true ⟨fun h => ?_, habove⟩
      (Or.inr (hnormal.mpr hinner)))
    · rcases lt_or_ge (f.toNat % 2 ^ 31) (2 ^ 23 * 142 + (2 ^ 23 - 2 ^ 12)) with h | h
      · exact (hbelow h).trans (by norm_num)
      · rw [habove h]
        norm_num
    · exact (nearestEven_normal hinner).mono (Set.subset_univ _) (hbelow h)
  by_cases hfault : 2 ^ 23 * 103 ≤ f.toNat % 2 ^ 31 ∧ f.toNat % 2 ^ 31 < 2 ^ 23 * 108
  · rw [vlHalfFromFloat_fault hfault.1 hfault.2, hvanish, hnormal]
    refine iff_of_false (fun hround => ?_) (by omega)
    obtain ⟨h, herr, -⟩ := hround
    cases herr
  · refine hiff (n := 0) (by norm_num) (vlHalfFromFloat_zero (by omega)) ?_
    rw [nearestEven_zero_iff (floatMagnitude_nonneg _), ← abs_floatValue, hvanish, hnormal]
    omega

/-- The power `2^-15`, which is the subnormal half 0x0200. -/
theorem not_vlHalfFromFloat_correctlyRounded_subnormal :
    ¬ Returns (vlHalfFromFloat 0x38000000) (CorrectlyRounded 0x38000000) := by
  rintro ⟨h, hrun, hround⟩
  have hzero : vlHalfFromFloat 0x38000000 = .ok 0 := by decide +kernel
  obtain rfl : 0 = h := Except.ok.inj (hzero.symm.trans hrun)
  have hnan : ¬ FloatIsNaN 0x38000000 := by decide
  have hnearest := ((correctlyRounded_iff (n := 0) hnan rfl (by norm_num)).mp hround).1 (by decide)
  rw [nearestEven_zero_iff (floatMagnitude_nonneg _), ← floatMagnitude_vanishing,
    floatMagnitude_strictMono.le_iff_le] at hnearest
  exact absurd hnearest (by decide)

end FromFloat

end VeritableLasagna
