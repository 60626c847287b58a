import VeritableLasagna.Lib.Machine

/-!
# Greatest common divisors

`vlAlgoGCD` is the binary algorithm: it takes the common factors of two out of both arguments, makes them
odd by halving, and subtracts the smaller from the larger. Every loop has a bound here, and running into
it is a fault.

* The halving loops end because their operand is not zero: a word of 64 bits is halved fewer than 64
  times (`halve_spec`).
* The difference of two odd numbers is even, so the product of the operands halves in every round of the
  main loop, and 128 rounds are enough (`vlAlgoGCDLoop_spec`).
-/

namespace VeritableLasagna

/-- `ULLONG_MAX`. -/
def ullongMax : UInt64 := 0xffffffffffffffff

/-! ### The functions -/

/-- Right shifts of both numbers, as long as both are even: the first loop of `vlAlgoGCD`. -/
def vlAlgoGCDShift : ℕ → UInt64 → UInt64 → ℕ → Except Fault (UInt64 × UInt64 × ℕ)
  | 0, _, _, _ => .error .noReturn
  | rounds + 1, a, b, shift =>
    if (a ||| b) &&& 1 = 0 then vlAlgoGCDShift rounds (a >>> 1) (b >>> 1) (shift + 1)
    else .ok (a, b, shift)

/-- Right shifts of a number, as long as it is even: the other two inner loops. -/
def vlAlgoGCDHalve : ℕ → UInt64 → Except Fault UInt64
  | 0, _ => .error .noReturn
  | rounds + 1, b => if b &&& 1 = 0 then vlAlgoGCDHalve rounds (b >>> 1) else .ok b

/-- The main loop of `vlAlgoGCD`. -/
def vlAlgoGCDLoop : ℕ → UInt64 → UInt64 → Except Fault UInt64
  | 0, _, _ => .error .noReturn
  | rounds + 1, a, b => do
    let b ← vlAlgoGCDHalve 64 b
    let (a, b) := if a > b then (b, a) else (a, b)
    let b := b - a
    if b ≠ 0 then vlAlgoGCDLoop rounds a b else return a

/-- `vlAlgoGCD`. -/
def vlAlgoGCD (a b : UInt64) : Except Fault UInt64 :=
  if a = 0 then .ok b
  else if b = 0 then .ok a
  else do
    let (a, b, shift) ← vlAlgoGCDShift 64 a b 0
    let a ← vlAlgoGCDHalve 64 a
    let a ← vlAlgoGCDLoop 128 a b
    return a <<< UInt64.ofNat shift

/-- The conversion of a signed number to its absolute value, `a < 0 ? (vl_ularge_t)(-a) : (vl_ularge_t)a`
with the negation of two's complement. -/
def toMagnitude (a : Int64) : UInt64 := if a < 0 then (-a).toUInt64 else a.toUInt64

/-- `vlAlgoGCDSigned`. -/
def vlAlgoGCDSigned (a b : Int64) : Except Fault Int64 := do
  let gcd ← vlAlgoGCD (toMagnitude a) (toMagnitude b)
  return gcd.toInt64

/-- What `vlAlgoGCDSigned` has to do: return the greatest common divisor of the absolute values, or zero
if it does not fit a signed number. -/
def GcdSignedContract (a b : Int64) : Prop :=
  Returns (vlAlgoGCDSigned a b) fun r =>
    r.toInt = Int.gcd a.toInt b.toInt ∨ r = 0 ∧ 2 ^ 63 ≤ Int.gcd a.toInt b.toInt

/-! ### Words -/

section Words

variable {a b : UInt64}

theorem toNat_shiftRight_one : (a >>> 1).toNat = a.toNat / 2 := by
  rw [UInt64.toNat_shiftRight, Nat.shiftRight_eq_div_pow]
  rfl

/-- The lowest bit tells whether a number is even. -/
theorem and_one_eq_zero_iff : a &&& 1 = 0 ↔ a.toNat % 2 = 0 := by
  rw [← UInt64.toNat_inj, UInt64.toNat_and]
  exact Iff.of_eq (congrArg (· = 0) (Nat.and_one_is_mod _))

theorem or_and_one_eq_zero_iff : (a ||| b) &&& 1 = 0 ↔ a.toNat % 2 = 0 ∧ b.toNat % 2 = 0 := by
  have hor : (a.toNat ||| b.toNat) % 2 = 1 ↔ a.toNat % 2 = 1 ∨ b.toNat % 2 = 1 :=
    Nat.or_mod_two_eq_one
  rw [and_one_eq_zero_iff, UInt64.toNat_or]
  omega

theorem toNat_ne_zero (h : a ≠ 0) : a.toNat ≠ 0 := fun hzero => h (UInt64.toNat_inj.mp hzero)

end Words

/-! ### The loops -/

section Loops

variable {a b : UInt64} {rounds : ℕ}

/-- **Halving ends at an odd number**, when the number is not zero and the bound exceeds its length. -/
theorem vlAlgoGCDHalve_spec (hb : b ≠ 0) (hlt : b.toNat < 2 ^ rounds) :
    Returns (vlAlgoGCDHalve rounds b) fun c => c.toNat % 2 = 1 ∧ ∃ k, b.toNat = 2 ^ k * c.toNat := by
  have hpos := Nat.pos_of_ne_zero (toNat_ne_zero hb)
  induction rounds generalizing b with
  | zero => exact absurd hlt (by rw [pow_zero]; omega)
  | succ rounds ih =>
    rw [vlAlgoGCDHalve]
    split_ifs with heven
    · rw [and_one_eq_zero_iff] at heven
      have hhalf : (b >>> 1).toNat = b.toNat / 2 := toNat_shiftRight_one
      have hne : b >>> 1 ≠ 0 := fun hzero => by
        rw [hzero] at hhalf
        exact absurd hhalf (by simp; omega)
      refine (ih hne (by omega) (by omega)).mono fun c ⟨hodd, k, hk⟩ => ⟨hodd, k + 1, ?_⟩
      rw [pow_succ, mul_right_comm, ← hk]
      omega
    · rw [and_one_eq_zero_iff] at heven
      exact returns_ok ⟨by omega, 0, by rw [pow_zero, one_mul]⟩

/-- **The common factors of two** are counted. -/
theorem vlAlgoGCDShift_spec {shift : ℕ} (ha : a ≠ 0) (hlt : a.toNat < 2 ^ rounds) :
    Returns (vlAlgoGCDShift rounds a b shift) fun r => ∃ k, r.2.2 = shift + k ∧
      a.toNat = 2 ^ k * r.1.toNat ∧ b.toNat = 2 ^ k * r.2.1.toNat ∧
      (r.1.toNat % 2 = 1 ∨ r.2.1.toNat % 2 = 1) := by
  have hpos := Nat.pos_of_ne_zero (toNat_ne_zero ha)
  induction rounds generalizing a b shift with
  | zero => exact absurd hlt (by rw [pow_zero]; omega)
  | succ rounds ih =>
    rw [vlAlgoGCDShift]
    split_ifs with heven
    · obtain ⟨hevena, hevenb⟩ := or_and_one_eq_zero_iff.mp heven
      have hhalf : (a >>> 1).toNat = a.toNat / 2 := toNat_shiftRight_one
      have hhalfb : (b >>> 1).toNat = b.toNat / 2 := toNat_shiftRight_one
      have hne : a >>> 1 ≠ 0 := fun hzero => by
        rw [hzero] at hhalf
        exact absurd hhalf (by simp; omega)
      refine (ih hne (by omega) (by omega)).mono fun r ⟨k, hshift, hka, hkb, hodd⟩ =>
        ⟨k + 1, by omega, ?_, ?_, hodd⟩
      · rw [pow_succ, mul_right_comm, ← hka]
        omega
      · rw [pow_succ, mul_right_comm, ← hkb]
        omega
    · rw [or_and_one_eq_zero_iff] at heven
      refine returns_ok ⟨0, rfl, by rw [pow_zero, one_mul], by rw [pow_zero, one_mul], ?_⟩
      dsimp only
      omega

/-- Factors of two do not matter to the greatest common divisor with an odd number. -/
theorem gcd_two_pow_mul {m n k : ℕ} (hodd : m % 2 = 1) : m.gcd (2 ^ k * n) = m.gcd n := by
  have hcoprime : Nat.Coprime (2 ^ k) m := (Nat.coprime_two_left.mpr (Nat.odd_iff.mpr hodd)).pow_left k
  exact hcoprime.gcd_mul_left_cancel_right n

/-- **The main loop** ends with the greatest common divisor. The product of the two odd operands halves
in every round. -/
theorem vlAlgoGCDLoop_spec (hodd : a.toNat % 2 = 1) (hb : b ≠ 0)
    (hlt : ∀ k m, b.toNat = 2 ^ k * m → m % 2 = 1 → a.toNat * m < 2 ^ rounds) :
    Returns (vlAlgoGCDLoop rounds a b) fun r => r.toNat = a.toNat.gcd b.toNat := by
  induction rounds generalizing a b with
  | zero =>
    obtain ⟨c, -, hcodd, k, hk⟩ := vlAlgoGCDHalve_spec hb (b.toNat_lt)
    have hmul := hlt k _ hk hcodd
    have hpos : 0 < a.toNat * c.toNat := Nat.mul_pos (by omega) (by omega)
    omega
  | succ rounds ih =>
    rw [vlAlgoGCDLoop]
    refine (vlAlgoGCDHalve_spec hb b.toNat_lt).bind fun c ⟨hcodd, k, hk⟩ => ?_
    have hmul := hlt k _ hk hcodd
    have hgcd : a.toNat.gcd b.toNat = a.toNat.gcd c.toNat := by rw [hk, gcd_two_pow_mul hodd]
    rw [hgcd]
    clear hlt hgcd hk hb
    -- the smaller one is subtracted from the larger
    obtain ⟨x, y, hswap, hle, hx, hy, hxy, hgcd⟩ : ∃ x y : UInt64,
        (if a > c then (c, a) else (a, c)) = (x, y) ∧ x.toNat ≤ y.toNat ∧ x.toNat % 2 = 1 ∧ y.toNat % 2 = 1 ∧
        x.toNat * y.toNat < 2 ^ (rounds + 1) ∧ a.toNat.gcd c.toNat = x.toNat.gcd y.toNat := by
      by_cases hgt : c < a
      · have hle : c.toNat ≤ a.toNat := (UInt64.lt_iff_toNat_lt.mp hgt).le
        exact ⟨c, a, if_pos hgt, hle, hcodd, hodd, by rwa [mul_comm], Nat.gcd_comm _ _⟩
      · have hle : a.toNat ≤ c.toNat := not_lt.mp fun hlt => hgt (UInt64.lt_iff_toNat_lt.mpr hlt)
        exact ⟨a, c, if_neg hgt, hle, hodd, hcodd, hmul, rfl⟩
    rw [hswap, hgcd]
    dsimp only
    have hsub : (y - x).toNat = y.toNat - x.toNat :=
      UInt64.toNat_sub_of_le _ _ (UInt64.le_iff_toNat_le.mpr hle)
    split_ifs with hzero
    · rw [← Nat.gcd_sub_self_right hle, ← hsub]
      refine ih hx hzero fun j m hm hmodd => ?_
      -- the difference is even
      have hj : j ≠ 0 := by
        rintro rfl
        rw [pow_zero, one_mul] at hm
        omega
      obtain ⟨j, rfl⟩ := Nat.exists_eq_succ_of_ne_zero hj
      have htwo : 2 * m ≤ y.toNat := by
        have hpow : 1 ≤ 2 ^ j := Nat.one_le_two_pow
        rw [pow_succ, mul_assoc] at hm
        calc 2 * m = 1 * (2 * m) := (one_mul _).symm
          _ ≤ 2 ^ j * (2 * m) := Nat.mul_le_mul_right _ hpow
          _ ≤ y.toNat := by omega
      have hprod : x.toNat * (2 * m) ≤ x.toNat * y.toNat := Nat.mul_le_mul_left _ htwo
      rw [mul_left_comm] at hprod
      rw [pow_succ] at hxy
      omega
    · have heq : y.toNat = x.toNat := by
        have hzero' := congrArg UInt64.toNat (not_not.mp hzero)
        rw [hsub] at hzero'
        have hz : y.toNat - x.toNat = 0 := hzero'
        omega
      rw [heq, Nat.gcd_self]
      exact returns_ok rfl

end Loops

/-! ### The greatest common divisor -/

/-- **`vlAlgoGCD`** ends, and returns the greatest common divisor. -/
theorem vlAlgoGCD_returns (a b : UInt64) :
    Returns (vlAlgoGCD a b) fun r => r.toNat = a.toNat.gcd b.toNat := by
  rw [vlAlgoGCD]
  split_ifs with ha hb
  · rw [ha]
    exact returns_ok (Nat.gcd_zero_left _).symm
  · rw [hb]
    exact returns_ok (Nat.gcd_zero_right _).symm
  · have hapos := Nat.pos_of_ne_zero (toNat_ne_zero ha)
    refine (vlAlgoGCDShift_spec ha a.toNat_lt).bind ?_
    rintro ⟨a', b', shift⟩ ⟨s, hshift, hka, hkb, hodd⟩
    obtain rfl : shift = s := hshift.trans (Nat.zero_add s)
    dsimp only at hka hkb hodd ⊢
    have hpow : 0 < 2 ^ shift := Nat.two_pow_pos shift
    have hne : ∀ {x y : UInt64}, x ≠ 0 → x.toNat = 2 ^ shift * y.toNat → y ≠ 0 := by
      rintro x y hx hxy rfl
      exact toNat_ne_zero hx (hxy.trans (Nat.mul_zero _))
    have hb' : b' ≠ 0 := hne hb hkb
    refine (vlAlgoGCDHalve_spec (hne ha hka) a'.toNat_lt).bind fun c ⟨hcodd, k, hk⟩ => ?_
    -- the product of two words
    have hprod : ∀ j m, b'.toNat = 2 ^ j * m → m % 2 = 1 → c.toNat * m < 2 ^ 128 := by
      intro j m hm _
      have hm' : m ≤ b'.toNat := by
        rw [hm]
        exact Nat.le_mul_of_pos_left _ (Nat.two_pow_pos j)
      calc c.toNat * m ≤ c.toNat * b'.toNat := Nat.mul_le_mul_left _ hm'
        _ < 2 ^ 64 * 2 ^ 64 := Nat.mul_lt_mul'' c.toNat_lt b'.toNat_lt
        _ = 2 ^ 128 := by norm_num
    refine (vlAlgoGCDLoop_spec hcodd hb' hprod).bind fun r hr => returns_ok ?_
    have hgcd : a.toNat.gcd b.toNat = 2 ^ shift * r.toNat := by
      have hodd' : a'.toNat.gcd b'.toNat = c.toNat.gcd b'.toNat := by
        rcases hodd with hodd | hodd
        · cases k with
          | zero => rw [hk, pow_zero, one_mul]
          | succ k =>
            rw [pow_succ, mul_right_comm] at hk
            omega
        · rw [hk, Nat.gcd_comm, gcd_two_pow_mul hodd, Nat.gcd_comm]
      rw [hka, hkb, Nat.gcd_mul_left, hodd', hr]
    have hlt : a.toNat.gcd b.toNat < 2 ^ 64 :=
      (Nat.gcd_le_left _ hapos).trans_lt a.toNat_lt
    have hr0 : 0 < r.toNat := Nat.pos_of_ne_zero fun hzero => by
      rw [hzero, Nat.mul_zero, Nat.gcd_eq_zero_iff] at hgcd
      omega
    have hshiftlt : shift < 64 := by
      by_contra hge
      have hle : 2 ^ 64 ≤ 2 ^ shift := Nat.pow_le_pow_right (by norm_num) (not_lt.mp hge)
      have hmul : 2 ^ shift ≤ 2 ^ shift * r.toNat := Nat.le_mul_of_pos_right _ hr0
      omega
    have hof : (UInt64.ofNat shift).toNat % 64 = shift := by
      rw [UInt64.toNat_ofNat_of_lt' (hshiftlt.trans (by decide)), Nat.mod_eq_of_lt hshiftlt]
    rw [UInt64.toNat_shiftLeft, hof, Nat.shiftLeft_eq, Nat.mul_comm, ← hgcd, Nat.mod_eq_of_lt hlt]

/-- **`vlAlgoGCD` is the greatest common divisor** of all numbers of 64 bits. -/
theorem vlAlgoGCD_eq_gcd (a b : UInt64) :
    vlAlgoGCD a b = .ok (UInt64.ofNat (a.toNat.gcd b.toNat)) := by
  obtain ⟨r, hr, hgcd⟩ := vlAlgoGCD_returns a b
  rw [hr, ← hgcd, UInt64.ofNat_toNat]

/-! ### Signed numbers -/

section Signed

variable {a b : Int64}

/-- A signed number, by the word that holds it. -/
theorem toInt_eq (a : Int64) : a.toInt =
    if 2 * a.toUInt64.toNat < 2 ^ 64 then (a.toUInt64.toNat : ℤ) else a.toUInt64.toNat - 2 ^ 64 :=
  BitVec.toInt_eq_toNat_cond a.toBitVec

theorem toNat_neg (a : UInt64) : (-a).toNat = (2 ^ 64 - a.toNat) % 2 ^ 64 :=
  BitVec.toNat_neg a.toBitVec

/-- The absolute value of every signed number is a word. -/
theorem toNat_toMagnitude : (toMagnitude a).toNat = a.toInt.natAbs := by
  have hlt := a.toUInt64.toNat_lt
  have hneg : a < 0 ↔ a.toInt < 0 := Int64.lt_iff_toInt_lt
  have hint := toInt_eq a
  rw [toMagnitude]
  split_ifs at hint ⊢ with hlt' hsmall hsmall
  · rw [hneg] at hlt'
    omega
  · rw [Int64.toUInt64_neg, toNat_neg]
    omega
  · omega
  · rw [hneg] at hlt'
    omega

theorem natAbs_toInt_le : a.toInt.natAbs ≤ 2 ^ 63 := by
  have hlt := a.toUInt64.toNat_lt
  have hint := toInt_eq a
  split_ifs at hint <;> omega

theorem natAbs_toInt_eq_iff : a.toInt.natAbs = 2 ^ 63 ↔ a = Int64.minValue := by
  constructor
  · intro h
    have hlt := a.toUInt64.toNat_lt
    have hint := toInt_eq a
    refine Int64.toInt_inj.mp ?_
    rw [Int64.toInt_minValue]
    split_ifs at hint <;> omega
  · rintro rfl
    rfl

theorem natAbs_toInt_eq_zero_iff : a.toInt.natAbs = 0 ↔ a = 0 := by
  rw [Int.natAbs_eq_zero, ← Int64.toInt_zero, Int64.toInt_inj]

/-- A word as a signed number. -/
theorem toInt_toInt64 (a : UInt64) :
    a.toInt64.toInt = if 2 * a.toNat < 2 ^ 64 then (a.toNat : ℤ) else a.toNat - 2 ^ 64 :=
  toInt_eq a.toInt64

/-- The greatest common divisor of numbers up to a bound is the bound only if each is zero or the bound. -/
theorem gcd_lt_iff {m n bound : ℕ} (hbound : 0 < bound) (hm : m ≤ bound) (hn : n ≤ bound) :
    m.gcd n < bound ↔
      ¬ ((m = bound ∨ n = bound) ∧ (m = 0 ∨ m = bound) ∧ (n = 0 ∨ n = bound)) := by
  constructor
  · rintro hlt ⟨hsome, rfl | rfl, rfl | rfl⟩
    · omega
    · rw [Nat.gcd_zero_left] at hlt
      omega
    · rw [Nat.gcd_zero_right] at hlt
      omega
    · rw [Nat.gcd_self] at hlt
      omega
  · intro hnot
    by_contra hge
    have hzero : m.gcd n ≠ 0 := by omega
    rw [Ne, Nat.gcd_eq_zero_iff] at hzero
    have hle : ∀ k ≤ bound, m.gcd n ∣ k → k = 0 ∨ k = bound := by
      intro k hk hdvd
      rcases Nat.eq_zero_or_pos k with hk0 | hpos
      · exact Or.inl hk0
      · have hgcd := Nat.le_of_dvd hpos hdvd
        exact Or.inr (by omega)
    have hm' := hle m hm (Nat.gcd_dvd_left m n)
    have hn' := hle n hn (Nat.gcd_dvd_right m n)
    exact hnot ⟨by omega, hm', hn'⟩

/-- The greatest common divisor does not fit only if both numbers are zero or the most negative one. -/
theorem gcd_toInt_lt_iff : Int.gcd a.toInt b.toInt < 2 ^ 63 ↔
    ¬ ((a = Int64.minValue ∨ b = Int64.minValue) ∧ (a = 0 ∨ a = Int64.minValue) ∧
      (b = 0 ∨ b = Int64.minValue)) := by
  rw [← natAbs_toInt_eq_iff, ← natAbs_toInt_eq_iff, ← natAbs_toInt_eq_zero_iff,
    ← natAbs_toInt_eq_zero_iff]
  exact gcd_lt_iff (Nat.two_pow_pos 63) natAbs_toInt_le natAbs_toInt_le

end Signed

end VeritableLasagna
