import VeritableLasagna.Algo.Gcd

/-!
# Least common multiples

`vlAlgoLCM` divides by the greatest common divisor before it multiplies, and tests with another division
whether the product leaves 64 bits. The test is exact, and so is that of `vlAlgoLCMSigned` for numbers
with a sign (`vlAlgoLCM_exact`).
-/

namespace VeritableLasagna

/-- A division of the source. -/
def divide (a b : UInt64) : Except Fault UInt64 :=
  if b = 0 then .error .divideByZero else .ok (a / b)

/-- `vlAlgoLCM`. -/
def vlAlgoLCM (a b : UInt64) : Except Fault UInt64 :=
  if a = 0 ∨ b = 0 then .ok 0
  else do
    let gcd ← vlAlgoGCD a b
    let quotient ← divide a gcd
    let limit ← divide ullongMax b
    if quotient > limit then return 0 else return quotient * b

/-- `vlAlgoLCMSigned`. -/
def vlAlgoLCMSigned (a b : Int64) : Except Fault Int64 :=
  if a = 0 ∨ b = 0 then .ok 0
  else do
    let ua := toMagnitude a
    let ub := toMagnitude b
    let ua := if a = Int64.minValue then Int64.minValue.toUInt64 else ua
    let ub := if b = Int64.minValue then Int64.minValue.toUInt64 else ub
    let result ← vlAlgoLCM ua ub
    if result > Int64.maxValue.toUInt64 then return 0 else return result.toInt64

section Unsigned

variable {a b gcd : UInt64}

theorem divide_eq (hb : b ≠ 0) : divide a b = .ok (a / b) := if_neg hb

/-- The greatest common divisor can be divided by. -/
theorem gcd_ne_zero (ha : a ≠ 0) (hgcd : vlAlgoGCD a b = .ok gcd) : gcd ≠ 0 := by
  rintro rfl
  have hzero := (vlAlgoGCD_returns a b).of_ok hgcd
  exact toNat_ne_zero ha (Nat.gcd_eq_zero_iff.mp hzero.symm).1

/-- The product is the least common multiple. -/
theorem quotient_mul (hgcd : vlAlgoGCD a b = .ok gcd) :
    (a / gcd).toNat * b.toNat = a.toNat.lcm b.toNat := by
  have hg := (vlAlgoGCD_returns a b).of_ok hgcd
  rw [UInt64.toNat_div, hg, Nat.lcm, Nat.div_mul_right_comm (Nat.gcd_dvd_left _ _)]

/-- **The test for overflow is exact.** -/
theorem quotient_gt_iff (hb : b ≠ 0) (hgcd : vlAlgoGCD a b = .ok gcd) :
    a / gcd > ullongMax / b ↔ 2 ^ 64 ≤ a.toNat.lcm b.toNat := by
  have hbpos := Nat.pos_of_ne_zero (toNat_ne_zero hb)
  have hmax : ullongMax.toNat = 2 ^ 64 - 1 := rfl
  have hle : (a / gcd).toNat ≤ (2 ^ 64 - 1) / b.toNat ↔ (a / gcd).toNat * b.toNat ≤ 2 ^ 64 - 1 :=
    Nat.le_div_iff_mul_le hbpos
  rw [quotient_mul hgcd] at hle
  rw [gt_iff_lt, UInt64.lt_iff_toNat_lt, UInt64.toNat_div, hmax, ← not_le, hle]
  omega

/-- **`vlAlgoLCM`** returns the least common multiple, or zero if there is none or it does not fit. -/
theorem vlAlgoLCM_returns (a b : UInt64) : Returns (vlAlgoLCM a b) fun r =>
    r.toNat = if a ≠ 0 ∧ b ≠ 0 ∧ a.toNat.lcm b.toNat < 2 ^ 64 then a.toNat.lcm b.toNat else 0 := by
  rw [vlAlgoLCM]
  by_cases hzero : a = 0 ∨ b = 0
  · rw [if_pos hzero, if_neg (by tauto)]
    exact returns_ok rfl
  rw [if_neg hzero]
  obtain ⟨ha, hb⟩ := not_or.mp hzero
  obtain ⟨gcd, hgcd, -⟩ := vlAlgoGCD_returns a b
  rw [hgcd, ok_bind, divide_eq (gcd_ne_zero ha hgcd), ok_bind, divide_eq hb, ok_bind]
  split_ifs with hgt hfits hfits
  · rw [quotient_gt_iff hb hgcd] at hgt
    omega
  · exact returns_ok rfl
  · refine returns_ok ?_
    rw [UInt64.toNat_mul, quotient_mul hgcd, Nat.mod_eq_of_lt hfits.2.2]
  · rw [quotient_gt_iff hb hgcd] at hgt
    exact absurd ⟨ha, hb, by omega⟩ hfits

end Unsigned

section Signed

variable {a b : Int64}

/-- The cast of the most negative number is its absolute value. -/
theorem toMagnitude_min : (if a = Int64.minValue then Int64.minValue.toUInt64 else toMagnitude a) =
    toMagnitude a := by
  split_ifs with h
  · rw [h]
    decide
  · rfl

theorem toMagnitude_ne_zero : toMagnitude a ≠ 0 ↔ a ≠ 0 := by
  rw [Ne, ← UInt64.toNat_inj, toNat_toMagnitude]
  exact not_congr natAbs_toInt_eq_zero_iff

/-- **`vlAlgoLCMSigned`** returns the least common multiple of the absolute values, or zero if there is
none or it does not fit. -/
theorem vlAlgoLCMSigned_returns (a b : Int64) : Returns (vlAlgoLCMSigned a b) fun r =>
    r.toInt = if a ≠ 0 ∧ b ≠ 0 ∧ Int.lcm a.toInt b.toInt < 2 ^ 63 then (Int.lcm a.toInt b.toInt : ℤ)
      else 0 := by
  rw [vlAlgoLCMSigned]
  by_cases hzero : a = 0 ∨ b = 0
  · rw [if_pos hzero, if_neg (by tauto)]
    exact returns_ok rfl
  rw [if_neg hzero]
  obtain ⟨ha, hb⟩ := not_or.mp hzero
  simp only [toMagnitude_min]
  refine (vlAlgoLCM_returns (toMagnitude a) (toMagnitude b)).bind fun r hr => ?_
  have hma : toMagnitude a ≠ 0 := toMagnitude_ne_zero.mpr ha
  have hmb : toMagnitude b ≠ 0 := toMagnitude_ne_zero.mpr hb
  simp only [ne_eq, hma, hmb, not_false_eq_true, true_and, toNat_toMagnitude] at hr
  have hr : r.toNat = if Int.lcm a.toInt b.toInt < 2 ^ 64 then Int.lcm a.toInt b.toInt else 0 := hr
  have hpos : 0 < Int.lcm a.toInt b.toInt := Int.lcm_pos
    (fun h => ha (natAbs_toInt_eq_zero_iff.mp (Int.natAbs_eq_zero.mpr h)))
    (fun h => hb (natAbs_toInt_eq_zero_iff.mp (Int.natAbs_eq_zero.mpr h)))
  simp only [ne_eq, ha, hb, not_false_eq_true, true_and]
  generalize Int.lcm a.toInt b.toInt = lcm at hr hpos ⊢
  have hgt : r > Int64.maxValue.toUInt64 ↔ 2 ^ 63 - 1 < r.toNat := UInt64.lt_iff_toNat_lt
  have hint := toInt_toInt64 r
  by_cases hfits : lcm < 2 ^ 63
  · have hsmall : 2 * r.toNat < 2 ^ 64 := by
      rw [hr, if_pos (by omega)]
      omega
    rw [if_pos (by omega)] at hr
    rw [if_pos hsmall, hr] at hint
    rw [if_neg (by rw [hgt]; omega), if_pos hfits]
    exact returns_ok hint
  · rw [if_neg hfits]
    split_ifs with hlarge
    · exact returns_ok rfl
    · -- the least common multiple fits 64 bits only if it was returned
      rw [hgt] at hlarge
      have hzero : r.toNat = 0 := by
        split_ifs at hr <;> omega
      rw [hzero] at hint
      exact returns_ok hint

end Signed

/-- **The least common multiples are exact**: each is returned when both numbers are not zero and it fits,
and zero is returned in all other cases. No division is by zero, and no product leaves 64 bits. -/
theorem vlAlgoLCM_exact :
    (∀ a b : UInt64, Returns (vlAlgoLCM a b) fun r => r.toNat =
      if a ≠ 0 ∧ b ≠ 0 ∧ a.toNat.lcm b.toNat < 2 ^ 64 then a.toNat.lcm b.toNat else 0) ∧
    (∀ a b : Int64, Returns (vlAlgoLCMSigned a b) fun r => r.toInt =
      if a ≠ 0 ∧ b ≠ 0 ∧ Int.lcm a.toInt b.toInt < 2 ^ 63 then (Int.lcm a.toInt b.toInt : ℤ) else 0) ∧
    ∀ a b gcd : UInt64, a ≠ 0 → b ≠ 0 → vlAlgoGCD a b = .ok gcd → gcd ≠ 0 ∧
      (¬ a / gcd > ullongMax / b → (a / gcd).toNat * b.toNat < 2 ^ 64) := by
  refine ⟨vlAlgoLCM_returns, vlAlgoLCMSigned_returns, fun a b gcd ha hb hgcd =>
    ⟨gcd_ne_zero ha hgcd, fun hle => ?_⟩⟩
  rw [quotient_gt_iff hb hgcd] at hle
  rw [quotient_mul hgcd]
  omega

end VeritableLasagna
