import VeritableLasagna.Algo.Gcd
import VeritableLasagna.Lib.Bits

/-!
# The next power of two

`vlAlgoNextPO2` smears the number below its argument over all 64 bits, adds one, and returns the lower 32
bits of the sum. What does not fit them is a larger power of two, of which the lower 32 bits are zero.
-/

namespace VeritableLasagna

/-- `vlAlgoNextPO2`. A `vl_uint_t` has 32 bits. -/
def vlAlgoNextPO2 (value : UInt64) : UInt32 :=
  if value = 0 then 1
  else if value > ullongMax >>> 1 then 0
  else
    let value := value - 1
    let value := value ||| value >>> 1
    let value := value ||| value >>> 2
    let value := value ||| value >>> 4
    let value := value ||| value >>> 8
    let value := value ||| value >>> 16
    let value := value ||| value >>> 32
    (value + 1).toUInt32

/-- `vlAlgoIsPO2`. -/
def vlAlgoIsPO2 (value : UInt64) : Bool := value ≠ 0 ∧ value &&& (value - 1) = 0

section NextPO2

variable {value : UInt64}

/-- The rounds of shifting, as words. -/
theorem smeared_word {n x : ℕ} {y s : UInt64} (h : Smeared n x y.toNat) (hs : s.toNat = n) (hn : n < 64) :
    Smeared (n + n) x (y ||| y >>> s).toNat := by
  rw [UInt64.toNat_or, UInt64.toNat_shiftRight, hs, Nat.mod_eq_of_lt hn]
  exact h.double

/-- All rounds. -/
theorem smeared_all (x : UInt64) :
    Smeared 64 x.toNat (
      let value := x
      let value := value ||| value >>> 1
      let value := value ||| value >>> 2
      let value := value ||| value >>> 4
      let value := value ||| value >>> 8
      let value := value ||| value >>> 16
      value ||| value >>> 32).toNat := by
  have h₁ := smeared_word (smeared_one (x := x.toNat)) (show (1 : UInt64).toNat = 1 from rfl) (by norm_num)
  have h₂ := smeared_word h₁ (show (2 : UInt64).toNat = 2 from rfl) (by norm_num)
  have h₄ := smeared_word h₂ (show (4 : UInt64).toNat = 4 from rfl) (by norm_num)
  have h₈ := smeared_word h₄ (show (8 : UInt64).toNat = 8 from rfl) (by norm_num)
  have h₁₆ := smeared_word h₈ (show (16 : UInt64).toNat = 16 from rfl) (by norm_num)
  exact smeared_word h₁₆ (show (32 : UInt64).toNat = 32 from rfl) (by norm_num)

/-- The exponent of the least power of two that is not less than a number. -/
theorem size_pred_eq_clog {n : ℕ} (h : n ≠ 0) : (n - 1).size = Nat.clog 2 n := by
  refine eq_of_forall_ge_iff fun k => ?_
  rw [Nat.size_le, Nat.clog_le_iff_le_pow (by norm_num)]
  omega

/-- The lower 32 bits of a power of two. -/
theorem two_pow_mod (k : ℕ) : 2 ^ k % 2 ^ 32 = if k < 32 then 2 ^ k else 0 := by
  split_ifs with h
  · exact Nat.mod_eq_of_lt (Nat.pow_lt_pow_right (by norm_num) h)
  · exact Nat.mod_eq_zero_of_dvd (Nat.pow_dvd_pow 2 (not_lt.mp h))

theorem toNat_vlAlgoNextPO2 : (vlAlgoNextPO2 value).toNat =
    if Nat.clog 2 value.toNat < 32 then 2 ^ Nat.clog 2 value.toNat else 0 := by
  have hmax : (ullongMax >>> 1).toNat = 2 ^ 63 - 1 := rfl
  rw [vlAlgoNextPO2]
  by_cases hzero : value = 0
  · rw [if_pos hzero, hzero]
    rfl
  rw [if_neg hzero]
  have hne := toNat_ne_zero hzero
  by_cases hlarge : value > ullongMax >>> 1
  · -- the next power of two has 64 bits or more
    rw [if_pos hlarge]
    rw [gt_iff_lt, UInt64.lt_iff_toNat_lt, hmax] at hlarge
    have hclog : 32 < Nat.clog 2 value.toNat :=
      (Nat.lt_clog_iff_pow_lt (by norm_num)).mpr (by omega)
    rw [if_neg (by omega)]
    rfl
  · rw [if_neg hlarge]
    rw [gt_iff_lt, UInt64.lt_iff_toNat_lt, hmax, not_lt] at hlarge
    have hpred : (value - 1).toNat = value.toNat - 1 :=
      UInt64.toNat_sub_of_le _ _ (UInt64.le_iff_toNat_le.mpr (Nat.one_le_iff_ne_zero.mpr hne))
    have hones := (smeared_all (value - 1)).eq (value - 1).toNat_lt
    have hsize : (value - 1).toNat.size ≤ 63 := Nat.size_le.mpr (by omega)
    rw [hpred, size_pred_eq_clog hne] at hones hsize
    have hpow : 2 ^ Nat.clog 2 value.toNat ≤ 2 ^ 63 := Nat.pow_le_pow_right (by norm_num) hsize
    have hpos := Nat.two_pow_pos (Nat.clog 2 value.toNat)
    rw [← two_pow_mod, UInt64.toNat_toUInt32, UInt64.toNat_add, hones, UInt64.toNat_one,
      Nat.sub_add_cancel hpos, Nat.mod_eq_of_lt (hpow.trans_lt (by norm_num))]

end NextPO2

/-- The test for powers of two. -/
theorem vlAlgoIsPO2_iff {value : UInt64} : vlAlgoIsPO2 value = true ↔ ∃ k, value.toNat = 2 ^ k := by
  have hzero : value ≠ 0 ↔ value.toNat ≠ 0 := not_congr UInt64.toNat_inj.symm
  have hand : value ≠ 0 → (value &&& (value - 1) = 0 ↔ value.toNat &&& (value.toNat - 1) = 0) := by
    intro hne
    have hle : (1 : UInt64) ≤ value :=
      UInt64.le_iff_toNat_le.mpr (Nat.one_le_iff_ne_zero.mpr (toNat_ne_zero hne))
    rw [← UInt64.toNat_inj, UInt64.toNat_and, UInt64.toNat_sub_of_le _ _ hle]
    rfl
  rw [vlAlgoIsPO2, decide_eq_true_iff, and_congr_right hand, hzero,
    Nat.ne_zero_and_sub_one_eq_zero_iff_isPowerOfTwo, Nat.isPowerOfTwo]

/-- **`vlAlgoNextPO2` is the least power of two** that is not less than its argument, if it fits 32 bits,
and zero in all other cases. Where it is not zero it is a power of two, and it is monotone there. -/
theorem vlAlgoNextPO2_least (value : UInt64) :
    (∃ p, IsLeast {p | (∃ k, p = 2 ^ k) ∧ value.toNat ≤ p} p ∧
      (vlAlgoNextPO2 value).toNat = if p < 2 ^ 32 then p else 0) ∧
    (vlAlgoNextPO2 value ≠ 0 → vlAlgoIsPO2 (vlAlgoNextPO2 value).toUInt64 = true) ∧
    ∀ value', value ≤ value' → vlAlgoNextPO2 value ≠ 0 → vlAlgoNextPO2 value' ≠ 0 →
      vlAlgoNextPO2 value ≤ vlAlgoNextPO2 value' := by
  have hpow : ∀ {v}, vlAlgoNextPO2 v ≠ 0 → (vlAlgoNextPO2 v).toNat = 2 ^ Nat.clog 2 v.toNat := by
    intro v hne
    have hv : (vlAlgoNextPO2 v).toNat = _ := toNat_vlAlgoNextPO2
    have hne' : (vlAlgoNextPO2 v).toNat ≠ 0 := fun h => hne (UInt32.toNat_inj.mp h)
    split_ifs at hv
    · exact hv
    · exact absurd hv hne'
  refine ⟨⟨2 ^ Nat.clog 2 value.toNat, ⟨⟨⟨_, rfl⟩, Nat.le_pow_clog (by norm_num) _⟩, ?_⟩, ?_⟩, ?_, ?_⟩
  · rintro _ ⟨⟨k, rfl⟩, hk⟩
    exact Nat.pow_le_pow_right (by norm_num) (Nat.clog_le_of_le_pow hk)
  · have hlt : 2 ^ Nat.clog 2 value.toNat < 2 ^ 32 ↔ Nat.clog 2 value.toNat < 32 :=
      Nat.pow_lt_pow_iff_right (by norm_num)
    rw [toNat_vlAlgoNextPO2, if_congr hlt rfl rfl]
  · intro hne
    rw [vlAlgoIsPO2_iff, UInt32.toNat_toUInt64]
    exact ⟨_, hpow hne⟩
  · intro value' hle hne hne'
    rw [UInt32.le_iff_toNat_le, hpow hne, hpow hne']
    exact Nat.pow_le_pow_right (by norm_num) (Nat.clog_mono_right 2 (UInt64.le_iff_toNat_le.mp hle))

end VeritableLasagna
