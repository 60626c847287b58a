import Mathlib

/-!
# Bits of natural numbers

What is said here about a number is said of its binary digits (`Nat.testBit`). A number can be **smeared**:
each of its ones is copied to all lower places, by shifting twice as far every time, and what comes out is
the largest number of the same length (`Smeared.eq`).
-/

namespace VeritableLasagna

/-! ### Smearing -/

/-- The ones of `y` are those of `x`, each copied to the places below it, `n` places in all. -/
def Smeared (n x y : ℕ) : Prop := ∀ i, y.testBit i = true ↔ ∃ j < n, x.testBit (i + j) = true

section Smeared

variable {n x y : ℕ}

theorem smeared_one : Smeared 1 x x := by
  intro i
  simp

/-- **Shifting as far as the number is smeared** doubles this. -/
theorem Smeared.double (h : Smeared n x y) : Smeared (n + n) x (y ||| y >>> n) := by
  intro i
  rw [Nat.testBit_or, Nat.testBit_shiftRight, Bool.or_eq_true, h i, h (n + i)]
  constructor
  · rintro (⟨j, hj, hx⟩ | ⟨j, hj, hx⟩)
    · exact ⟨j, by omega, hx⟩
    · exact ⟨n + j, by omega, by rwa [← Nat.add_assoc, Nat.add_comm i n]⟩
  · rintro ⟨j, hj, hx⟩
    by_cases hjn : j < n
    · exact Or.inl ⟨j, hjn, hx⟩
    · refine Or.inr ⟨j - n, by omega, ?_⟩
      rwa [Nat.add_comm n i, Nat.add_assoc, Nat.add_sub_of_le (by omega)]

/-- **A number smeared over its length** has ones only. -/
theorem Smeared.eq (h : Smeared n x y) (hx : x < 2 ^ n) : y = 2 ^ x.size - 1 := by
  refine Nat.eq_of_testBit_eq fun i => ?_
  rw [Nat.testBit_two_pow_sub_one, Bool.eq_iff_iff, decide_eq_true_iff, h i]
  constructor
  · rintro ⟨j, -, hj⟩
    exact Nat.lt_size.mpr ((Nat.pow_le_pow_right (by norm_num) (Nat.le_add_right i j)).trans
      (Nat.ge_two_pow_of_testBit hj))
  · intro hi
    -- the highest one
    obtain ⟨k, hk, hbit⟩ := Nat.exists_ge_and_testBit_of_ge_two_pow (Nat.lt_size.mp hi)
    have hkn : k < n := by
      by_contra hge
      rw [Nat.testBit_lt_two_pow (hx.trans_le (Nat.pow_le_pow_right (by norm_num) (not_lt.mp hge)))]
        at hbit
      cases hbit
    exact ⟨k - i, by omega, by rwa [Nat.add_sub_of_le hk]⟩

end Smeared

/-! ### Splitting -/

section Split

variable {a b c d k s : ℕ}

/-- A conjunction, split between two bits. -/
theorem two_pow_mul_add_land (hb : b < 2 ^ k) (hd : d < 2 ^ k) :
    (2 ^ k * a + b) &&& (2 ^ k * c + d) = 2 ^ k * (a &&& c) + (b &&& d) := by
  refine Nat.eq_of_testBit_eq fun j => ?_
  rw [Nat.testBit_and, Nat.testBit_two_pow_mul_add _ hb, Nat.testBit_two_pow_mul_add _ hd,
    Nat.testBit_two_pow_mul_add _ (Nat.and_lt_two_pow _ hd)]
  split_ifs <;> rw [Nat.testBit_and]

/-- A sum without carries, split between two bits. -/
theorem two_pow_mul_add_xor (hb : b < 2 ^ k) (hd : d < 2 ^ k) :
    (2 ^ k * a + b) ^^^ (2 ^ k * c + d) = 2 ^ k * (a ^^^ c) + (b ^^^ d) := by
  refine Nat.eq_of_testBit_eq fun j => ?_
  rw [Nat.testBit_xor, Nat.testBit_two_pow_mul_add _ hb, Nat.testBit_two_pow_mul_add _ hd,
    Nat.testBit_two_pow_mul_add _ (Nat.xor_lt_two_pow hb hd)]
  split_ifs <;> rw [Nat.testBit_xor]

/-- A number shifted down and masked, split between two bits: the mask takes out what comes from the upper
part. -/
theorem two_pow_mul_add_shiftRight_land (hb : b < 2 ^ k) (hs : s ≤ k) (hd : d < 2 ^ (k - s)) :
    ((2 ^ k * a + b) >>> s) &&& (2 ^ k * c + d) = 2 ^ k * ((a >>> s) &&& c) + ((b >>> s) &&& d) := by
  have hdk : d < 2 ^ k := hd.trans_le (Nat.pow_le_pow_right (by norm_num) (Nat.sub_le k s))
  refine Nat.eq_of_testBit_eq fun j => ?_
  rw [Nat.testBit_and, Nat.testBit_shiftRight, Nat.testBit_two_pow_mul_add _ hb,
    Nat.testBit_two_pow_mul_add _ hdk, Nat.testBit_two_pow_mul_add _ (Nat.and_lt_two_pow _ hdk)]
  by_cases hj : j < k
  · rw [if_pos hj, if_pos hj, Nat.testBit_and, Nat.testBit_shiftRight]
    by_cases hjs : s + j < k
    · rw [if_pos hjs]
    · have hzero : d.testBit j = false :=
        Nat.testBit_lt_two_pow (hd.trans_le (Nat.pow_le_pow_right (by norm_num) (by omega)))
      rw [hzero, Bool.and_false, Bool.and_false]
  · rw [if_neg hj, if_neg hj, if_neg (by omega), Nat.testBit_and, Nat.testBit_shiftRight,
      Nat.add_sub_assoc (not_lt.mp hj)]

end Split

section Lowest

variable {k m n w : ℕ}

/-- A number that is not zero, split behind its lowest one. -/
theorem exists_lowest (hn : n ≠ 0) : ∃ k m, n = 2 ^ (k + 1) * m + 2 ^ k := by
  obtain ⟨k, o, ⟨m, rfl⟩, rfl⟩ := Nat.exists_eq_two_pow_mul_odd hn
  exact ⟨k, m, by ring⟩

/-- **The lowest one is taken out** by a conjunction with the number before. -/
theorem land_pred : (2 ^ (k + 1) * m + 2 ^ k) &&& (2 ^ (k + 1) * m + 2 ^ k - 1) = 2 ^ (k + 1) * m := by
  have hpos := Nat.two_pow_pos k
  have hlt : 2 ^ k < 2 ^ (k + 1) := Nat.pow_lt_pow_right (by norm_num) (Nat.lt_succ_self k)
  rw [Nat.add_sub_assoc hpos, two_pow_mul_add_land hlt (by omega), Nat.and_self,
    Nat.and_two_pow_sub_one_eq_mod, Nat.mod_self, Nat.add_zero]

/-- **The lowest one is left** by a conjunction with the negated number. -/
theorem land_neg (h : 2 ^ (k + 1) * m + 2 ^ k < 2 ^ w) :
    (2 ^ (k + 1) * m + 2 ^ k) &&& (2 ^ w - (2 ^ (k + 1) * m + 2 ^ k)) = 2 ^ k := by
  have hlt : 2 ^ k < 2 ^ (k + 1) := Nat.pow_lt_pow_right (by norm_num) (Nat.lt_succ_self k)
  have hkw : k < w := (Nat.pow_lt_pow_iff_right (by norm_num)).mp (by omega : 2 ^ k < 2 ^ w)
  obtain ⟨j, rfl⟩ := Nat.exists_eq_add_of_lt hkw
  have hw : 2 ^ (k + j + 1) = 2 ^ (k + 1) * 2 ^ j := by ring
  rw [hw] at h ⊢
  have hm : m < 2 ^ j := by
    refine Nat.lt_of_mul_lt_mul_left (?_ : 2 ^ (k + 1) * m < 2 ^ (k + 1) * 2 ^ j)
    omega
  -- the upper part is inverted
  have hneg : 2 ^ (k + 1) * 2 ^ j - (2 ^ (k + 1) * m + 2 ^ k) =
      2 ^ (k + 1) * (2 ^ j - (m + 1)) + 2 ^ k := by
    obtain ⟨i, hi⟩ := Nat.exists_eq_add_of_lt hm
    have hsub : 2 ^ j - (m + 1) = i := by omega
    rw [hsub, hi]
    have hexp : 2 ^ (k + 1) * (m + i + 1) = 2 ^ (k + 1) * m + 2 ^ (k + 1) * i + 2 ^ (k + 1) := by ring
    rw [hexp, pow_succ]
    omega
  have hinverse : m &&& (2 ^ j - (m + 1)) = 0 := by
    refine Nat.eq_of_testBit_eq fun i => ?_
    rw [Nat.testBit_and, Nat.testBit_two_pow_sub_succ hm, Nat.zero_testBit]
    cases m.testBit i <;> simp
  rw [hneg, two_pow_mul_add_land hlt hlt, hinverse, Nat.and_self, Nat.mul_zero, Nat.zero_add]

end Lowest

/-! ### Bytes -/

/-- What holds of the 256 bytes holds of every byte. -/
theorem forall_byte {p : UInt8 → Prop} (h : ∀ n : Fin 256, p (UInt8.ofNat n)) (b : UInt8) : p b := by
  have hb := h ⟨b.toNat, b.toNat_lt⟩
  rwa [UInt8.ofNat_toNat] at hb

/-! ### Counting -/

/-- The number of ones among the lower `w` bits. -/
def oneBits (w n : ℕ) : ℕ := (List.range w).countP n.testBit

/-- The number of places without a one, up to the first that has one. -/
def zerosFrom (w : ℕ) (p : ℕ → Bool) : ℕ := ((List.range w).takeWhile fun i => ! p i).length

/-- The number of leading zero bits of a word of `w` bits. -/
def leadingZeros (w n : ℕ) : ℕ := zerosFrom w fun i => n.testBit (w - 1 - i)

/-- The number of trailing zero bits of a word of `w` bits. -/
def trailingZeros (w n : ℕ) : ℕ := zerosFrom w n.testBit

section Counting

variable {n m k w : ℕ} {p : ℕ → Bool}

/-- **The ones of two parts** add up. -/
theorem oneBits_two_pow_mul_add (hm : m < 2 ^ k) :
    oneBits (k + w) (2 ^ k * n + m) = oneBits w n + oneBits k m := by
  rw [oneBits, List.range_add, List.countP_append, List.countP_map, Nat.add_comm]
  refine congrArg₂ _ (List.countP_congr fun i _ => ?_) (List.countP_congr fun i hi => ?_)
  · rw [Function.comp_apply, Nat.testBit_two_pow_mul_add _ hm, if_neg (by omega),
      Nat.add_sub_cancel_left]
  · rw [Nat.testBit_two_pow_mul_add _ hm, if_pos (List.mem_range.mp hi)]

@[simp] theorem oneBits_zero : oneBits w 0 = 0 := by
  rw [oneBits, List.countP_eq_zero]
  intro i _
  rw [Nat.zero_testBit]
  exact Bool.false_ne_true

/-- **Taking out the lowest one** takes one out. -/
theorem oneBits_land_pred (hn : n ≠ 0) (hlt : n < 2 ^ w) :
    oneBits w (n &&& (n - 1)) + 1 = oneBits w n := by
  obtain ⟨k, m, rfl⟩ := exists_lowest hn
  have hpow : 2 ^ k < 2 ^ (k + 1) := Nat.pow_lt_pow_right (by norm_num) (Nat.lt_succ_self k)
  have hkw : k < w := (Nat.pow_lt_pow_iff_right (by norm_num)).mp (by omega : 2 ^ k < 2 ^ w)
  obtain ⟨j, rfl⟩ := Nat.exists_eq_add_of_le hkw
  have hone : oneBits (k + 1) (2 ^ k) = 1 := by
    have hsplit : oneBits (k + 1) (2 ^ k * 1 + 0) = oneBits 1 1 + oneBits k 0 :=
      oneBits_two_pow_mul_add (Nat.two_pow_pos k)
    rwa [Nat.mul_one, oneBits_zero] at hsplit
  have hupper : oneBits (k + 1 + j) (2 ^ (k + 1) * m + 0) = oneBits j m + oneBits (k + 1) 0 :=
    oneBits_two_pow_mul_add (Nat.two_pow_pos _)
  have hwhole : oneBits (k + 1 + j) (2 ^ (k + 1) * m + 2 ^ k) = oneBits j m + oneBits (k + 1) (2 ^ k) :=
    oneBits_two_pow_mul_add hpow
  rw [Nat.add_zero, oneBits_zero, Nat.add_zero] at hupper
  rw [hone] at hwhole
  rw [land_pred]
  exact (congrArg (· + 1) hupper).trans hwhole.symm

theorem zerosFrom_eq (hk : k < w) (hone : p k = true) (hzero : ∀ j < k, p j = false) :
    zerosFrom w p = k := by
  obtain ⟨j, rfl⟩ := Nat.exists_eq_add_of_lt hk
  rw [zerosFrom, Nat.add_assoc, List.range_add, List.takeWhile_append_of_pos, List.range_succ_eq_map,
    List.map_cons, Nat.add_zero, List.takeWhile_cons_of_neg (by simp [hone]), List.append_nil,
    List.length_range]
  intro i hi
  rw [hzero i (List.mem_range.mp hi)]
  rfl

theorem zerosFrom_eq_width (hzero : ∀ j < w, p j = false) : zerosFrom w p = w := by
  rw [zerosFrom, List.takeWhile_eq_self_iff.mpr, List.length_range]
  intro i hi
  rw [hzero i (List.mem_range.mp hi)]
  rfl

/-- The trailing zeros end at the lowest one. -/
theorem trailingZeros_eq (hk : k < w) : trailingZeros w (2 ^ (k + 1) * m + 2 ^ k) = k := by
  have hpow : 2 ^ k < 2 ^ (k + 1) := Nat.pow_lt_pow_right (by norm_num) (Nat.lt_succ_self k)
  refine zerosFrom_eq hk ?_ fun j hj => ?_
  · rw [Nat.testBit_two_pow_mul_add _ hpow, if_pos (Nat.lt_succ_self k), Nat.testBit_two_pow_self]
  · rw [Nat.testBit_two_pow_mul_add _ hpow, if_pos (by omega), Nat.testBit_two_pow_of_ne (by omega)]

/-- The leading zeros end at the highest one. -/
theorem leadingZeros_eq (hle : 2 ^ k ≤ n) (hlt : n < 2 ^ (k + 1)) (hkw : k < w) :
    leadingZeros w n = w - 1 - k := by
  have hindex : w - 1 - (w - 1 - k) = k := by omega
  refine zerosFrom_eq (by omega) ?_ fun j hj => ?_
  · rw [hindex]
    obtain ⟨i, hi, hbit⟩ := Nat.exists_ge_and_testBit_of_ge_two_pow hle
    obtain rfl : i = k := by
      by_contra hne
      rw [Nat.testBit_lt_two_pow (hlt.trans_le (Nat.pow_le_pow_right (by norm_num) (by omega)))] at hbit
      cases hbit
    exact hbit
  · exact Nat.testBit_lt_two_pow (hlt.trans_le (Nat.pow_le_pow_right (by norm_num) (by omega)))

theorem leadingZeros_zero : leadingZeros w 0 = w :=
  zerosFrom_eq_width fun _ _ => Nat.zero_testBit _

theorem trailingZeros_zero : trailingZeros w 0 = w :=
  zerosFrom_eq_width fun _ _ => Nat.zero_testBit _

/-- A number that is not zero lies between two powers of two. -/
theorem exists_highest (hn : n ≠ 0) : ∃ k, 2 ^ k ≤ n ∧ n < 2 ^ (k + 1) :=
  ⟨n.log2, Nat.log2_self_le hn, Nat.lt_log2_self⟩

/-- **A number moved up to the highest place** has as many leading zeros as it was moved. -/
theorem leadingZeros_eq_of_shift (hle : 2 ^ (w - 1) ≤ n * 2 ^ k) (hlt : n * 2 ^ k < 2 ^ w) :
    leadingZeros w n = k := by
  have hpos : n ≠ 0 := by
    rintro rfl
    rw [Nat.zero_mul] at hle
    exact absurd (Nat.two_pow_pos (w - 1)) (by omega)
  obtain ⟨e, he, he'⟩ := exists_highest hpos
  have hlow : 2 ^ (e + k) < 2 ^ w := by
    rw [pow_add]
    exact (Nat.mul_le_mul_right _ he).trans_lt hlt
  have hhigh : 2 ^ (w - 1) < 2 ^ (e + 1 + k) := by
    rw [pow_add]
    exact hle.trans_lt (Nat.mul_lt_mul_of_pos_right he' (Nat.two_pow_pos k))
  have h₁ := (Nat.pow_lt_pow_iff_right (by norm_num)).mp hlow
  have h₂ := (Nat.pow_lt_pow_iff_right (by norm_num)).mp hhigh
  rw [leadingZeros_eq he he' (by omega)]
  omega

/-- **The leading zeros of two parts** are those of the upper, unless it is zero. -/
theorem leadingZeros_two_pow_mul_add (hn : n < 2 ^ w) (hm : m < 2 ^ k) :
    leadingZeros (k + w) (2 ^ k * n + m) =
      if n ≠ 0 then leadingZeros w n else w + leadingZeros k m := by
  split_ifs with h
  · obtain ⟨e, he, he'⟩ := exists_highest h
    have hew : e < w := (Nat.pow_lt_pow_iff_right (by norm_num)).mp (he.trans_lt hn)
    have hle : 2 ^ (k + e) ≤ 2 ^ k * n + m := by
      rw [pow_add]
      exact (Nat.mul_le_mul_left _ he).trans (Nat.le_add_right _ _)
    have hlt : 2 ^ k * n + m < 2 ^ (k + e + 1) := by
      have hstep := Nat.mul_le_mul_left (2 ^ k) he'
      rw [Nat.add_assoc, pow_add]
      rw [Nat.succ_eq_add_one, Nat.mul_add, Nat.mul_one] at hstep
      omega
    rw [leadingZeros_eq he he' hew, leadingZeros_eq hle hlt (by omega)]
    omega
  · obtain rfl : n = 0 := not_not.mp h
    rw [Nat.mul_zero, Nat.zero_add]
    by_cases hm0 : m = 0
    · rw [hm0, leadingZeros_zero, leadingZeros_zero, Nat.add_comm]
    · obtain ⟨e, he, he'⟩ := exists_highest hm0
      have hek : e < k := (Nat.pow_lt_pow_iff_right (by norm_num)).mp (he.trans_lt hm)
      rw [leadingZeros_eq he he' (by omega), leadingZeros_eq he he' hek]
      omega

/-- **The trailing zeros of two parts** are those of the lower, unless it is zero. -/
theorem trailingZeros_two_pow_mul_add (hn : n < 2 ^ w) (hm : m < 2 ^ k) :
    trailingZeros (k + w) (2 ^ k * n + m) =
      if m ≠ 0 then trailingZeros k m else k + trailingZeros w n := by
  split_ifs with h
  · obtain ⟨e, o, rfl⟩ := exists_lowest h
    have hek : e < k := (Nat.pow_lt_pow_iff_right (by norm_num)).mp (by omega : 2 ^ e < 2 ^ k)
    obtain ⟨j, rfl⟩ := Nat.exists_eq_add_of_lt hek
    have hsplit : 2 ^ (e + j + 1) * n + (2 ^ (e + 1) * o + 2 ^ e) =
        2 ^ (e + 1) * (2 ^ j * n + o) + 2 ^ e := by ring
    rw [hsplit, trailingZeros_eq (by omega), trailingZeros_eq hek]
  · obtain rfl : m = 0 := not_not.mp h
    rw [Nat.add_zero]
    by_cases hn0 : n = 0
    · rw [hn0, Nat.mul_zero, trailingZeros_zero, trailingZeros_zero]
    · obtain ⟨e, o, rfl⟩ := exists_lowest hn0
      have hew : e < w := (Nat.pow_lt_pow_iff_right (by norm_num)).mp (by omega : 2 ^ e < 2 ^ w)
      have hsplit : 2 ^ k * (2 ^ (e + 1) * o + 2 ^ e) = 2 ^ (k + e + 1) * o + 2 ^ (k + e) := by ring
      rw [hsplit, trailingZeros_eq (by omega), trailingZeros_eq hew]

end Counting

end VeritableLasagna
