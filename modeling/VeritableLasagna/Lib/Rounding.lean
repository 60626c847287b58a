import Mathlib

/-!
# Rounding to the nearest

A number is rounded to the **nearest** of a family of points, and if two are as near, to the one that counts
as even (`NearestEven`). Where the points ascend, it is enough to know the two around the number and how far
it is between them (`nearestEven_round`).

The points of a binary floating-point format with `p` bits of fraction are the `floatGrid p`, in units of the
least: the patterns themselves, read as numbers, are their indices, with the carry out of a fraction going
into the exponent.
-/

namespace VeritableLasagna

/-! ### The nearest point -/

section Nearest

variable {α : Type*} [Field α] [LinearOrder α] {ι : Type*}

/-- **The nearest of the points**, and the even one if two are as near. -/
def NearestEven (g : ι → α) (even : ι → Prop) (s : Set ι) (x : α) (i : ι) : Prop :=
  i ∈ s ∧ ∀ j ∈ s, g j ≠ g i → |x - g i| < |x - g j| ∨ |x - g i| = |x - g j| ∧ even i

theorem NearestEven.mono {g : ι → α} {even : ι → Prop} {s t : Set ι} {x : α} {i : ι}
    (h : NearestEven g even s x i) (hts : t ⊆ s) (hi : i ∈ t) : NearestEven g even t x i :=
  ⟨hi, fun j hj => h.2 j (hts hj)⟩

variable [IsStrictOrderedRing α] {g : ℕ → α} {x : α} {n : ℕ}

/-- The lower of the two points around the number. -/
theorem nearestEven_lower (hg : StrictMono g) (hle : g n ≤ x) (hlt : x < g (n + 1))
    (h : x - g n < g (n + 1) - x ∨ x - g n = g (n + 1) - x ∧ Even n) :
    NearestEven g Even Set.univ x n := by
  refine ⟨Set.mem_univ n, fun j _ hj => ?_⟩
  rw [abs_of_nonneg (sub_nonneg.mpr hle)]
  rcases lt_trichotomy j n with hjn | rfl | hnj
  · have hgj := hg hjn
    rw [abs_of_pos (sub_pos.mpr (hgj.trans_le hle))]
    exact Or.inl (sub_lt_sub_left hgj x)
  · exact absurd rfl hj
  · have hgj : g (n + 1) ≤ g j := hg.monotone hnj
    rw [abs_sub_comm, abs_of_pos (sub_pos.mpr (hlt.trans_le hgj))]
    have hfar : g (n + 1) - x ≤ g j - x := sub_le_sub_right hgj x
    rcases h with hnear | ⟨htie, heven⟩
    · exact Or.inl (hnear.trans_le hfar)
    · exact (htie.le.trans hfar).lt_or_eq.imp_right fun heq => ⟨heq, heven⟩

/-- The upper of the two points around the number. -/
theorem nearestEven_upper (hg : StrictMono g) (hle : g n ≤ x) (hlt : x < g (n + 1))
    (h : g (n + 1) - x < x - g n ∨ g (n + 1) - x = x - g n ∧ Even (n + 1)) :
    NearestEven g Even Set.univ x (n + 1) := by
  refine ⟨Set.mem_univ _, fun j _ hj => ?_⟩
  rw [abs_sub_comm, abs_of_pos (sub_pos.mpr hlt)]
  rcases lt_trichotomy j (n + 1) with hjn | rfl | hnj
  · have hgj : g j ≤ g n := hg.monotone (Nat.le_of_lt_succ hjn)
    rw [abs_of_nonneg (sub_nonneg.mpr (hgj.trans hle))]
    have hfar : x - g n ≤ x - g j := sub_le_sub_left hgj x
    rcases h with hnear | ⟨htie, heven⟩
    · exact Or.inl (hnear.trans_le hfar)
    · exact (htie.le.trans hfar).lt_or_eq.imp_right fun heq => ⟨heq, heven⟩
  · exact absurd rfl hj
  · have hgj := hg hnj
    rw [abs_sub_comm, abs_of_pos (sub_pos.mpr (hlt.trans hgj))]
    exact Or.inl (sub_lt_sub_right hgj x)

/-- The index rounded to, `r` of `w` parts of the way to the next one. -/
def roundIndex (w r n : ℕ) : ℕ := if w < 2 * r ∨ 2 * r = w ∧ ¬ Even n then n + 1 else n

/-- **Rounding rule**: it is enough to know how far it is from the point below, and to the one above. -/
theorem nearestEven_round (hg : StrictMono g) {u : α} (hu : 0 < u) {w r : ℕ} (hr : r < w)
    (hx : x = g n + r * u) (hstep : g (n + 1) = g n + w * u) :
    NearestEven g Even Set.univ x (roundIndex w r n) := by
  have hlow : x - g n = r * u := by rw [hx, add_sub_cancel_left]
  have hup : g (n + 1) - x = (w - r) * u := by rw [hx, hstep]; ring
  have hle : g n ≤ x := by
    rw [hx]
    exact le_add_of_nonneg_right (mul_nonneg (Nat.cast_nonneg r) hu.le)
  have hlt : x < g (n + 1) := by
    rw [hx, hstep]
    exact (add_lt_add_iff_left _).mpr (mul_lt_mul_of_pos_right (Nat.cast_lt.mpr hr) hu)
  have hcast : ((w - r : ℕ) : α) = w - r := Nat.cast_sub hr.le
  rw [roundIndex]
  split_ifs with h
  · refine nearestEven_upper hg hle hlt ?_
    rw [hlow, hup, ← hcast, mul_lt_mul_iff_left₀ hu, mul_left_inj' hu.ne', Nat.cast_lt, Nat.cast_inj,
      Nat.even_add_one]
    exact h.imp (fun h => by omega) fun h => ⟨by omega, h.2⟩
  · refine nearestEven_lower hg hle hlt ?_
    rw [hlow, hup, ← hcast, mul_lt_mul_iff_left₀ hu, mul_left_inj' hu.ne', Nat.cast_lt, Nat.cast_inj]
    rw [not_or, not_and, not_not, not_lt] at h
    rcases h.1.lt_or_eq with hlt' | heq
    · exact Or.inl (by omega)
    · exact Or.inr ⟨by omega, h.2 heq⟩

end Nearest

/-! ### Floating-point numbers -/

/-- **The numbers of a binary floating-point format** with `p` bits of fraction, in units of the least. The
index has the exponent above the fraction. -/
def floatGrid (p n : ℕ) : ℕ :=
  if n < 2 ^ p then n else (2 ^ p + n % 2 ^ p) * 2 ^ (n / 2 ^ p - 1)

section Grid

variable {p e r n : ℕ}

theorem floatGrid_of_lt (h : n < 2 ^ p) : floatGrid p n = n := if_pos h

theorem floatGrid_normal (hr : r < 2 ^ p) :
    floatGrid p (2 ^ p * (e + 1) + r) = (2 ^ p + r) * 2 ^ e := by
  have hpos := Nat.two_pow_pos p
  have hge : ¬ 2 ^ p * (e + 1) + r < 2 ^ p := by
    rw [Nat.mul_add, Nat.mul_one]
    omega
  rw [floatGrid, if_neg hge, Nat.mul_add_mod, Nat.mod_eq_of_lt hr, Nat.mul_add_div hpos,
    Nat.div_eq_of_lt hr, Nat.add_zero, Nat.add_sub_cancel]

/-- **The next normal number**, the carry into the exponent included. -/
theorem floatGrid_normal_succ (hr : r < 2 ^ p) : floatGrid p (2 ^ p * (e + 1) + r + 1) =
    floatGrid p (2 ^ p * (e + 1) + r) + 2 ^ e := by
  rw [floatGrid_normal hr]
  rcases (Nat.succ_le_of_lt hr).lt_or_eq with hlt | heq
  · rw [Nat.add_assoc, floatGrid_normal hlt, Nat.succ_eq_add_one]
    ring
  · have hcarry : 2 ^ p * (e + 1) + r + 1 = 2 ^ p * (e + 1 + 1) + 0 := by
      rw [Nat.mul_add _ (e + 1)]
      omega
    have htop : 2 ^ p + r + 1 = 2 ^ p * 2 := by omega
    rw [hcarry, floatGrid_normal (Nat.two_pow_pos p), Nat.add_zero, pow_succ, ← Nat.succ_mul,
      Nat.succ_eq_add_one, htop]
    ring

theorem floatGrid_strictMono (p : ℕ) : StrictMono (floatGrid p) := by
  refine strictMono_nat_of_lt_succ fun n => ?_
  by_cases hn : n < 2 ^ p
  · rw [floatGrid_of_lt hn]
    rcases (Nat.succ_le_of_lt hn).lt_or_eq with hlt | heq
    · rw [floatGrid_of_lt hlt]
      exact Nat.lt_succ_self n
    · have hfirst : n + 1 = 2 ^ p * (0 + 1) + 0 := by
        rw [Nat.zero_add, Nat.mul_one, Nat.add_zero]
        exact heq
      rw [hfirst, floatGrid_normal (Nat.two_pow_pos p)]
      omega
  · have hpos := Nat.two_pow_pos p
    have hdiv : 1 ≤ n / 2 ^ p := (Nat.one_le_div_iff hpos).mpr (not_lt.mp hn)
    obtain ⟨e, he⟩ := Nat.exists_eq_add_of_le' hdiv
    have hn' : n = 2 ^ p * (e + 1) + n % 2 ^ p := by
      rw [← he, Nat.div_add_mod]
    rw [hn', floatGrid_normal_succ (Nat.mod_lt n hpos)]
    exact Nat.lt_add_of_pos_right (Nat.two_pow_pos e)

end Grid

end VeritableLasagna
