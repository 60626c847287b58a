import Mathlib

/-!
# Bijections of words

On words of 64 bits, **xor with a shift of oneself** is injective (`xorShift_injective`): two words with the
same image differ by a word that is its own shift, and only zero is. So is multiplication with a unit
(`mul_unit_injective`).

Adding a unit again and again runs through all words before it comes back
(`iterate_add_unit_eq_iff`).
-/

namespace VeritableLasagna

section Words

variable {k c c' w : UInt64}

/-- **Xor with a shift of oneself** loses nothing. -/
theorem xorShift_injective (hk : k.toNat % 64 ≠ 0) : Function.Injective fun z : UInt64 => z ^^^ (z >>> k) := by
  intro z z' h
  have hshift : z ^^^ z' = (z ^^^ z') >>> k := by
    have hxor : z ^^^ z' ^^^ ((z ^^^ z') >>> k) = 0 := by
      rw [UInt64.shiftRight_xor]
      have hzero : (z ^^^ (z >>> k)) ^^^ (z' ^^^ (z' >>> k)) = 0 := UInt64.xor_eq_zero_iff.mpr h
      rw [← hzero]
      ac_rfl
    exact UInt64.xor_eq_zero_iff.mp hxor
  -- a word that is its own shift
  have hdiv := congrArg UInt64.toNat hshift
  rw [UInt64.toNat_shiftRight, Nat.shiftRight_eq_div_pow] at hdiv
  refine UInt64.xor_eq_zero_iff.mp (UInt64.toNat_inj.mp ?_)
  by_contra hne
  have hlt := Nat.div_lt_self (Nat.pos_of_ne_zero hne) (Nat.one_lt_two_pow hk)
  omega

/-- **Multiplication with a unit** loses nothing. -/
theorem mul_unit_injective (h : c * c' = 1) : Function.Injective fun z : UInt64 => z * c := by
  have hinverse : Function.LeftInverse (fun z => z * c') fun z : UInt64 => z * c := by
    intro z
    dsimp only
    rw [UInt64.mul_assoc, h, UInt64.mul_one]
  exact hinverse.injective

theorem finite_words : Finite UInt64 :=
  Finite.of_injective UInt64.toFin fun _ _ h => UInt64.toFin_inj.mp h

/-- A map that loses nothing reaches every word. -/
theorem surjective_of_injective {f : UInt64 → UInt64} (h : Function.Injective f) : Function.Surjective f :=
  have := finite_words
  Finite.surjective_of_injective h

/-! ### Adding the same word again and again -/

theorem iterate_add (n : ℕ) : (fun z : UInt64 => z + c)^[n] w = w + UInt64.ofNat n * c := by
  induction n with
  | zero =>
    rw [Function.iterate_zero, id]
    simp
  | succ n ih =>
    have hone : UInt64.ofNat 1 * c = c := UInt64.one_mul c
    rw [Function.iterate_succ_apply', ih, UInt64.ofNat_add, UInt64.add_mul, hone, UInt64.add_assoc]

/-- **Adding a unit** comes back to a word after a multiple of `2 ^ 64` steps, and not before. -/
theorem iterate_add_unit_eq_iff (h : c * c' = 1) {m n : ℕ} :
    (fun z : UInt64 => z + c)^[m] w = (fun z : UInt64 => z + c)^[n] w ↔ m % 2 ^ 64 = n % 2 ^ 64 := by
  rw [iterate_add, iterate_add, UInt64.add_right_inj, (mul_unit_injective h).eq_iff, ← UInt64.toNat_inj]
  rfl

/-- **Adding a unit** reaches every word. -/
theorem exists_iterate_add_unit (h : c * c' = 1) (w v : UInt64) :
    ∃ n < 2 ^ 64, (fun z : UInt64 => z + c)^[n] w = v := by
  refine ⟨((v - w) * c').toNat, UInt64.toNat_lt _, ?_⟩
  have hunit : c' * c = 1 := by rw [UInt64.mul_comm, h]
  rw [iterate_add, UInt64.ofNat_toNat, UInt64.mul_assoc, hunit, UInt64.mul_one, UInt64.add_comm,
    UInt64.sub_add_cancel]

end Words

end VeritableLasagna
