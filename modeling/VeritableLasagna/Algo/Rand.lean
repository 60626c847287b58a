import VeritableLasagna.Lib.Words

/-!
# Pseudo-random numbers

`vlRandNext` adds a constant to its state and scrambles the sum. As the constant is odd, the states run
through all words before one comes back; and no step of the scrambling loses anything, so the numbers do the
same (`vlRandNext_fullPeriod`).
-/

namespace VeritableLasagna

/-- `vl_rand`, where there are words of 64 bits. -/
abbrev VlRand := UInt64

/-- The end of `vlRandNext`: the sum is scrambled. -/
def vlRandScramble (z : VlRand) : VlRand :=
  let z := (z ^^^ z >>> 30) * 0xBF58476D1CE4E5B9
  let z := (z ^^^ z >>> 27) * 0x94D049BB133111EB
  z ^^^ z >>> 31

/-- `vlRandNext`: the number, and the state that it leaves. -/
def vlRandNext (rand : VlRand) : VlRand × VlRand :=
  let z := rand + 0x9E3779B97F4A7C15
  (vlRandScramble z, z)

/-- The state after `n` calls. -/
def vlRandState (seed : VlRand) (n : ℕ) : VlRand := (fun rand => (vlRandNext rand).2)^[n] seed

/-- The number that call `n` returns, counting from 0. -/
def vlRandNumber (seed : VlRand) (n : ℕ) : VlRand := (vlRandNext (vlRandState seed n)).1

section Period

variable {seed : VlRand} {m n : ℕ}

/-! The constants are units. -/

theorem increment_unit : (0x9E3779B97F4A7C15 : UInt64) * 0xF1DE83E19937733D = 1 := by decide

theorem factor_unit : (0xBF58476D1CE4E5B9 : UInt64) * 0x96DE1B173F119089 = 1 := by decide

theorem secondFactor_unit : (0x94D049BB133111EB : UInt64) * 0x319642B2D24D8EC3 = 1 := by decide

theorem vlRandScramble_injective : Function.Injective vlRandScramble := by
  have hfirst := xorShift_injective (k := 30) (by decide)
  have hsecond := xorShift_injective (k := 27) (by decide)
  have hthird := xorShift_injective (k := 31) (by decide)
  exact hthird.comp ((mul_unit_injective secondFactor_unit).comp
    (hsecond.comp ((mul_unit_injective factor_unit).comp hfirst)))

/-- **The states** repeat after a multiple of `2 ^ 64` calls, and not before. -/
theorem vlRandState_eq_iff : vlRandState seed m = vlRandState seed n ↔ m % 2 ^ 64 = n % 2 ^ 64 :=
  iterate_add_unit_eq_iff increment_unit

/-- The number of a call is the state that it leaves, scrambled. -/
theorem vlRandNumber_eq : vlRandNumber seed n = vlRandScramble (vlRandState seed (n + 1)) := by
  rw [vlRandState, Function.iterate_succ_apply']
  rfl

/-- **The numbers** repeat after a multiple of `2 ^ 64` calls, and not before. -/
theorem vlRandNumber_eq_iff : vlRandNumber seed m = vlRandNumber seed n ↔ m % 2 ^ 64 = n % 2 ^ 64 := by
  rw [vlRandNumber_eq, vlRandNumber_eq, vlRandScramble_injective.eq_iff, vlRandState_eq_iff]
  omega

/-- **Every word** is among the numbers. -/
theorem exists_vlRandNumber (seed v : VlRand) : ∃ n < 2 ^ 64, vlRandNumber seed n = v := by
  obtain ⟨z, rfl⟩ := surjective_of_injective vlRandScramble_injective v
  obtain ⟨k, hk, hstate⟩ := exists_iterate_add_unit increment_unit seed z
  -- the state is the one that call `k - 1` leaves, and the seed is left by the last call
  refine ⟨(k + 2 ^ 64 - 1) % 2 ^ 64, Nat.mod_lt _ (by norm_num), ?_⟩
  rw [vlRandNumber_eq, ← hstate]
  refine congrArg vlRandScramble (vlRandState_eq_iff.mpr ?_)
  omega

end Period

/-- **The generator has full period.** Any two of `2 ^ 64` consecutive numbers are different, every word is one
of them exactly once, and the state comes back after `2 ^ 64` calls and not before. -/
theorem vlRandNext_fullPeriod (seed : VlRand) :
    (∀ m < 2 ^ 64, ∀ n < 2 ^ 64, vlRandNumber seed m = vlRandNumber seed n → m = n) ∧
      (∀ v, ∃! n, n < 2 ^ 64 ∧ vlRandNumber seed n = v) ∧
        vlRandState seed (2 ^ 64) = seed ∧ ∀ n, 0 < n → n < 2 ^ 64 → vlRandState seed n ≠ seed := by
  have hdistinct : ∀ m < 2 ^ 64, ∀ n < 2 ^ 64, vlRandNumber seed m = vlRandNumber seed n → m = n := by
    intro m hm n hn heq
    have hmod := vlRandNumber_eq_iff.mp heq
    rwa [Nat.mod_eq_of_lt hm, Nat.mod_eq_of_lt hn] at hmod
  refine ⟨hdistinct, fun v => ?_, ?_, fun n hpos hlt hback => ?_⟩
  · obtain ⟨n, hn, heq⟩ := exists_vlRandNumber seed v
    refine ⟨n, ⟨hn, heq⟩, ?_⟩
    rintro m ⟨hm, heq'⟩
    exact hdistinct m hm n hn (heq'.trans heq.symm)
  · have hback : vlRandState seed (2 ^ 64) = vlRandState seed 0 := vlRandState_eq_iff.mpr (by norm_num)
    exact hback
  · have hmod := (vlRandState_eq_iff (m := n) (n := 0)).mp hback
    rw [Nat.mod_eq_of_lt hlt] at hmod
    omega

end VeritableLasagna
