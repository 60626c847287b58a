import Mathlib

/-!
# Quantities spread over threads

An interleaving model keeps, for every thread, where it stands and what it holds. Its invariants
count over all threads, while a step changes what one thread contributes: `sum_change` is the
arithmetic of such a step. What is counted may be numbers, but also the things that the threads hold, as
multisets (`sum_change_of`); and a counter that the threads are still to change, each by its own amount,
is accounted for modulo its width (`modEq_change`).
-/

namespace VeritableLasagna

variable {T : Type*} [Fintype T] {f g : T → ℕ} {t : T}

/-- A step that changes the contribution of one thread changes the total by as much, whatever is
counted. -/
theorem sum_change_of {M : Type*} [AddCommMonoid M] [DecidableEq T] {f g : T → M}
    (h : ∀ u, u ≠ t → g u = f u) : ∑ u, g u + f t = ∑ u, f u + g t := by
  have hrest : ∑ u ∈ Finset.univ.erase t, g u = ∑ u ∈ Finset.univ.erase t, f u :=
    Finset.sum_congr rfl fun u hu => h u (Finset.ne_of_mem_erase hu)
  rw [← Finset.add_sum_erase _ g (Finset.mem_univ t), ← Finset.add_sum_erase _ f (Finset.mem_univ t),
    hrest]
  abel

/-- **Conservation**: when what a step takes from one thread goes elsewhere, or comes from there, the sum of
both is the same. -/
theorem add_sum_change {M : Type*} [AddCancelCommMonoid M] [DecidableEq T] {f g : T → M} {a b : M}
    (h : ∀ u, u ≠ t → g u = f u) (hstep : a + g t = b + f t) : a + ∑ u, g u = b + ∑ u, f u := by
  refine add_right_cancel (b := f t) ?_
  rw [add_assoc, sum_change_of h, add_comm _ (g t), ← add_assoc, hstep, add_right_comm]

/-- A step that changes the contribution of one thread changes the total by as much. -/
theorem sum_change [DecidableEq T] (h : ∀ u, u ≠ t → g u = f u) : ∑ u, g u + f t = ∑ u, f u + g t :=
  sum_change_of h

/-- **A counter that the threads owe to**: a step that changes it by what its thread owed leaves it
accounted for. -/
theorem modEq_change [DecidableEq T] {due due' : T → ℤ} {m n n' k k' : ℤ}
    (h : ∀ u, u ≠ t → due' u = due u) (hold : n + ∑ u, due u ≡ k [ZMOD m])
    (hstep : n' + due' t - k' ≡ n + due t - k [ZMOD m]) : n' + ∑ u, due' u ≡ k' [ZMOD m] := by
  have hsum := sum_change_of h
  rw [Int.modEq_iff_dvd] at hold hstep ⊢
  obtain ⟨a, ha⟩ := hold
  obtain ⟨b, hb⟩ := hstep
  exact ⟨a + b, by linarith⟩

/-- A counter of `w` bits after an increment. -/
theorem increment_modEq (w n : ℕ) : (((n + 1) % 2 ^ w : ℕ) : ℤ) ≡ n + 1 [ZMOD 2 ^ w] := by
  push_cast
  exact Int.mod_modEq _ _

/-- A counter of `w` bits after a decrement. -/
theorem decrement_modEq (w n : ℕ) : (((n + (2 ^ w - 1)) % 2 ^ w : ℕ) : ℤ) ≡ n + -1 [ZMOD 2 ^ w] := by
  have hpos : 1 ≤ 2 ^ w := Nat.one_le_two_pow
  push_cast [Nat.cast_sub hpos]
  refine (Int.mod_modEq _ _).trans (Int.modEq_iff_dvd.mpr ⟨-1, ?_⟩)
  ring

/-- No thread contributes more than the total. -/
theorem le_total (f : T → ℕ) (t : T) : f t ≤ ∑ u, f u :=
  Finset.single_le_sum (fun _ _ => Nat.zero_le _) (Finset.mem_univ t)

/-- A total of zero has no contributions. -/
theorem total_eq_zero : ∑ u, f u = 0 ↔ ∀ u, f u = 0 := by
  simp [Finset.sum_eq_zero_iff]

end VeritableLasagna
