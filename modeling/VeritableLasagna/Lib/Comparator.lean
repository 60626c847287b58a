import Mathlib

/-!
# Three-way comparators

A three-way comparator returns an integer whose sign orders its arguments. `LawfulComparator` is
what makes it a total order on the classes of elements it does not distinguish; a list is
**strictly sorted** by a comparator when every element is below every later one.
-/

namespace VeritableLasagna

/-- A comparator that is a consistent total order: swapping the arguments swaps the sign, and
"not above" is transitive. -/
structure LawfulComparator {α : Type*} (cmp : α → α → ℤ) : Prop where
  swap : ∀ a b, 0 < cmp a b ↔ cmp b a < 0
  trans : ∀ a b c, cmp a b ≤ 0 → cmp b c ≤ 0 → cmp a c ≤ 0

namespace LawfulComparator

variable {α β : Type*} {cmp : α → α → ℤ}

theorem self_eq_zero (h : LawfulComparator cmp) (a : α) : cmp a a = 0 := by
  have := h.swap a a
  omega

theorem eq_zero_comm (h : LawfulComparator cmp) {a b : α} : cmp a b = 0 ↔ cmp b a = 0 := by
  have hab := h.swap a b
  have hba := h.swap b a
  omega

theorem lt_trans_le (h : LawfulComparator cmp) {a b c : α} (hab : cmp a b < 0)
    (hbc : cmp b c ≤ 0) : cmp a c < 0 := by
  by_contra hac
  have hca : cmp c a ≤ 0 := by
    have := h.swap c a
    omega
  have hba := h.trans b c a hbc hca
  have := h.swap b a
  omega

theorem le_trans_lt (h : LawfulComparator cmp) {a b c : α} (hab : cmp a b ≤ 0)
    (hbc : cmp b c < 0) : cmp a c < 0 := by
  by_contra hac
  have hca : cmp c a ≤ 0 := by
    have := h.swap c a
    omega
  have hcb := h.trans c a b hca hab
  have := h.swap c b
  omega

/-- Elements equal to the same element are equal to each other. -/
theorem eq_zero_of_eq_zero (h : LawfulComparator cmp) {a b c : α} (hab : cmp a b = 0)
    (hac : cmp a c = 0) : cmp b c = 0 := by
  have hba := h.eq_zero_comm.mp hab
  have hca := h.eq_zero_comm.mp hac
  have hbc := h.trans b a c hba.le hac.le
  have hcb := h.trans c a b hca.le hab.le
  have := h.swap c b
  omega

/-- Everything below an element that is not above `e` is below `e`. -/
theorem below (h : LawfulComparator cmp) {a b e : α} (hab : cmp a b < 0) (hbe : cmp b e ≤ 0) :
    cmp a e < 0 := h.lt_trans_le hab hbe

/-- Everything above an element that is not below `e` is above `e`. -/
theorem above (h : LawfulComparator cmp) {a b e : α} (hab : cmp a b < 0) (hae : 0 ≤ cmp a e) :
    0 < cmp b e := by
  have hea : cmp e a ≤ 0 := by
    have := h.swap e a
    omega
  have := h.le_trans_lt hea hab
  have := h.swap b e
  omega

/-- Comparing through a function. -/
theorem comap (h : LawfulComparator cmp) (f : β → α) :
    LawfulComparator fun a b => cmp (f a) (f b) :=
  ⟨fun a b => h.swap (f a) (f b), fun a b c => h.trans (f a) (f b) (f c)⟩

end LawfulComparator

/-- The difference compares integers. -/
theorem lawfulComparator_sub : LawfulComparator fun a b : ℤ => a - b :=
  ⟨fun a b => by constructor <;> intro h <;> omega, fun a b c hab hbc => by omega⟩

/-- Every element is below every later one. -/
def StrictSorted {α : Type*} (cmp : α → α → ℤ) (l : List α) : Prop :=
  l.Pairwise fun a b => cmp a b < 0

namespace StrictSorted

variable {α : Type*} {cmp : α → α → ℤ} {l l₁ l₂ : List α} {e : α}

/-- A new element between those below and those above it. -/
theorem insert (h : StrictSorted cmp (l₁ ++ l₂)) (hlaw : LawfulComparator cmp)
    (hbelow : ∀ a ∈ l₁, cmp a e < 0) (habove : ∀ a ∈ l₂, 0 < cmp a e) :
    StrictSorted cmp (l₁ ++ e :: l₂) := by
  obtain ⟨h₁, h₂, hcross⟩ := List.pairwise_append.mp h
  refine List.pairwise_append.mpr ⟨h₁, List.pairwise_cons.mpr ⟨fun a ha => ?_, h₂⟩, ?_⟩
  · exact (hlaw.swap a e).mp (habove a ha)
  · intro a ha b hb
    rcases List.mem_cons.mp hb with rfl | hb
    · exact hbelow a ha
    · exact hcross a ha b hb

end StrictSorted

end VeritableLasagna
