import Mathlib

/-!
# Splitting at an element

A list is split at the first or at the last place of an element: what is before it, and what is behind. These
are the two searches of a string for a character, which return a pointer to it. Both are described by what
they find, and not by the way they look for it.
-/

namespace VeritableLasagna

variable {α : Type*} [DecidableEq α] {a : α} {l x y : List α}

/-- The list before and behind the first `a`. -/
def splitFirst (a : α) : List α → Option (List α × List α)
  | [] => none
  | b :: l => if b = a then some ([], l) else (splitFirst a l).map fun p => (b :: p.1, p.2)

/-- The list before and behind the last `a`. -/
def splitLast (a : α) (l : List α) : Option (List α × List α) :=
  (splitFirst a l.reverse).map fun p => (p.2.reverse, p.1.reverse)

/-- **Where the first place is.** -/
theorem splitFirst_eq_some : splitFirst a l = some (x, y) ↔ l = x ++ a :: y ∧ a ∉ x := by
  induction l generalizing x with
  | nil =>
    constructor
    · rintro ⟨⟩
    · rintro ⟨hl, -⟩
      exact absurd hl.symm (List.append_ne_nil_of_right_ne_nil x (List.cons_ne_nil a y))
  | cons b l ih =>
    rw [splitFirst]
    split_ifs with hb
    · subst hb
      constructor
      · rintro ⟨⟩
        exact ⟨rfl, List.not_mem_nil⟩
      · rintro ⟨hl, hx⟩
        cases x with
        | nil =>
          obtain ⟨-, rfl⟩ := List.cons.inj hl
          rfl
        | cons c x =>
          obtain ⟨rfl, -⟩ := List.cons.inj hl
          exact absurd List.mem_cons_self hx
    · constructor
      · intro h
        obtain ⟨⟨x', y'⟩, hsplit, heq⟩ := Option.map_eq_some_iff.mp h
        obtain ⟨rfl, rfl⟩ := Prod.mk.inj heq
        obtain ⟨rfl, hx⟩ := ih.mp hsplit
        refine ⟨rfl, fun hmem => ?_⟩
        rcases List.mem_cons.mp hmem with rfl | hmem
        · exact hb rfl
        · exact hx hmem
      · rintro ⟨hl, hx⟩
        cases x with
        | nil => exact absurd (List.cons.inj hl).1 hb
        | cons c x =>
          obtain ⟨rfl, rfl⟩ := List.cons.inj hl
          rw [ih.mpr ⟨rfl, fun hmem => hx (List.mem_cons_of_mem _ hmem)⟩]
          rfl

theorem splitFirst_eq_none : splitFirst a l = none ↔ a ∉ l := by
  constructor
  · intro h hmem
    obtain ⟨x, y, rfl, hx⟩ := List.eq_append_cons_of_mem hmem
    rw [splitFirst_eq_some.mpr ⟨rfl, hx⟩] at h
    cases h
  · intro hmem
    cases h : splitFirst a l with
    | none => rfl
    | some p =>
      obtain ⟨rfl, -⟩ := splitFirst_eq_some.mp h
      exact absurd (List.mem_append_right _ List.mem_cons_self) hmem

/-- **Where the last place is.** -/
theorem splitLast_eq_some : splitLast a l = some (x, y) ↔ l = x ++ a :: y ∧ a ∉ y := by
  have hreverse : l = x ++ a :: y ↔ l.reverse = y.reverse ++ a :: x.reverse := by
    rw [← List.reverse_inj, List.reverse_append, List.reverse_cons, List.append_assoc,
      List.singleton_append]
  have hmem : a ∉ y ↔ a ∉ y.reverse := List.mem_reverse.not.symm
  rw [hreverse, hmem, ← splitFirst_eq_some, splitLast, Option.map_eq_some_iff]
  constructor
  · rintro ⟨⟨x', y'⟩, hsplit, heq⟩
    obtain ⟨rfl, rfl⟩ := Prod.mk.inj heq
    rw [List.reverse_reverse, List.reverse_reverse]
    exact hsplit
  · intro hsplit
    exact ⟨_, hsplit, by rw [List.reverse_reverse, List.reverse_reverse]⟩

theorem splitLast_eq_none : splitLast a l = none ↔ a ∉ l := by
  rw [splitLast, Option.map_eq_none_iff, splitFirst_eq_none, List.mem_reverse]

end VeritableLasagna
