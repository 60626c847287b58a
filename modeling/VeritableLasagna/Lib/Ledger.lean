import Mathlib

/-!
# Ledgers of what is handed over

Something that takes things from some parties and hands them to others keeps, in its history, three lists:
what was submitted, what was accepted of it, and what was delivered of that. A **ledger** says where
everything is: what was submitted is offered still, or it was accepted; what was accepted is pending still,
or it was delivered; and nothing is in two places, or in one place twice. Its three rules are the three ways
in which a thing moves on. Once nothing is offered and nothing is pending, the lists are permutations of
each other.
-/

namespace VeritableLasagna

variable {α : Type*}

/-- Where everything is that was submitted. -/
structure Ledger (submitted accepted delivered : List α) (offered pending : Set α) : Prop where
  submittedOnce : submitted.Nodup
  acceptedOnce : accepted.Nodup
  deliveredOnce : delivered.Nodup
  mem_submitted : ∀ a, a ∈ submitted ↔ a ∈ accepted ∨ a ∈ offered
  mem_accepted : ∀ a, a ∈ accepted ↔ a ∈ delivered ∨ a ∈ pending
  not_accepted : ∀ a ∈ offered, a ∉ accepted
  not_delivered : ∀ a ∈ pending, a ∉ delivered

namespace Ledger

variable {submitted accepted delivered : List α} {offered pending : Set α} {a : α}

/-- Before anything was submitted. -/
theorem nil : Ledger ([] : List α) [] [] ∅ ∅ := by
  refine ⟨List.nodup_nil, List.nodup_nil, List.nodup_nil, fun a => ?_, fun a => ?_, fun a ha => ?_,
    fun a ha => ?_⟩
  · simp
  · simp
  · cases ha
  · cases ha

theorem concat_nodup {l : List α} (h : l.Nodup) (ha : a ∉ l) : (l ++ [a]).Nodup := by
  refine List.nodup_append.mpr ⟨h, List.nodup_singleton a, fun b hb c hc => ?_⟩
  obtain rfl := List.mem_singleton.mp hc
  rintro rfl
  exact ha hb

/-- **Something is submitted.** -/
theorem submit (h : Ledger submitted accepted delivered offered pending) (ha : a ∉ submitted) :
    Ledger (submitted ++ [a]) accepted delivered (insert a offered) pending := by
  refine ⟨concat_nodup h.submittedOnce ha, h.acceptedOnce, h.deliveredOnce, fun b => ?_, h.mem_accepted,
    fun b hb => ?_, h.not_delivered⟩
  · rw [List.mem_append, List.mem_singleton, h.mem_submitted, Set.mem_insert_iff]
    tauto
  · rcases hb with rfl | hb
    · exact fun hacc => ha ((h.mem_submitted b).mpr (Or.inl hacc))
    · exact h.not_accepted b hb

/-- **Something is accepted.** -/
theorem accept (h : Ledger submitted accepted delivered offered pending) (ha : a ∈ offered) :
    Ledger submitted (accepted ++ [a]) delivered (offered \ {a}) (insert a pending) := by
  have hnot := h.not_accepted a ha
  refine ⟨h.submittedOnce, concat_nodup h.acceptedOnce hnot, h.deliveredOnce, fun b => ?_, fun b => ?_,
    fun b hb => ?_, fun b hb => ?_⟩
  · rw [List.mem_append, List.mem_singleton, h.mem_submitted, Set.mem_sdiff, Set.mem_singleton_iff]
    by_cases hba : b = a
    · simp [hba, ha]
    · tauto
  · rw [List.mem_append, List.mem_singleton, h.mem_accepted, Set.mem_insert_iff]
    tauto
  · rw [List.mem_append, List.mem_singleton]
    rintro (hacc | rfl)
    · exact h.not_accepted b hb.1 hacc
    · exact hb.2 rfl
  · rcases hb with rfl | hb
    · exact fun hdel => hnot ((h.mem_accepted b).mpr (Or.inl hdel))
    · exact h.not_delivered b hb

/-- **Something is delivered.** -/
theorem deliver (h : Ledger submitted accepted delivered offered pending) (ha : a ∈ pending) :
    Ledger submitted accepted (delivered ++ [a]) offered (pending \ {a}) := by
  refine ⟨h.submittedOnce, h.acceptedOnce, concat_nodup h.deliveredOnce (h.not_delivered a ha),
    h.mem_submitted, fun b => ?_, h.not_accepted, fun b hb => ?_⟩
  · rw [List.mem_append, List.mem_singleton, h.mem_accepted, Set.mem_sdiff, Set.mem_singleton_iff]
    by_cases hba : b = a
    · simp [hba, ha]
    · tauto
  · rw [List.mem_append, List.mem_singleton]
    rintro (hdel | rfl)
    · exact h.not_delivered b hb.1 hdel
    · exact hb.2 rfl

/-- When nothing is offered any more, all that was submitted was accepted. -/
theorem perm_submitted (h : Ledger submitted accepted delivered ∅ pending) : accepted.Perm submitted := by
  refine (List.perm_ext_iff_of_nodup h.acceptedOnce h.submittedOnce).mpr fun a => ?_
  rw [h.mem_submitted]
  exact (or_iff_left (Set.notMem_empty a)).symm

/-- **When nothing is pending any more, all that was accepted was delivered.** -/
theorem perm_accepted (h : Ledger submitted accepted delivered offered ∅) : delivered.Perm accepted := by
  refine (List.perm_ext_iff_of_nodup h.deliveredOnce h.acceptedOnce).mpr fun a => ?_
  rw [h.mem_accepted]
  exact (or_iff_left (Set.notMem_empty a)).symm

theorem accepted_subset (h : Ledger submitted accepted delivered offered pending) : accepted ⊆ submitted :=
  fun a ha => (h.mem_submitted a).mpr (Or.inl ha)

theorem delivered_subset (h : Ledger submitted accepted delivered offered pending) : delivered ⊆ accepted :=
  fun a ha => (h.mem_accepted a).mpr (Or.inl ha)

end Ledger

end VeritableLasagna
