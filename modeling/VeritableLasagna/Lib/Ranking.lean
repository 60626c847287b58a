import VeritableLasagna.Lib.Machine

/-!
# Rankings

Some of the operations of a machine lead somewhere: from the states that satisfy an invariant, each of them
keeps the invariant and takes a natural number, the **rank**, down. A run of such operations, in whatever
order, is then no longer than the rank of the state it starts in.
-/

namespace VeritableLasagna

variable {σ ο : Type*} {M : Machine σ ο}

/-- **Ranking rule**: every operation that satisfies `P` keeps the invariant and takes the rank down. -/
theorem Machine.Run.ranked {I : σ → Prop} {P : ο → Prop} {r : σ → ℕ}
    (hstep : ∀ s o s', I s → P o → M.guard s o → M.step s o = .ok s' → I s' ∧ r s' < r s) {s s' : σ}
    {os : List ο} (h : M.Run s os s') (hP : ∀ o ∈ os, P o) (hs : I s) :
    I s' ∧ os.length + r s' ≤ r s := by
  induction h with
  | nil s => exact ⟨hs, by simp⟩
  | cons hg hst _ ih =>
    obtain ⟨hs', hlt⟩ := hstep _ _ _ hs (hP _ List.mem_cons_self) hg hst
    obtain ⟨hend, hle⟩ := ih (fun o ho => hP o (List.mem_cons_of_mem _ ho)) hs'
    refine ⟨hend, ?_⟩
    rw [List.length_cons]
    omega

end VeritableLasagna
