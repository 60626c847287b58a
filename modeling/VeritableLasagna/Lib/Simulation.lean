import VeritableLasagna.Lib.Machine

/-!
# Components and what they stand for

A **component** answers calls: a call changes its state and returns a value, and the guard says which
calls it is ready for. `Component.Refines` compares a component with another one along every run:
whatever was called before, every call it is ready for returns, with the answer of the other. What a
component is for can often be said by a function on an abstract value (`Component.pure`); that two
components do not disturb each other, by running them side by side (`Component.both`).

The rule for such a result is a **simulation** (`Component.refines_of_simulation`): a relation between
the two states under which the answers agree and which every call keeps.
-/

namespace VeritableLasagna

variable {σ τ β ο κ ρ : Type}

/-- A component: its calls, and which of them it is ready for. -/
structure Component (σ ο ρ : Type) where
  guard : σ → ο → Prop
  call : σ → ο → Except Fault (ρ × σ)

namespace Component

/-- The component that answers by a function on an abstract value. -/
def pure (spec : β → ο → ρ × β) : Component β ο ρ where
  guard _ _ := True
  call b o := .ok (spec b o)

/-- Two components side by side: a call on one of them leaves the other as it is. -/
def both (C : Component σ ο ρ) (D : Component τ κ ρ) : Component (σ × τ) (ο ⊕ κ) ρ where
  guard s
    | .inl o => C.guard s.1 o
    | .inr o => D.guard s.2 o
  call s
    | .inl o => do
      let (r, s₁) ← C.call s.1 o
      return (r, (s₁, s.2))
    | .inr o => do
      let (r, s₂) ← D.call s.2 o
      return (r, (s.1, s₂))

/-- Two components that get the same calls, as a machine. -/
def against (C : Component σ ο ρ) (D : Component τ ο ρ) : Machine (σ × τ) ο where
  guard s o := C.guard s.1 o
  step s o := do
    let (_, s₁) ← C.call s.1 o
    let (_, s₂) ← D.call s.2 o
    return (s₁, s₂)

/-- In every state of every run, every call the first component is ready for returns, with the answer
of the second. -/
def Refines (C : Component σ ο ρ) (D : Component τ ο ρ) (s : σ) (t : τ) : Prop :=
  ∀ (ops : List ο) (s' : σ) (t' : τ), (C.against D).Run (s, t) ops (s', t') →
    ∀ o, C.guard s' o → ∃ r s'' t'', C.call s' o = .ok (r, s'') ∧ D.call t' o = .ok (r, t'')

/-- A relation under which the answers agree, and which every call keeps. -/
def Simulation (C : Component σ ο ρ) (D : Component τ ο ρ) (R : σ → τ → Prop) : Prop :=
  ∀ s t o, R s t → C.guard s o →
    ∃ r s' t', C.call s o = .ok (r, s') ∧ D.call t o = .ok (r, t') ∧ R s' t'

variable {C : Component σ ο ρ} {D : Component τ ο ρ} {R : σ → τ → Prop} {s : σ} {t : τ}

/-- **Run rule**: a simulation holds in every state of a run. -/
theorem Simulation.run (hsim : C.Simulation D R) {ops : List ο} {p p' : σ × τ}
    (hrun : (C.against D).Run p ops p') (h : R p.1 p.2) : R p'.1 p'.2 := by
  refine hrun.invariant (I := fun p => R p.1 p.2) (fun p o p' h hg hstep => ?_) h
  obtain ⟨r, s', t', hs, ht, hR⟩ := hsim p.1 p.2 o h hg
  have hpair : (C.against D).step p o = .ok (s', t') := by
    change (do
      let (_, s₁) ← C.call p.1 o
      let (_, s₂) ← D.call p.2 o
      return (s₁, s₂)) = _
    rw [hs, ok_bind]
    dsimp only
    rw [ht]
    rfl
  obtain rfl := Except.ok.inj (hpair.symm.trans hstep)
  exact hR

/-- **Simulation rule**. -/
theorem refines_of_simulation (hsim : C.Simulation D R) (h : R s t) : C.Refines D s t := by
  intro ops s' t' hrun o hg
  obtain ⟨r, s'', t'', hs, ht, -⟩ := hsim s' t' o (hsim.run hrun h) hg
  exact ⟨r, s'', t'', hs, ht⟩

/-- A call after a run is the next step of the run. -/
theorem Refines.step (h : C.Refines D s t) {ops : List ο} {s' : σ} {t' : τ}
    (hrun : (C.against D).Run (s, t) ops (s', t')) {o : ο} (hg : C.guard s' o) :
    ∃ r s'' t'', C.call s' o = .ok (r, s'') ∧ D.call t' o = .ok (r, t'') ∧
      (C.against D).Run (s, t) (ops ++ [o]) (s'', t'') := by
  obtain ⟨r, s'', t'', hs, ht⟩ := h ops s' t' hrun o hg
  refine ⟨r, s'', t'', hs, ht, hrun.append (.cons hg ?_ (.nil _))⟩
  change (do
    let (_, s₁) ← C.call s' o
    let (_, s₂) ← D.call t' o
    return (s₁, s₂)) = _
  rw [hs, ok_bind]
  dsimp only
  rw [ht]
  rfl

/-- A component that cannot answer the first call does not refine anything. -/
theorem not_refines_of_error {o : ο} {f : Fault} (hg : C.guard s o) (hop : C.call s o = .error f) :
    ¬ C.Refines D s t := by
  intro href
  obtain ⟨r, s', t', hop', -⟩ := href [] s t (.nil _) o hg
  cases hop.symm.trans hop'

end Component

end VeritableLasagna
