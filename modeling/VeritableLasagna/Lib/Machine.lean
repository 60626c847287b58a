import Mathlib

/-!
# Guarded machines and their runs

A **machine** is a step function that may fault, with a guard that says which operations a caller
may ask for in which state. `Machine.Run` is the relation of a finite sequence of guarded
operations, and `Machine.Run.invariant` is the induction every safety result below goes through:
what the initial state has and each guarded step keeps, every reached state has.
-/

namespace VeritableLasagna

universe u

/-- The ways in which a step of a C program fails to produce its result. -/
inductive Fault
  /-- a missing object is dereferenced -/
  | nullDeref
  /-- a loop exceeds the number of rounds any well-formed state allows -/
  | noReturn
  /-- a size leaves the address space, so no allocation can serve it -/
  | outOfMemory
  /-- a byte outside an allocation is read or written -/
  | outOfBounds
  /-- a signed sum leaves its type, which C leaves undefined -/
  | signedOverflow
  /-- a number is divided by zero -/
  | divideByZero
  /-- a word is shifted by its width or further, which C leaves undefined -/
  | shiftTooFar
  deriving DecidableEq, Repr

@[simp] theorem ok_bind {α β : Type u} (a : α) (f : α → Except Fault β) :
    (Except.ok a >>= f) = f a := rfl

@[simp] theorem error_bind {α β : Type u} (e : Fault) (f : α → Except Fault β) :
    ((Except.error e : Except Fault α) >>= f) = Except.error e := rfl

/-- What a sequence returns, its second computation returns from what its first returns. -/
theorem exists_of_bind_eq_ok {α β : Type u} {m : Except Fault α} {k : α → Except Fault β} {b : β}
    (h : (m >>= k) = .ok b) : ∃ a, m = .ok a ∧ k a = .ok b := by
  cases m with
  | ok a => exact ⟨a, rfl, h⟩
  | error e => cases h

@[simp] theorem pure_eq_ok {α : Type*} (a : α) : (pure a : Except Fault α) = .ok a := rfl

theorem eq_ok_of_toOption {α : Type*} {m : Except Fault α} {a : α} (h : m.toOption = some a) :
    m = .ok a := by
  cases m with
  | error e => cases h
  | ok b => rw [Option.some_injective _ h]

/-- An object that has to be there. -/
def deref {α : Type*} : Option α → Except Fault α
  | some a => .ok a
  | none => .error .nullDeref

@[simp] theorem deref_some {α : Type*} (a : α) : deref (some a) = .ok a := rfl

@[simp] theorem deref_none {α : Type*} : deref (none : Option α) = .error .nullDeref := rfl

/-- The computation returns, and its result satisfies `Q`. -/
def Returns {α : Type*} (m : Except Fault α) (Q : α → Prop) : Prop := ∃ a, m = .ok a ∧ Q a

section Returns

variable {α β : Type u} {m : Except Fault α} {k : α → Except Fault β} {P Q : α → Prop}
  {R : β → Prop} {a : α}

theorem returns_ok (h : Q a) : Returns (.ok a) Q := ⟨a, rfl, h⟩

/-- **Sequencing rule**: the second computation only has to return from what the first
guarantees. -/
theorem Returns.bind (hm : Returns m P) (hk : ∀ a, P a → Returns (k a) R) :
    Returns (m >>= k) R := by
  obtain ⟨a, rfl, ha⟩ := hm
  exact hk a ha

/-- **Consequence rule**. -/
theorem Returns.mono (hm : Returns m P) (h : ∀ a, P a → Q a) : Returns m Q := by
  obtain ⟨a, hop, ha⟩ := hm
  exact ⟨a, hop, h a ha⟩

/-- A computation known to return a value satisfies what it guarantees of every result. -/
theorem Returns.of_ok (hm : Returns m Q) (hop : m = .ok a) : Q a := by
  obtain ⟨a', hop', ha'⟩ := hm
  obtain rfl := Except.ok.inj (hop'.symm.trans hop)
  exact ha'

end Returns

/-- The computation returns with a result that satisfies `Q`, or an allocation cannot be served.
No other fault is possible. -/
def Serves {α : Type*} (m : Except Fault α) (Q : α → Prop) : Prop :=
  m = .error .outOfMemory ∨ Returns m Q

section Serves

variable {α β : Type u} {m : Except Fault α} {k : α → Except Fault β} {P Q : α → Prop}
  {R : β → Prop} {a : α}

theorem serves_ok (h : Q a) : Serves (.ok a) Q := Or.inr (returns_ok h)

theorem Returns.serves (h : Returns m Q) : Serves m Q := Or.inr h

/-- **Sequencing rule**, with allocations on both sides. -/
theorem Serves.bind (hm : Serves m P) (hk : ∀ a, P a → Serves (k a) R) : Serves (m >>= k) R := by
  rcases hm with rfl | ⟨a, rfl, ha⟩
  · exact Or.inl rfl
  · exact hk a ha

/-- **Consequence rule**. -/
theorem Serves.mono (hm : Serves m P) (h : ∀ a, P a → Q a) : Serves m Q :=
  hm.imp id fun hret => hret.mono h

theorem Serves.of_ok (hm : Serves m Q) (hop : m = .ok a) : Q a := by
  rcases hm with herr | hret
  · rw [hop] at herr
    cases herr
  · exact hret.of_ok hop

end Serves

/-- The computation returns with a result that satisfies `Q`, or, where `c` holds, an allocation
cannot be served. -/
def ServesUnless {α : Type*} (c : Prop) (m : Except Fault α) (Q : α → Prop) : Prop :=
  c ∧ m = .error .outOfMemory ∨ Returns m Q

section ServesUnless

variable {α β : Type u} {m : Except Fault α} {k : α → Except Fault β} {P Q : α → Prop}
  {R : β → Prop} {c c' : Prop}

theorem Returns.servesUnless (h : Returns m Q) : ServesUnless c m Q := Or.inr h

/-- **Sequencing rule**, with allocations on both sides. -/
theorem ServesUnless.bind (hm : ServesUnless c m P) (hk : ∀ a, P a → ServesUnless c (k a) R) :
    ServesUnless c (m >>= k) R := by
  rcases hm with ⟨hc, rfl⟩ | ⟨a, rfl, ha⟩
  · exact Or.inl ⟨hc, rfl⟩
  · exact hk a ha

/-- **Consequence rule**. -/
theorem ServesUnless.mono (hm : ServesUnless c m P) (h : ∀ a, P a → Q a) : ServesUnless c m Q :=
  hm.imp id fun hret => hret.mono h

theorem ServesUnless.serves (hm : ServesUnless c m Q) : Serves m Q := hm.imp And.right id

/-- Where nothing may fail, the computation returns. -/
theorem ServesUnless.returns (hm : ServesUnless c m Q) (hc : ¬ c) : Returns m Q :=
  hm.resolve_left fun hfail => hc hfail.1

end ServesUnless

/-- A step function together with the operations a caller may ask for. -/
structure Machine (σ ο : Type*) where
  guard : σ → ο → Prop
  step : σ → ο → Except Fault σ

namespace Machine

variable {σ ο : Type*} {M : Machine σ ο}

/-- A run of guarded operations from one state to another. -/
inductive Run (M : Machine σ ο) : σ → List ο → σ → Prop
  | nil (s : σ) : Run M s [] s
  | cons {s s' s'' : σ} {o : ο} {os : List ο} :
      M.guard s o → M.step s o = .ok s' → Run M s' os s'' → Run M s (o :: os) s''

/-- Two runs, one after the other. -/
theorem Run.append {s s' s'' : σ} {os os' : List ο} (h : M.Run s os s') (h' : M.Run s' os' s'') :
    M.Run s (os ++ os') s'' := by
  induction h with
  | nil s => exact h'
  | cons hg hst _ ih => exact .cons hg hst (ih h')

/-- **Run rule**: what every guarded step keeps, a run keeps. -/
theorem Run.invariant {I : σ → Prop}
    (hstep : ∀ s o s', I s → M.guard s o → M.step s o = .ok s' → I s')
    {s s' : σ} {os : List ο} (h : M.Run s os s') (hs : I s) : I s' := by
  induction h with
  | nil s => exact hs
  | cons hg hst _ ih => exact ih (hstep _ _ _ hs hg hst)

/-- **Frame rule**: a value that every step of a run keeps, from states that satisfy an
invariant and by operations that satisfy `Q`, is the same at both ends. -/
theorem Run.frame {β : Type*} {I : σ → Prop} {Q : ο → Prop} (f : σ → β)
    (hstep : ∀ s o s', I s → M.guard s o → M.step s o = .ok s' → I s')
    (hframe : ∀ s o s', I s → Q o → M.guard s o → M.step s o = .ok s' → f s' = f s)
    {s s' : σ} {os : List ο} (h : M.Run s os s') (hQ : ∀ o ∈ os, Q o) (hs : I s) :
    f s' = f s := by
  induction h with
  | nil s => rfl
  | cons hg hst _ ih =>
    rw [ih (fun o ho => hQ o (List.mem_cons_of_mem _ ho)) (hstep _ _ _ hs hg hst)]
    exact hframe _ _ _ hs (hQ _ List.mem_cons_self) hg hst

/-- The machine with fewer operations. -/
def restrict (M : Machine σ ο) (P : σ → ο → Prop) : Machine σ ο where
  guard s o := M.guard s o ∧ P s o
  step := M.step

/-- A run is one of every machine that takes the same steps and asks for less. -/
theorem Run.mono {M' : Machine σ ο} {s s' : σ} {os : List ο} (h : M.Run s os s')
    (hguard : ∀ s o, M.guard s o → M'.guard s o) (hstep : M'.step = M.step) : M'.Run s os s' := by
  induction h with
  | nil s => exact .nil s
  | cons hg hst _ ih => exact .cons (hguard _ _ hg) (hstep ▸ hst) ih

/-- Run a list of operations, as long as each passes its guard and returns. -/
def exec (M : Machine σ ο) [∀ s o, Decidable (M.guard s o)] : σ → List ο → Option σ
  | s, [] => some s
  | s, o :: os =>
    if M.guard s o then
      match M.step s o with
      | .ok s' => exec M s' os
      | .error _ => none
    else none

/-- What `exec` reaches, a run reaches. -/
theorem run_of_exec [∀ s o, Decidable (M.guard s o)] {s s' : σ} {os : List ο}
    (h : M.exec s os = some s') : M.Run s os s' := by
  induction os generalizing s with
  | nil =>
    obtain rfl := Option.some_injective _ h
    exact .nil s
  | cons o os ih =>
    rw [exec] at h
    split_ifs at h with hg
    cases hstep : M.step s o with
    | ok s₁ =>
      rw [hstep] at h
      exact .cons hg hstep (ih h)
    | error e =>
      rw [hstep] at h
      cases h

/-- A test of the state an execution ends in holds in a state a run reaches. -/
theorem exists_run_of_exec [∀ s o, Decidable (M.guard s o)] {s : σ} {os : List ο} {p : σ → Bool}
    (h : (M.exec s os).any p = true) : ∃ s', M.Run s os s' ∧ p s' = true := by
  obtain ⟨s', hs', hp⟩ := (Option.any_eq_true _ _).mp h
  exact ⟨s', run_of_exec hs', hp⟩

end Machine

end VeritableLasagna
