import VeritableLasagna.Lib.Machine

/-!
# Computations that leave a trace

A computation may leave a **trace** of what it does; the trace is there up to a fault as well (`Traced`). A
**policy** reads a trace event by event and says which are allowed where, depending on a state of its own
that the events change (`Policy`).

`Policy.Follows` is the judgement that a computation obeys a policy and returns what it should, and
`Policy.Follows.bind` its sequencing rule. That a trace is not obeyed shows in any part of it
(`Policy.not_obeys_bind`), whatever the rest of the computation does.
-/

namespace VeritableLasagna

universe u

/-- A computation with the events of its run, up to its result or its fault. -/
structure Traced (ε α : Type u) where
  events : List ε
  result : Except Fault α

namespace Traced

variable {ε α β : Type u}

/-- A computation that leaves no trace. -/
def lift (m : Except Fault α) : Traced ε α := ⟨[], m⟩

/-- A computation that is one event, even if it faults. -/
def perform (e : ε) (m : Except Fault α) : Traced ε α := ⟨[e], m⟩

/-- A computation that is an event unless it faults. -/
def record (m : Except Fault α) (e : α → ε) : Traced ε α :=
  match m with
  | .ok a => ⟨[e a], .ok a⟩
  | .error e => ⟨[], .error e⟩

instance : Monad (Traced ε) where
  pure a := ⟨[], .ok a⟩
  bind m k :=
    match m.result with
    | .ok a => ⟨m.events ++ (k a).events, (k a).result⟩
    | .error e => ⟨m.events, .error e⟩

variable {m : Traced ε α} {k : α → Traced ε β} {a : α}

theorem bind_of_ok (h : m.result = .ok a) :
    m >>= k = ⟨m.events ++ (k a).events, (k a).result⟩ := by
  change (match m.result with
    | .ok a => ⟨m.events ++ (k a).events, (k a).result⟩
    | .error e => ⟨m.events, .error e⟩ : Traced ε β) = _
  rw [h]

theorem bind_of_error {e : Fault} (h : m.result = .error e) : m >>= k = ⟨m.events, .error e⟩ := by
  change (match m.result with
    | .ok a => ⟨m.events ++ (k a).events, (k a).result⟩
    | .error e => ⟨m.events, .error e⟩ : Traced ε β) = _
  rw [h]

theorem pure_bind : (Pure.pure a >>= k) = k a := rfl

/-- What leaves no trace goes on with its result. -/
theorem lift_ok_bind : (lift (.ok a) >>= k) = k a := rfl

end Traced

/-- Which events are allowed, in a state that the events change. -/
structure Policy (γ ε : Type u) where
  Allowed : γ → ε → Prop
  next : γ → ε → γ

namespace Policy

variable {γ ε α β : Type u} {P : Policy γ ε} {g : γ} {es fs : List ε}

/-- The state that a trace leads to. -/
def after (P : Policy γ ε) (g : γ) (es : List ε) : γ := es.foldl P.next g

/-- Every event of a trace is allowed. -/
def Obeys (P : Policy γ ε) : γ → List ε → Prop
  | _, [] => True
  | g, e :: es => P.Allowed g e ∧ P.Obeys (P.next g e) es

theorem after_append : P.after g (es ++ fs) = P.after (P.after g es) fs := List.foldl_append

theorem obeys_append : P.Obeys g (es ++ fs) ↔ P.Obeys g es ∧ P.Obeys (P.after g es) fs := by
  induction es generalizing g with
  | nil => exact ⟨fun h => ⟨trivial, h⟩, And.right⟩
  | cons e es ih =>
    rw [List.cons_append, Obeys, Obeys, ih, and_assoc]
    rfl

/-- The computation obeys the policy and returns, with a result and a state that satisfy `Q`, or, where `c`
holds, an allocation cannot be served. -/
structure Follows (P : Policy γ ε) (c : Prop) (g : γ) (m : Traced ε α) (Q : α → γ → Prop) : Prop where
  obeys : P.Obeys g m.events
  result : ServesUnless c m.result fun a => Q a (P.after g m.events)

section Follows

variable {c : Prop} {m : Traced ε α} {k : α → Traced ε β} {A Q : α → γ → Prop} {R : β → γ → Prop}

theorem Follows.pure {a : α} (h : Q a g) : P.Follows c g (Pure.pure a) Q :=
  ⟨trivial, Or.inr (returns_ok h)⟩

theorem Follows.lift {m : Except Fault α} (h : ServesUnless c m fun a => Q a g) :
    P.Follows c g (Traced.lift m) Q := ⟨trivial, h⟩

theorem Follows.perform {e : ε} {m : Except Fault α} (he : P.Allowed g e)
    (h : ServesUnless c m fun a => Q a (P.next g e)) : P.Follows c g (Traced.perform e m) Q :=
  ⟨⟨he, trivial⟩, h⟩

theorem Follows.record {m : Except Fault α} {e : α → ε}
    (h : ServesUnless c m fun a => P.Allowed g (e a) ∧ Q a (P.next g (e a))) :
    P.Follows c g (Traced.record m e) Q := by
  rcases h with ⟨hc, rfl⟩ | ⟨a, rfl, hallowed, ha⟩
  · exact ⟨trivial, Or.inl ⟨hc, rfl⟩⟩
  · exact ⟨⟨hallowed, trivial⟩, Or.inr (returns_ok ha)⟩

/-- **Sequencing rule**: the second computation starts in the state that the first leads to. -/
theorem Follows.bind (hm : P.Follows c g m A) (hk : ∀ a g', A a g' → P.Follows c g' (k a) R) :
    P.Follows c g (m >>= k) R := by
  rcases hm.result with ⟨hc, herror⟩ | ⟨a, hok, ha⟩
  · rw [Traced.bind_of_error herror]
    exact ⟨hm.obeys, Or.inl ⟨hc, rfl⟩⟩
  · have hnext := hk a _ ha
    rw [Traced.bind_of_ok hok]
    refine ⟨obeys_append.mpr ⟨hm.obeys, hnext.obeys⟩, ?_⟩
    rw [after_append]
    exact hnext.result

/-- **Consequence rule**. -/
theorem Follows.mono (hm : P.Follows c g m A) (h : ∀ a g', A a g' → Q a g') : P.Follows c g m Q :=
  ⟨hm.obeys, hm.result.mono fun a ha => h a _ ha⟩

/-- A computation that breaks the policy breaks it, whatever comes after. -/
theorem not_obeys_bind_left (hm : ¬ P.Obeys g m.events) : ¬ P.Obeys g (m >>= k).events := by
  cases hresult : m.result with
  | ok a =>
    rw [Traced.bind_of_ok hresult, obeys_append]
    exact fun h => hm h.1
  | error e =>
    rw [Traced.bind_of_error hresult]
    exact hm

/-- **Breaking the policy later**, from a state that the first computation is sure to reach. -/
theorem not_obeys_bind (hm : P.Follows False g m A) (hk : ∀ a g', A a g' → ¬ P.Obeys g' (k a).events) :
    ¬ P.Obeys g (m >>= k).events := by
  obtain ⟨a, hok, ha⟩ := hm.result.returns id
  rw [Traced.bind_of_ok hok, obeys_append]
  exact fun h => hk a _ ha h.2

end Follows

end Policy

end VeritableLasagna
