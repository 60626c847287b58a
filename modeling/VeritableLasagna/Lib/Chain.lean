import Mathlib

/-!
# Chains of addresses

A linked list in memory: `Chain next p l` says that following `next` from the address `p` passes the
addresses of `l` in turn and ends at the null address, zero. A write away from the addresses of `l`
leaves the chain as it is.
-/

namespace VeritableLasagna

/-- The addresses passed from `p` until the null address. -/
def Chain (next : ℕ → ℕ) : ℕ → List ℕ → Prop
  | p, [] => p = 0
  | p, n :: l => p = n ∧ n ≠ 0 ∧ Chain next (next n) l

variable {next next' : ℕ → ℕ} {p q n : ℕ} {l l' : List ℕ}

/-- **Frame rule**: a chain only reads the links of its own addresses. -/
theorem Chain.congr (h : Chain next p l) (hnext : ∀ n ∈ l, next' n = next n) :
    Chain next' p l := by
  induction l generalizing p with
  | nil => exact h
  | cons n l ih =>
    obtain ⟨hp, hn, hl⟩ := h
    refine ⟨hp, hn, ?_⟩
    rw [hnext n List.mem_cons_self]
    exact ih hl fun m hm => hnext m (List.mem_cons_of_mem _ hm)

/-- A chain that does not start at the null address has a first address. -/
theorem Chain.exists_cons (h : Chain next p l) (hp : p ≠ 0) :
    ∃ l', l = p :: l' ∧ Chain next (next p) l' := by
  cases l with
  | nil => exact absurd h hp
  | cons n l' =>
    obtain ⟨rfl, -, hl⟩ := h
    exact ⟨l', rfl, hl⟩

/-- A chain passes its start, unless that is the null address. -/
theorem Chain.start_mem (h : Chain next p l) (hp : p ≠ 0) : p ∈ l := by
  obtain ⟨l', rfl, -⟩ := h.exists_cons hp
  exact List.mem_cons_self

/-- The null address is not passed. -/
theorem Chain.ne_zero (h : Chain next p l) (hn : n ∈ l) : n ≠ 0 := by
  induction l generalizing p with
  | nil => cases hn
  | cons m l ih =>
    obtain ⟨-, hm, hl⟩ := h
    rcases List.mem_cons.mp hn with rfl | hn
    · exact hm
    · exact ih hl hn

/-- **A chain is read in one way.** -/
theorem Chain.unique (h : Chain next p l) (h' : Chain next p l') : l = l' := by
  induction l generalizing p l' with
  | nil =>
    obtain rfl : p = 0 := h
    cases l' with
    | nil => rfl
    | cons m l' => exact absurd h'.1.symm h'.2.1
  | cons n l ih =>
    obtain ⟨rfl, hn, hl⟩ := h
    obtain ⟨l₂, rfl, hl₂⟩ := h'.exists_cons hn
    rw [ih hl hl₂]

/-- An address that is linked to the start of a chain extends it. -/
theorem Chain.push (h : Chain next p l) (hn : n ≠ 0) (hfresh : n ∉ l) :
    Chain (Function.update next n p) n (n :: l) := by
  refine ⟨rfl, hn, ?_⟩
  rw [Function.update_self]
  refine h.congr fun m hm => Function.update_of_ne ?_ _ _
  rintro rfl
  exact hfresh hm

/-- **A chain is put behind the last address** of another one, which is linked to its start. -/
theorem Chain.append (h : Chain next p (l ++ [q])) (hold : ∀ m ∈ l, next' m = next m)
    (hlast : next' q = n) (h' : Chain next' n l') : Chain next' p (l ++ [q] ++ l') := by
  induction l generalizing p with
  | nil =>
    obtain ⟨rfl, hp, -⟩ := h
    refine ⟨rfl, hp, ?_⟩
    rwa [hlast]
  | cons m l ih =>
    obtain ⟨rfl, hm, hl⟩ := h
    refine ⟨rfl, hm, ?_⟩
    rw [hold p List.mem_cons_self]
    exact ih hl fun k hk => hold k (List.mem_cons_of_mem _ hk)

/-- **An address is put behind the last one**, which is linked to it. -/
theorem Chain.concat (h : Chain next p (l ++ [q])) (hold : ∀ m ∈ l, next' m = next m)
    (hlast : next' q = n) (hn : n ≠ 0) (hnew : next' n = 0) : Chain next' p (l ++ [q] ++ [n]) :=
  h.append hold hlast ⟨rfl, hn, hnew⟩

/-- What is behind an address of a chain is a chain. -/
theorem Chain.of_append (h : Chain next p (l ++ n :: l')) : Chain next n (n :: l') := by
  induction l generalizing p with
  | nil =>
    obtain ⟨rfl, hn, hl⟩ := h
    exact ⟨rfl, hn, hl⟩
  | cons m l ih => exact ih h.2.2

/-- The links of a chain do not lead back to its start. -/
theorem Chain.next_ne (h : Chain next p l) (hn : n ∈ l) : next n ≠ p := by
  rintro rfl
  obtain ⟨l₁, l₂, rfl⟩ := List.mem_iff_append.mp hn
  have hlen := congrArg List.length (h.unique h.of_append.2.2)
  rw [List.length_append, List.length_cons] at hlen
  omega

/-- The links of a chain stay inside of it. -/
theorem Chain.next_mem (h : Chain next p l) (hn : n ∈ l) (hne : next n ≠ 0) : next n ∈ l := by
  obtain ⟨l₁, l₂, rfl⟩ := List.mem_iff_append.mp hn
  obtain ⟨l₃, rfl, -⟩ := h.of_append.2.2.exists_cons hne
  simp

/-- Only the last address of a chain is linked to the null address. -/
theorem Chain.exists_concat (h : Chain next p l) (hn : n ∈ l) (hnull : next n = 0) :
    ∃ l', l = l' ++ [n] := by
  obtain ⟨l₁, l₂, rfl⟩ := List.mem_iff_append.mp hn
  have hl := h.of_append.2.2
  rw [hnull] at hl
  obtain rfl := hl.unique (show Chain next 0 [] from rfl)
  exact ⟨l₁, rfl⟩

/-- **A chain passes no address twice.** -/
theorem Chain.nodup (h : Chain next p l) : l.Nodup := by
  induction l generalizing p with
  | nil => exact List.nodup_nil
  | cons m l ih =>
    obtain ⟨rfl, hm, hl⟩ := h
    refine List.nodup_cons.mpr ⟨fun hmem => ?_, ih hl⟩
    have hchain : Chain next p (p :: l) := ⟨rfl, hm, hl⟩
    obtain ⟨l₁, l₂, rfl⟩ := List.mem_iff_append.mp hmem
    have hlen := congrArg List.length (hchain.unique hl.of_append)
    rw [List.length_cons, List.length_cons, List.length_append, List.length_cons] at hlen
    omega

/-- **An address is taken out**: the one before it is linked past it. -/
theorem Chain.unlink (h : Chain next p (l ++ q :: n :: l'))
    (hold : ∀ m ∈ l ++ l', next' m = next m) (hprev : next' q = next n) :
    Chain next' p (l ++ q :: l') := by
  induction l generalizing p with
  | nil =>
    obtain ⟨rfl, hp, -, -, hl⟩ := h
    refine ⟨rfl, hp, ?_⟩
    rw [hprev]
    exact hl.congr hold
  | cons m l ih =>
    obtain ⟨rfl, hm, hl⟩ := h
    refine ⟨rfl, hm, ?_⟩
    rw [hold p List.mem_cons_self]
    exact ih hl fun k hk => hold k (List.mem_cons_of_mem _ hk)

end VeritableLasagna
