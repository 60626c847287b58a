import Mathlib

/-!
# Stores

A `Store` keeps objects by their handles, as an arena or a table does towards its clients. The handle
`0` is no object's. Where a new object goes is not the client's business: a `Placement` chooses a handle
that is not in use, and may choose by what has happened before.
-/

namespace VeritableLasagna

universe u

/-- Where the memory puts the next object, and what it holds there before. The first argument
counts the objects placed so far. -/
structure Placement where
  next : ℕ → List ℕ → ℕ
  garbage : ℕ → ℕ → ℕ
  fresh : ∀ k live, next k live ∉ live
  ne_zero : ∀ k live, next k live ≠ 0

/-- The placement behind all handles in use. -/
def Placement.bump : Placement where
  next _ live := live.foldr max 0 + 1
  garbage _ _ := 0
  fresh _ live hmem := by
    have hle : ∀ l : List ℕ, ∀ i ∈ l, i ≤ l.foldr max 0 := by
      intro l
      induction l with
      | nil => exact fun i hi => absurd hi List.not_mem_nil
      | cons j l ih =>
        exact List.forall_mem_cons.mpr ⟨le_max_left _ _, fun i hi => (ih i hi).trans (le_max_right _ _)⟩
    exact absurd (hle live _ hmem) (by omega)
  ne_zero _ _ := Nat.succ_ne_zero _

/-- Objects by handle. -/
structure Store (α : Type u) where
  live : List ℕ
  get : ℕ → Option α
  mem_live : ∀ i, i ∈ live ↔ (get i).isSome
  nodup : live.Nodup
  get_zero : get 0 = none

namespace Store

variable {α : Type u} {s : Store α} {i j : ℕ} {a b : α} {p : α → Bool} {f : α → α}

/-- The store without objects. -/
def empty : Store α := ⟨[], fun _ => none, fun _ => by simp, List.nodup_nil, rfl⟩

theorem not_mem_live : i ∉ s.live ↔ s.get i = none := by
  rw [s.mem_live, Bool.not_eq_true, Option.isSome_eq_false_iff, Option.isNone_iff_eq_none]

/-- Put an object at a handle. -/
def put (s : Store α) (i : ℕ) (hi : i ≠ 0) (a : α) : Store α where
  live := if (s.get i).isSome then s.live else i :: s.live
  get := Function.update s.get i (some a)
  mem_live j := by
    rcases eq_or_ne j i with rfl | hne
    · rw [Function.update_self]
      split_ifs with h
      · exact iff_of_true ((s.mem_live j).mpr h) rfl
      · exact iff_of_true List.mem_cons_self rfl
    · rw [Function.update_of_ne hne]
      split_ifs with h
      · exact s.mem_live j
      · rw [List.mem_cons, or_iff_right hne, s.mem_live]
  nodup := by
    split_ifs with h
    · exact s.nodup
    · exact List.nodup_cons.mpr ⟨fun hmem => h ((s.mem_live i).mp hmem), s.nodup⟩
  get_zero := (Function.update_of_ne hi.symm _ _).trans s.get_zero

/-- Change the object at a handle, if there is one. -/
def modify (s : Store α) (i : ℕ) (f : α → α) : Store α where
  live := s.live
  get := Function.update s.get i ((s.get i).map f)
  mem_live j := by
    rcases eq_or_ne j i with rfl | hne
    · rw [Function.update_self, Option.isSome_map, s.mem_live]
    · rw [Function.update_of_ne hne, s.mem_live]
  nodup := s.nodup
  get_zero := by
    rcases eq_or_ne 0 i with rfl | hne
    · rw [Function.update_self, s.get_zero]
      rfl
    · rw [Function.update_of_ne hne, s.get_zero]

/-- Take the object at a handle out. -/
def erase (s : Store α) (i : ℕ) : Store α where
  live := s.live.erase i
  get := Function.update s.get i none
  mem_live j := by
    rw [s.nodup.mem_erase_iff]
    rcases eq_or_ne j i with rfl | hne
    · rw [Function.update_self]
      exact iff_of_false (fun h => h.1 rfl) Bool.false_ne_true
    · rw [Function.update_of_ne hne, ← s.mem_live, and_iff_right hne]
  nodup := s.nodup.erase i
  get_zero := by
    rcases eq_or_ne 0 i with rfl | hne
    · exact Function.update_self _ _ _
    · exact (Function.update_of_ne hne _ _).trans s.get_zero

/-- A handle whose object satisfies the test. -/
def find (s : Store α) (p : α → Bool) : Option ℕ := s.live.find? fun i => (s.get i).any p

section Put

variable {hi : i ≠ 0}

@[simp] theorem get_put_self : (s.put i hi a).get i = some a := Function.update_self _ _ _

@[simp] theorem get_put_of_ne (h : j ≠ i) : (s.put i hi a).get j = s.get j :=
  Function.update_of_ne h _ _

theorem live_put (h : s.get i = none) : (s.put i hi a).live = i :: s.live := by
  simp only [put, h, Option.isSome_none, Bool.false_eq_true, if_false]

/-- An object that is put and taken out again leaves no trace. -/
theorem erase_put (h : s.get i = none) : (s.put i hi a).erase i = s := by
  have hlive : (s.put i hi a).live.erase i = s.live := by rw [live_put h, List.erase_cons_head]
  have hget : Function.update (Function.update s.get i (some a)) i none = s.get := by
    rw [Function.update_idem, ← h, Function.update_eq_self]
  obtain ⟨live, get, hmem, hnodup, hzero⟩ := s
  rw [erase, mk.injEq]
  exact ⟨hlive, hget⟩

end Put

@[simp] theorem get_modify_self : (s.modify i f).get i = (s.get i).map f := Function.update_self _ _ _

@[simp] theorem get_modify_of_ne (h : j ≠ i) : (s.modify i f).get j = s.get j :=
  Function.update_of_ne h _ _

@[simp] theorem get_erase_self : (s.erase i).get i = none := Function.update_self _ _ _

@[simp] theorem get_erase_of_ne (h : j ≠ i) : (s.erase i).get j = s.get j :=
  Function.update_of_ne h _ _

/-- What is taken out need not be changed before. -/
theorem erase_modify : (s.modify i f).erase i = s.erase i := by
  rw [erase, erase, mk.injEq]
  exact ⟨rfl, Function.update_idem _ _ _⟩

theorem ne_zero_of_get (h : s.get i = some a) : i ≠ 0 := by
  rintro rfl
  rw [s.get_zero] at h
  cases h

/-- A search fails when no object satisfies the test. -/
theorem find_eq_none : s.find p = none ↔ ∀ i a, s.get i = some a → p a = false := by
  rw [find, List.find?_eq_none]
  constructor
  · intro h i a hi
    have hlive : i ∈ s.live := (s.mem_live i).mpr (by rw [hi]; rfl)
    simpa only [hi, Option.any_some, Bool.not_eq_true] using h i hlive
  · intro h i hi
    obtain ⟨a, ha⟩ := Option.isSome_iff_exists.mp ((s.mem_live i).mp hi)
    simpa only [ha, Option.any_some, Bool.not_eq_true] using h i a ha

/-- What a search finds satisfies the test. -/
theorem get_of_find (h : s.find p = some i) : ∃ a, s.get i = some a ∧ p a = true := by
  have htest := List.find?_some h
  cases ha : s.get i with
  | none => simp only [ha, Option.any_none, Bool.false_eq_true] at htest
  | some a => exact ⟨a, rfl, by simpa only [ha, Option.any_some] using htest⟩

/-- The only object that satisfies the test is found. -/
theorem find_eq_some (hi : s.get i = some a) (ha : p a = true)
    (honly : ∀ j b, s.get j = some b → p b = true → j = i) : s.find p = some i := by
  cases hfind : s.find p with
  | none =>
    have hfalse := find_eq_none.mp hfind i a hi
    rw [ha] at hfalse
    cases hfalse
  | some j =>
    obtain ⟨b, hb, hpb⟩ := get_of_find hfind
    rw [honly j b hb hpb]

end Store

end VeritableLasagna
