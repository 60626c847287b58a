import Mathlib

/-!
# Lists cut into chunks

A text is often a sequence of pieces, one for each thing it stands for. `Chunked R xs ys` says that `xs`
can be cut into as many chunks as `ys` has members, and that `R` relates each chunk to its member. A
chunked list is read from the front (`chunked_cons`), and two of them are joined and cut again
(`chunked_append`).
-/

namespace VeritableLasagna

variable {α β : Type*} {R : List α → β → Prop} {xs xs' : List α} {y : β} {ys ys' : List β}

/-- The list is cut into chunks, each related to one member of the other. -/
def Chunked (R : List α → β → Prop) (xs : List α) (ys : List β) : Prop :=
  ∃ chunks, List.Forall₂ R chunks ys ∧ xs = chunks.flatten

theorem chunked_nil : Chunked R xs [] ↔ xs = [] := by
  constructor
  · rintro ⟨chunks, hchunks, rfl⟩
    obtain rfl := List.forall₂_nil_right_iff.mp hchunks
    rfl
  · rintro rfl
    exact ⟨[], List.Forall₂.nil, rfl⟩

/-- The first chunk, and the others. -/
theorem chunked_cons :
    Chunked R xs (y :: ys) ↔ ∃ chunk rest, R chunk y ∧ Chunked R rest ys ∧ xs = chunk ++ rest := by
  constructor
  · rintro ⟨chunks, hchunks, rfl⟩
    obtain ⟨chunk, chunks, hchunk, hrest, rfl⟩ := List.forall₂_cons_right_iff.mp hchunks
    exact ⟨chunk, chunks.flatten, hchunk, ⟨chunks, hrest, rfl⟩, List.flatten_cons⟩
  · rintro ⟨chunk, rest, hchunk, ⟨chunks, hchunks, rfl⟩, rfl⟩
    exact ⟨chunk :: chunks, List.Forall₂.cons hchunk hchunks, List.flatten_cons.symm⟩

theorem Chunked.cons (h : R xs y) (h' : Chunked R xs' ys) : Chunked R (xs ++ xs') (y :: ys) :=
  chunked_cons.mpr ⟨xs, xs', h, h', rfl⟩

theorem Chunked.single (h : R xs y) : Chunked R xs [y] := by
  have hcons := Chunked.cons h (chunked_nil.mpr rfl)
  rwa [List.append_nil] at hcons

/-- What stands for two lists is cut between them. -/
theorem chunked_append : Chunked R xs (ys ++ ys') ↔
    ∃ xs₁ xs₂, Chunked R xs₁ ys ∧ Chunked R xs₂ ys' ∧ xs = xs₁ ++ xs₂ := by
  constructor
  · rintro ⟨chunks, hchunks, rfl⟩
    refine ⟨_, _, ⟨_, List.forall₂_take_append _ _ _ hchunks, rfl⟩,
      ⟨_, List.forall₂_drop_append _ _ _ hchunks, rfl⟩, ?_⟩
    rw [← List.flatten_append, List.take_append_drop]
  · rintro ⟨_, _, ⟨chunks, hchunks, rfl⟩, ⟨chunks', hchunks', rfl⟩, rfl⟩
    exact ⟨chunks ++ chunks', List.rel_append hchunks hchunks', List.flatten_append.symm⟩

theorem Chunked.append (h : Chunked R xs ys) (h' : Chunked R xs' ys') :
    Chunked R (xs ++ xs') (ys ++ ys') :=
  chunked_append.mpr ⟨xs, xs', h, h', rfl⟩

/-- A chunked list is one for every weaker relation. -/
theorem Chunked.mono {R' : List α → β → Prop} (h : Chunked R xs ys) (himp : ∀ xs y, R xs y → R' xs y) :
    Chunked R' xs ys := by
  obtain ⟨chunks, hchunks, rfl⟩ := h
  exact ⟨chunks, hchunks.imp fun chunk y => himp chunk y, rfl⟩

end VeritableLasagna
