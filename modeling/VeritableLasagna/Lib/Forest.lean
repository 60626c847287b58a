import Mathlib

/-!
# Forests

A `Forest` is a list of trees with a label at every node, written as one recursion: a node, the forest
below it, and the forest behind it. An induction over a forest therefore reaches all nodes at once,
those behind a node and those below it.
-/

namespace VeritableLasagna

universe u v

/-- Trees side by side. -/
inductive Forest (α : Type u)
  | nil
  | cons (a : α) (kids rest : Forest α)
  deriving DecidableEq

namespace Forest

variable {α : Type u} {β : Type v}

/-- One forest behind another. -/
def append : Forest α → Forest α → Forest α
  | nil, g => g
  | cons a kids rest, g => cons a kids (rest.append g)

instance : Append (Forest α) := ⟨append⟩

/-- The labels of the roots. -/
def roots : Forest α → List α
  | nil => []
  | cons a _ rest => a :: rest.roots

/-- All labels, each before those below it. -/
def labels : Forest α → List α
  | nil => []
  | cons a kids rest => a :: (kids.labels ++ rest.labels)

/-- Relabel. -/
def map (φ : α → β) : Forest α → Forest β
  | nil => nil
  | cons a kids rest => cons (φ a) (kids.map φ) (rest.map φ)

/-- The number of trees. -/
def length : Forest α → ℕ
  | nil => 0
  | cons _ _ rest => rest.length + 1

/-- A property of every node and the forest below it. -/
def All (p : α → Forest α → Prop) : Forest α → Prop
  | nil => True
  | cons a kids rest => p a kids ∧ kids.All p ∧ rest.All p

variable {f g h kids rest : Forest α} {a b : α} {φ : α → β} {p q : α → Forest α → Prop}

@[simp] theorem nil_append : nil ++ g = g := rfl

@[simp] theorem cons_append : cons a kids rest ++ g = cons a kids (rest ++ g) := rfl

@[simp] theorem append_nil : f ++ nil = f := by
  induction f with
  | nil => rfl
  | cons a kids rest _ ih => rw [cons_append, ih]

theorem append_assoc : f ++ g ++ h = f ++ (g ++ h) := by
  induction f with
  | nil => rfl
  | cons a kids rest _ ih => rw [cons_append, cons_append, cons_append, ih]

/-- A node behind a forest comes first in what is behind the forest. -/
theorem append_cons : f ++ cons a kids g = f ++ cons a kids nil ++ g := by
  rw [append_assoc, cons_append, nil_append]

@[simp] theorem roots_nil : (nil : Forest α).roots = [] := rfl

@[simp] theorem roots_cons : (cons a kids rest).roots = a :: rest.roots := rfl

@[simp] theorem roots_append : (f ++ g).roots = f.roots ++ g.roots := by
  induction f with
  | nil => rfl
  | cons a kids rest _ ih => rw [cons_append, roots_cons, ih, roots_cons, List.cons_append]

@[simp] theorem labels_nil : (nil : Forest α).labels = [] := rfl

@[simp] theorem labels_cons :
    (cons a kids rest).labels = a :: (kids.labels ++ rest.labels) := rfl

@[simp] theorem labels_append : (f ++ g).labels = f.labels ++ g.labels := by
  induction f with
  | nil => rfl
  | cons a kids rest _ ih =>
    rw [cons_append, labels_cons, ih, labels_cons, List.cons_append, List.append_assoc]

@[simp] theorem map_nil : (nil : Forest α).map φ = nil := rfl

@[simp] theorem map_cons : (cons a kids rest).map φ = cons (φ a) (kids.map φ) (rest.map φ) := rfl

@[simp] theorem map_append : (f ++ g).map φ = f.map φ ++ g.map φ := by
  induction f with
  | nil => rfl
  | cons a kids rest _ ih => rw [cons_append, map_cons, ih, map_cons, cons_append]

@[simp] theorem length_nil : (nil : Forest α).length = 0 := rfl

@[simp] theorem length_cons : (cons a kids rest).length = rest.length + 1 := rfl

@[simp] theorem length_append : (f ++ g).length = f.length + g.length := by
  induction f with
  | nil => exact (Nat.zero_add _).symm
  | cons a kids rest _ ih => rw [cons_append, length_cons, ih, length_cons, Nat.succ_add]

@[simp] theorem length_map : (f.map φ).length = f.length := by
  induction f with
  | nil => rfl
  | cons a kids rest _ ih => rw [map_cons, length_cons, ih, length_cons]

@[simp] theorem length_roots : f.roots.length = f.length := by
  induction f with
  | nil => rfl
  | cons a kids rest _ ih => rw [roots_cons, List.length_cons, ih, length_cons]

theorem roots_map : (f.map φ).roots = f.roots.map φ := by
  induction f with
  | nil => rfl
  | cons a kids rest _ ih => rw [map_cons, roots_cons, ih, roots_cons, List.map_cons]

theorem labels_map : (f.map φ).labels = f.labels.map φ := by
  induction f with
  | nil => rfl
  | cons a kids rest ih₁ ih₂ =>
    rw [map_cons, labels_cons, ih₁, ih₂, labels_cons, List.map_cons, List.map_append]

theorem mem_labels_of_mem_roots (ha : a ∈ f.roots) : a ∈ f.labels := by
  induction f with
  | nil => exact ha
  | cons b kids rest _ ih =>
    rcases List.mem_cons.mp ha with rfl | hmem
    · exact List.mem_cons_self
    · exact List.mem_cons_of_mem _ (List.mem_append_right _ (ih hmem))

/-- A root splits a forest. -/
theorem exists_append_of_mem_roots (ha : a ∈ f.roots) :
    ∃ f₁ kids f₂, f = f₁ ++ cons a kids f₂ := by
  induction f with
  | nil => exact absurd ha List.not_mem_nil
  | cons b kids rest _ ih =>
    rcases List.mem_cons.mp ha with rfl | hmem
    · exact ⟨nil, kids, rest, rfl⟩
    · obtain ⟨f₁, kids', f₂, rfl⟩ := ih hmem
      exact ⟨cons b kids f₁, kids', f₂, rfl⟩

/-- A forest that is not empty has a last tree. -/
theorem eq_nil_or_append : f = nil ∨ ∃ g a kids, f = g ++ cons a kids nil := by
  induction f with
  | nil => exact Or.inl rfl
  | cons a kids rest _ ih =>
    rcases ih with rfl | ⟨g, b, kids', rfl⟩
    · exact Or.inr ⟨nil, a, kids, rfl⟩
    · exact Or.inr ⟨cons a kids g, b, kids', rfl⟩

@[simp] theorem all_nil : (nil : Forest α).All p := trivial

theorem all_cons : (cons a kids rest).All p ↔ p a kids ∧ kids.All p ∧ rest.All p := Iff.rfl

@[simp] theorem all_append : (f ++ g).All p ↔ f.All p ∧ g.All p := by
  induction f with
  | nil => rw [nil_append, and_iff_right all_nil]
  | cons a kids rest _ ih => rw [cons_append, all_cons, ih, all_cons, and_assoc, and_assoc]

theorem All.mono (hpq : ∀ a kids, p a kids → q a kids) (hf : f.All p) : f.All q := by
  induction f with
  | nil => exact all_nil
  | cons a kids rest ih₁ ih₂ => exact ⟨hpq _ _ hf.1, ih₁ hf.2.1, ih₂ hf.2.2⟩

end Forest

/-! ### The nodes of a forest -/

/-- A node of a forest: the labels above it, the nearest first, its own, and the forest below it. -/
structure Spot (α : Type u) where
  above : List α
  label : α
  kids : Forest α
  deriving DecidableEq

/-- Relabel what is above and below a node. -/
def Spot.map {α : Type u} {β : Type v} (φ : α → β) (s : Spot α) : Spot β :=
  ⟨s.above.map φ, φ s.label, s.kids.map φ⟩

namespace Forest

variable {α : Type u} {β : Type v}

/-- All nodes of a forest that is below the labels `above`. -/
def spots : List α → Forest α → List (Spot α)
  | _, nil => []
  | above, cons a kids rest => ⟨above, a, kids⟩ :: (kids.spots (a :: above) ++ rest.spots above)

/-- Change the forests below the nodes that satisfy a test. -/
def updateAt (p : α → Bool) (φ : Forest α → Forest α) : Forest α → Forest α
  | nil => nil
  | cons a kids rest =>
    cons a (if p a then φ kids else kids.updateAt p φ) (rest.updateAt p φ)

/-- Take the first root that satisfies a test away, with what is below it. -/
def eraseRoot (p : α → Bool) : Forest α → Forest α
  | nil => nil
  | cons a kids rest => if p a then rest else cons a kids (rest.eraseRoot p)

/-- A tree with `g` below its root: the root is the first one that satisfies the test, changed by
`old`, and stays in its place, or a new one behind the others. -/
def setChild (p : α → Bool) (old : α → α) (new : α) : Forest α → Forest α → Forest α
  | nil, g => cons new g nil
  | cons a kids rest, g =>
    if p a then cons (old a) g rest else cons a kids (rest.setChild p old new g)

variable {f g k kids rest : Forest α} {a b : α} {above : List α} {s t : Spot α} {p : α → Bool}
  {φ ψ : Forest α → Forest α}

@[simp] theorem spots_nil : (nil : Forest α).spots above = [] := rfl

@[simp] theorem mem_spots_cons : s ∈ (cons a kids rest).spots above ↔
    s = ⟨above, a, kids⟩ ∨ s ∈ kids.spots (a :: above) ∨ s ∈ rest.spots above := by
  rw [spots, List.mem_cons, List.mem_append]

@[simp] theorem mem_spots_append :
    s ∈ (f ++ g).spots above ↔ s ∈ f.spots above ∨ s ∈ g.spots above := by
  induction f with
  | nil => simp
  | cons a kids rest _ ih => rw [cons_append, mem_spots_cons, ih, mem_spots_cons, or_assoc, or_assoc]

/-- A node has its label. -/
theorem label_mem_of_mem_spots (h : s ∈ f.spots above) : s.label ∈ f.labels := by
  induction f generalizing above with
  | nil => exact absurd h List.not_mem_nil
  | cons a kids rest ih₁ ih₂ =>
    rw [labels_cons, List.mem_cons, List.mem_append]
    rcases mem_spots_cons.mp h with rfl | h | h
    · exact Or.inl rfl
    · exact Or.inr (Or.inl (ih₁ h))
    · exact Or.inr (Or.inr (ih₂ h))

/-- A label has its node, which is below what the forest is below. -/
theorem exists_spot_of_mem_labels (h : b ∈ f.labels) :
    ∃ s ∈ f.spots above, s.label = b ∧ above ⊆ s.above := by
  induction f generalizing above with
  | nil => exact absurd h List.not_mem_nil
  | cons a kids rest ih₁ ih₂ =>
    rw [labels_cons, List.mem_cons, List.mem_append] at h
    rcases h with rfl | h | h
    · exact ⟨_, mem_spots_cons.mpr (Or.inl rfl), rfl, List.Subset.refl _⟩
    · obtain ⟨s, hs, hlabel, habove⟩ : ∃ s ∈ kids.spots (a :: above),
          s.label = b ∧ a :: above ⊆ s.above := ih₁ h
      exact ⟨s, mem_spots_cons.mpr (Or.inr (Or.inl hs)), hlabel,
        fun x hx => habove (List.mem_cons_of_mem a hx)⟩
    · obtain ⟨s, hs, hlabel, habove⟩ : ∃ s ∈ rest.spots above,
          s.label = b ∧ above ⊆ s.above := ih₂ h
      exact ⟨s, mem_spots_cons.mpr (Or.inr (Or.inr hs)), hlabel, habove⟩

/-- What holds of every node with what is below it holds of the forest. -/
theorem all_of_spots {p : α → Forest α → Prop} (h : ∀ s ∈ f.spots above, p s.label s.kids) : f.All p := by
  induction f generalizing above with
  | nil => exact all_nil
  | cons a kids rest ih₁ ih₂ =>
    refine all_cons.mpr ⟨h ⟨above, a, kids⟩ (mem_spots_cons.mpr (Or.inl rfl)), ?_, ?_⟩
    · exact ih₁ fun s hs => h s (mem_spots_cons.mpr (Or.inr (Or.inl hs)))
    · exact ih₂ fun s hs => h s (mem_spots_cons.mpr (Or.inr (Or.inr hs)))

/-- What is below a node is below the forest. -/
theorem labels_subset_of_mem_spots (h : s ∈ f.spots above) : s.kids.labels ⊆ f.labels := by
  induction f generalizing above with
  | nil => exact absurd h List.not_mem_nil
  | cons a kids rest ih₁ ih₂ =>
    intro b hb
    rw [labels_cons, List.mem_cons, List.mem_append]
    rcases mem_spots_cons.mp h with rfl | h | h
    · exact Or.inr (Or.inl hb)
    · exact Or.inr (Or.inl (ih₁ h hb))
    · exact Or.inr (Or.inr (ih₂ h hb))

/-- A node below a node of a forest is a node of the forest. -/
theorem mem_spots_of_mem_spots (hs : s ∈ f.spots above)
    (ht : t ∈ s.kids.spots (s.label :: s.above)) : t ∈ f.spots above := by
  induction f generalizing above with
  | nil => exact absurd hs List.not_mem_nil
  | cons a kids rest ih₁ ih₂ =>
    rw [mem_spots_cons]
    rcases mem_spots_cons.mp hs with rfl | hs | hs
    · exact Or.inr (Or.inl ht)
    · exact Or.inr (Or.inl (ih₁ hs))
    · exact Or.inr (Or.inr (ih₂ hs))

/-- A node is a root, or below the nearest node above it. -/
theorem exists_parent_spot (h : t ∈ f.spots above) :
    (t.above = above ∧ ∃ f₁ f₂, f = f₁ ++ cons t.label t.kids f₂) ∨
      ∃ s ∈ f.spots above, t.above = s.label :: s.above ∧
        ∃ f₁ f₂, s.kids = f₁ ++ cons t.label t.kids f₂ := by
  induction f generalizing above with
  | nil => exact absurd h List.not_mem_nil
  | cons a kids rest ih₁ ih₂ =>
    rcases mem_spots_cons.mp h with rfl | h | h
    · exact Or.inl ⟨rfl, nil, rest, rfl⟩
    · rcases ih₁ h with ⟨habove, hkids⟩ | ⟨s, hs, hbelow⟩
      · exact Or.inr ⟨⟨above, a, kids⟩, mem_spots_cons.mpr (Or.inl rfl), habove, hkids⟩
      · exact Or.inr ⟨s, mem_spots_cons.mpr (Or.inr (Or.inl hs)), hbelow⟩
    · rcases ih₂ h with ⟨habove, f₁, f₂, rfl⟩ | ⟨s, hs, hbelow⟩
      · exact Or.inl ⟨habove, cons a kids f₁, f₂, rfl⟩
      · exact Or.inr ⟨s, mem_spots_cons.mpr (Or.inr (Or.inr hs)), hbelow⟩

/-- Relabelling keeps the nodes. -/
theorem spots_map {φ : α → β} : (f.map φ).spots (above.map φ) = (f.spots above).map (Spot.map φ) := by
  induction f generalizing above with
  | nil => rfl
  | cons a kids rest ih₁ ih₂ =>
    rw [map_cons, spots, spots, List.map_cons, List.map_append, ← ih₁, ← ih₂]
    rfl

/-- A node is known by its name, when no two nodes have the same. -/
theorem eq_of_mem_spots {name : α → β} (hnodup : (f.labels.map name).Nodup) (hs : s ∈ f.spots above)
    (ht : t ∈ f.spots above) (h : name s.label = name t.label) : s = t := by
  induction f generalizing above with
  | nil => exact absurd hs List.not_mem_nil
  | cons a kids rest ih₁ ih₂ =>
    rw [labels_cons, List.map_cons, List.map_append, List.nodup_cons, List.nodup_append',
      List.mem_append, not_or] at hnodup
    obtain ⟨⟨hkids, hrest⟩, hnodup₁, hnodup₂, hdisj⟩ := hnodup
    have hmem₁ : ∀ {s : Spot α}, s ∈ kids.spots (a :: above) → name s.label ∈ kids.labels.map name :=
      fun hs => List.mem_map_of_mem (label_mem_of_mem_spots hs)
    have hmem₂ : ∀ {s : Spot α}, s ∈ rest.spots above → name s.label ∈ rest.labels.map name :=
      fun hs => List.mem_map_of_mem (label_mem_of_mem_spots hs)
    rcases mem_spots_cons.mp hs with rfl | hs | hs <;> rcases mem_spots_cons.mp ht with rfl | ht | ht
    · rfl
    · exact absurd (hmem₁ ht) (h ▸ hkids)
    · exact absurd (hmem₂ ht) (h ▸ hrest)
    · exact absurd (hmem₁ hs) (h ▸ hkids)
    · exact ih₁ hnodup₁ hs ht
    · exact absurd (hmem₂ ht) (h ▸ hdisj (hmem₁ hs))
    · exact absurd (hmem₂ hs) (h ▸ hrest)
    · exact absurd (h ▸ hmem₂ hs) (hdisj (hmem₁ ht))
    · exact ih₂ hnodup₂ hs ht

/-! ### Changing a forest -/

@[simp] theorem updateAt_nil : (nil : Forest α).updateAt p φ = nil := rfl

theorem updateAt_cons : (cons a kids rest).updateAt p φ =
    cons a (if p a then φ kids else kids.updateAt p φ) (rest.updateAt p φ) := rfl

@[simp] theorem roots_updateAt : (f.updateAt p φ).roots = f.roots := by
  induction f with
  | nil => rfl
  | cons a kids rest _ ih => rw [updateAt_cons, roots_cons, ih, roots_cons]

/-- A forest without such a node stays as it is. -/
theorem updateAt_eq_self (h : ∀ a ∈ f.labels, p a = false) : f.updateAt p φ = f := by
  induction f with
  | nil => rfl
  | cons a kids rest ih₁ ih₂ =>
    rw [labels_cons, List.forall_mem_cons, List.forall_mem_append] at h
    rw [updateAt_cons, h.1, ih₁ h.2.1, ih₂ h.2.2]
    rfl

/-- Only what is below such nodes is changed. -/
theorem updateAt_congr (h : ∀ s ∈ f.spots above, p s.label → φ s.kids = ψ s.kids) :
    f.updateAt p φ = f.updateAt p ψ := by
  induction f generalizing above with
  | nil => rfl
  | cons a kids rest ih₁ ih₂ =>
    have hbelow : ∀ s ∈ kids.spots (a :: above), p s.label → φ s.kids = ψ s.kids :=
      fun s hs => h s (mem_spots_cons.mpr (Or.inr (Or.inl hs)))
    have hbeside : ∀ s ∈ rest.spots above, p s.label → φ s.kids = ψ s.kids :=
      fun s hs => h s (mem_spots_cons.mpr (Or.inr (Or.inr hs)))
    have hkids : kids.updateAt p φ = kids.updateAt p ψ := ih₁ hbelow
    have hrest : rest.updateAt p φ = rest.updateAt p ψ := ih₂ hbeside
    rw [updateAt_cons, updateAt_cons, hkids, hrest]
    split_ifs with hp
    · rw [h ⟨above, a, kids⟩ (mem_spots_cons.mpr (Or.inl rfl)) hp]
    · rfl

/-- Relabelling and changing go together. -/
theorem map_updateAt {χ : α → β} {q : β → Bool} {ω : Forest β → Forest β}
    (hp : ∀ a, q (χ a) = p a) (hφ : ∀ f, (φ f).map χ = ω (f.map χ)) :
    (f.updateAt p φ).map χ = (f.map χ).updateAt q ω := by
  induction f with
  | nil => rfl
  | cons a kids rest ih₁ ih₂ =>
    rw [updateAt_cons, map_cons, map_cons, updateAt_cons, hp, ih₂]
    split_ifs with h
    · rw [hφ]
    · rw [ih₁]

/-- What is in a changed forest was in it before, or is put there. -/
theorem mem_labels_updateAt (h : b ∈ (f.updateAt p fun _ => g).labels) :
    b ∈ f.labels ∨ b ∈ g.labels := by
  induction f with
  | nil => exact absurd h List.not_mem_nil
  | cons a kids rest ih₁ ih₂ =>
    rw [updateAt_cons, labels_cons, List.mem_cons, List.mem_append] at h
    rw [labels_cons, List.mem_cons, List.mem_append]
    rcases h with rfl | h | h
    · exact Or.inl (Or.inl rfl)
    · split_ifs at h with hp
      · exact Or.inr h
      · exact (ih₁ h).imp (fun h => Or.inr (Or.inl h)) id
    · exact (ih₂ h).imp (fun h => Or.inr (Or.inr h)) id

/-- What is put below a node is in the changed forest. -/
theorem labels_subset_updateAt (hs : s ∈ f.spots above) (hp : p s.label) :
    g.labels ⊆ (f.updateAt p fun _ => g).labels := by
  induction f generalizing above with
  | nil => exact absurd hs List.not_mem_nil
  | cons a kids rest ih₁ ih₂ =>
    intro b hb
    rw [updateAt_cons, labels_cons, List.mem_cons, List.mem_append]
    split_ifs with ha
    · exact Or.inr (Or.inl hb)
    · rcases mem_spots_cons.mp hs with rfl | hs | hs
      · exact absurd hp ha
      · exact Or.inr (Or.inl (ih₁ hs hb))
      · exact Or.inr (Or.inr (ih₂ hs hb))

/-- A node of the changed forest is one of the old forest, with what was above it, or is in what is
put below such a node. -/
theorem mem_spots_updateAt (h : t ∈ (f.updateAt p φ).spots above) :
    (∃ s ∈ f.spots above, s.above = t.above ∧ s.label = t.label) ∨
      ∃ s ∈ f.spots above, p s.label ∧ t ∈ (φ s.kids).spots (s.label :: s.above) := by
  induction f generalizing above with
  | nil => exact absurd h List.not_mem_nil
  | cons a kids rest ih₁ ih₂ =>
    rw [updateAt_cons, mem_spots_cons] at h
    rcases h with rfl | h | h
    · exact Or.inl ⟨⟨above, a, kids⟩, mem_spots_cons.mpr (Or.inl rfl), rfl, rfl⟩
    · split_ifs at h with hp
      · exact Or.inr ⟨⟨above, a, kids⟩, mem_spots_cons.mpr (Or.inl rfl), hp, h⟩
      · exact (ih₁ h).imp
          (fun ⟨s, hs, heq⟩ => ⟨s, mem_spots_cons.mpr (Or.inr (Or.inl hs)), heq⟩)
          (fun ⟨s, hs, heq⟩ => ⟨s, mem_spots_cons.mpr (Or.inr (Or.inl hs)), heq⟩)
    · exact (ih₂ h).imp
        (fun ⟨s, hs, heq⟩ => ⟨s, mem_spots_cons.mpr (Or.inr (Or.inr hs)), heq⟩)
        (fun ⟨s, hs, heq⟩ => ⟨s, mem_spots_cons.mpr (Or.inr (Or.inr hs)), heq⟩)

/-- A node of a forest is below a node that is changed, or it is one of the changed forest. -/
theorem mem_spots_updateAt_of_mem (h : t ∈ f.spots above) :
    (∃ s ∈ f.spots above, p s.label ∧ t ∈ s.kids.spots (s.label :: s.above)) ∨
      ⟨t.above, t.label, if p t.label then φ t.kids else t.kids.updateAt p φ⟩ ∈
        (f.updateAt p φ).spots above := by
  induction f generalizing above with
  | nil => exact absurd h List.not_mem_nil
  | cons a kids rest ih₁ ih₂ =>
    rw [updateAt_cons]
    rcases mem_spots_cons.mp h with rfl | h | h
    · exact Or.inr (mem_spots_cons.mpr (Or.inl rfl))
    · by_cases ha : p a
      · exact Or.inl ⟨⟨above, a, kids⟩, mem_spots_cons.mpr (Or.inl rfl), ha, h⟩
      · rw [if_neg ha]
        exact (ih₁ h).imp (fun ⟨s, hs, hbelow⟩ => ⟨s, mem_spots_cons.mpr (Or.inr (Or.inl hs)), hbelow⟩)
          fun hkept => mem_spots_cons.mpr (Or.inr (Or.inl hkept))
    · exact (ih₂ h).imp (fun ⟨s, hs, hbelow⟩ => ⟨s, mem_spots_cons.mpr (Or.inr (Or.inr hs)), hbelow⟩)
        fun hkept => mem_spots_cons.mpr (Or.inr (Or.inr hkept))

section Named

variable {name : α → β} [DecidableEq β] {x : β}

/-- A forest without a name does not change below it. -/
theorem updateAt_of_not_mem_map (h : x ∉ f.labels.map name) :
    f.updateAt (fun a => name a = x) φ = f :=
  updateAt_eq_self fun _ ha => decide_eq_false fun heq => h (heq ▸ List.mem_map_of_mem ha)

/-- What is put below a node is below that node in the changed forest, when no two nodes have the same
name. -/
theorem mem_spots_updateAt_self (hnodup : (f.labels.map name).Nodup) (hs : s ∈ f.spots above)
    (ht : t ∈ g.spots (s.label :: s.above)) :
    t ∈ (f.updateAt (fun a => name a = name s.label) fun _ => g).spots above := by
  induction f generalizing above with
  | nil => exact absurd hs List.not_mem_nil
  | cons a kids rest ih₁ ih₂ =>
    rw [labels_cons, List.map_cons, List.map_append, List.nodup_cons, List.nodup_append',
      List.mem_append, not_or] at hnodup
    obtain ⟨⟨hkids, hrest⟩, hnodup₁, hnodup₂, -⟩ := hnodup
    rw [updateAt_cons, mem_spots_cons]
    rcases mem_spots_cons.mp hs with rfl | hs | hs
    · rw [if_pos (decide_eq_true rfl)]
      exact Or.inr (Or.inl ht)
    · have hmem : name s.label ∈ kids.labels.map name := List.mem_map_of_mem (label_mem_of_mem_spots hs)
      have hne : ¬ decide (name a = name s.label) = true := fun heq =>
        hkids (of_decide_eq_true heq ▸ hmem)
      rw [if_neg hne]
      exact Or.inr (Or.inl (ih₁ hnodup₁ hs))
    · exact Or.inr (Or.inr (ih₂ hnodup₂ hs))

/-- Only one forest is changed, when no two nodes have the same name. -/
theorem updateAt_eq_const (hnodup : (f.labels.map name).Nodup) (hs : s ∈ f.spots above) :
    f.updateAt (fun a => name a = name s.label) φ =
      f.updateAt (fun a => name a = name s.label) fun _ => φ s.kids := by
  have hsame : ∀ t ∈ f.spots above, decide (name t.label = name s.label) = true →
      φ t.kids = φ s.kids := fun t ht hname => by
    rw [eq_of_mem_spots hnodup ht hs (of_decide_eq_true hname)]
  exact updateAt_congr hsame

/-- A changed forest is counted. -/
theorem length_labels_updateAt (hnodup : (f.labels.map name).Nodup) (hs : s ∈ f.spots above) :
    (f.updateAt (fun a => name a = name s.label) φ).labels.length + s.kids.labels.length =
      f.labels.length + (φ s.kids).labels.length := by
  rw [updateAt_eq_const hnodup hs]
  generalize φ s.kids = g
  induction f generalizing above with
  | nil => exact absurd hs List.not_mem_nil
  | cons a kids rest ih₁ ih₂ =>
    rw [labels_cons, List.map_cons, List.map_append, List.nodup_cons, List.nodup_append',
      List.mem_append, not_or] at hnodup
    obtain ⟨⟨hkids, hrest⟩, hnodup₁, hnodup₂, hdisj⟩ := hnodup
    rw [updateAt_cons, labels_cons, labels_cons, List.length_cons, List.length_cons,
      List.length_append, List.length_append]
    rcases mem_spots_cons.mp hs with rfl | hs | hs
    · rw [if_pos (decide_eq_true rfl), updateAt_of_not_mem_map hrest]
      dsimp only
      omega
    · have hmem : name s.label ∈ kids.labels.map name := List.mem_map_of_mem (label_mem_of_mem_spots hs)
      have hne : ¬ decide (name a = name s.label) = true := fun heq =>
        hkids (of_decide_eq_true heq ▸ hmem)
      have hlen := ih₁ hnodup₁ hs
      rw [if_neg hne, updateAt_of_not_mem_map (hdisj hmem)]
      omega
    · have hmem : name s.label ∈ rest.labels.map name := List.mem_map_of_mem (label_mem_of_mem_spots hs)
      have hne : ¬ decide (name a = name s.label) = true := fun heq =>
        hrest (of_decide_eq_true heq ▸ hmem)
      have hlen := ih₂ hnodup₂ hs
      rw [if_neg hne, updateAt_of_not_mem_map fun hmem' => hdisj hmem' hmem]
      omega

end Named

section SetChild

variable {old : α → α} {new : α}

/-- A new root comes last. -/
theorem setChild_append (h : ∀ a ∈ f.roots, p a = false) :
    f.setChild p old new g = f ++ cons new g nil := by
  induction f with
  | nil => rfl
  | cons a kids rest _ ih =>
    rw [roots_cons, List.forall_mem_cons] at h
    rw [setChild, if_neg (by rw [h.1]; exact Bool.false_ne_true), ih h.2, cons_append]

/-- An old root stays in its place. -/
theorem setChild_replace (h : ∀ a ∈ f.roots, p a = false) (ha : p a) :
    (f ++ cons a k rest).setChild p old new g = f ++ cons (old a) g rest := by
  induction f with
  | nil => rw [nil_append, setChild, if_pos ha, nil_append]
  | cons b kids rest' _ ih =>
    rw [roots_cons, List.forall_mem_cons] at h
    rw [cons_append, setChild, if_neg (by rw [h.1]; exact Bool.false_ne_true), ih h.2, cons_append]

end SetChild

end Forest

end VeritableLasagna
