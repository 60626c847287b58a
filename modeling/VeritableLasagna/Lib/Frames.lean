import VeritableLasagna.Lib.Forest

/-!
# Places in a forest

A place below the node of a forest is given by what is around it: the trees before and behind that node,
its label, and the same for the nodes above it (`Forest.Shell`). Filling the place with a forest gives the
whole (`Forest.fill`), and every node of a forest is reached so (`exists_fill_of_mem_spots`). A change
below one node is another filling of its place (`updateAt_fill`).
-/

namespace VeritableLasagna

universe u v

namespace Forest

/-- A node without what is below it: the trees before it, its label, and the trees behind it. -/
structure Shell (α : Type u) where
  before : Forest α
  label : α
  behind : Forest α

variable {α : Type u} {β : Type v}

/-- The tree of a node among its siblings, with `kids` below the node. -/
def Shell.fill (fr : Shell α) (kids : Forest α) : Forest α :=
  fr.before ++ (cons fr.label kids nil ++ fr.behind)

/-- The forest with `kids` in a place, which is given by the nodes above it, the nearest first. -/
def fill : List (Shell α) → Forest α → Forest α
  | [], kids => kids
  | fr :: ctx, kids => fill ctx (fr.fill kids)

variable {f g kids : Forest α} {fr : Shell α} {ctx ctx' : List (Shell α)} {a : α} {above : List α}
  {s : Spot α} {p : α → Bool} {φ : Forest α → Forest α}

theorem fill_cons : fill (fr :: ctx) kids = fill ctx (fr.fill kids) := rfl

theorem fill_append : fill (ctx ++ ctx') kids = fill ctx' (fill ctx kids) := by
  induction ctx generalizing kids with
  | nil => rfl
  | cons fr ctx ih => exact ih

theorem labels_frame : (fr.fill kids).labels.Perm ((fr.fill nil).labels ++ kids.labels) := by
  simp only [Shell.fill, labels_append, labels_cons, labels_nil, List.append_nil, List.nil_append,
    List.append_assoc, List.cons_append]
  exact (List.perm_append_comm.cons _).append_left _

/-- **The labels of the whole** are those around the place, and those in it. -/
theorem labels_fill : (fill ctx kids).labels.Perm ((fill ctx nil).labels ++ kids.labels) := by
  induction ctx generalizing kids with
  | nil => exact List.Perm.refl _
  | cons fr ctx ih =>
    have hkids : (fill ctx (fr.fill kids)).labels.Perm
        ((fill ctx nil).labels ++ ((fr.fill nil).labels ++ kids.labels)) :=
      ih.trans (labels_frame.append_left _)
    have hnil : (fill ctx (fr.fill nil)).labels.Perm ((fill ctx nil).labels ++ (fr.fill nil).labels) := ih
    rw [← List.append_assoc] at hkids
    exact hkids.trans (hnil.symm.append_right _)

theorem mem_labels_fill :
    a ∈ (fill ctx kids).labels ↔ a ∈ (fill ctx nil).labels ∨ a ∈ kids.labels := by
  rw [labels_fill.mem_iff, List.mem_append]

theorem length_labels_fill :
    (fill ctx kids).labels.length = (fill ctx nil).labels.length + kids.labels.length := by
  rw [labels_fill.length_eq, List.length_append]

/-- What is above the forest is above its nodes. -/
theorem above_suffix (hs : s ∈ f.spots above) : above <:+ s.above := by
  induction f generalizing above with
  | nil => cases hs
  | cons a kids rest ih₁ ih₂ =>
    rcases mem_spots_cons.mp hs with rfl | hs | hs
    · exact List.suffix_refl _
    · exact (List.suffix_cons a above).trans (ih₁ hs)
    · exact ih₂ hs

/-- A node, what is above it in the forest and what is below it are different nodes of the forest. -/
theorem length_le_of_mem_spots (hs : s ∈ f.spots above) :
    s.above.length + (s.label :: s.kids.labels).length ≤ above.length + f.labels.length := by
  induction f generalizing above with
  | nil => cases hs
  | cons a kids rest ih₁ ih₂ =>
    rw [labels_cons, List.length_cons, List.length_cons, List.length_append]
    rcases mem_spots_cons.mp hs with rfl | hs | hs
    · dsimp only
      omega
    · have hle := ih₁ hs
      rw [List.length_cons, List.length_cons] at hle
      omega
    · have hle := ih₂ hs
      rw [List.length_cons] at hle
      omega

/-- **The node above a place** is in the forest, with what is in the place below it. -/
theorem mem_spots_fill :
    ⟨ctx.map Shell.label ++ above, fr.label, kids⟩ ∈ (fill (fr :: ctx) kids).spots above := by
  induction ctx generalizing fr kids with
  | nil => simp [fill, Shell.fill]
  | cons fr' ctx ih =>
    have hspot : ⟨ctx.map Shell.label ++ above, fr'.label, fr.fill kids⟩ ∈
        (fill (fr' :: ctx) (fr.fill kids)).spots above := ih
    refine mem_spots_of_mem_spots hspot ?_
    simp [Shell.fill]

/-- **Every node is above a place.** -/
theorem exists_fill_of_mem_spots (hs : s ∈ f.spots above) : ∃ fr ctx, f = fill (fr :: ctx) s.kids ∧
    fr.label = s.label ∧ ctx.map Shell.label ++ above = s.above := by
  suffices h : ∀ g, ∃ fr ctx, g ++ f = fill (fr :: ctx) s.kids ∧ fr.label = s.label ∧
      ctx.map Shell.label ++ above = s.above from h nil
  induction f generalizing above with
  | nil => exact absurd hs List.not_mem_nil
  | cons a kids rest ih₁ ih₂ =>
    intro g
    rcases mem_spots_cons.mp hs with rfl | hs | hs
    · exact ⟨⟨g, a, rest⟩, [], rfl, rfl, rfl⟩
    · obtain ⟨fr, ctx, hkids, hlabel, habove⟩ := ih₁ hs nil
      have hkids : kids = fill (fr :: ctx) s.kids := hkids
      refine ⟨fr, ctx ++ [⟨g, a, rest⟩], ?_, hlabel, ?_⟩
      · rw [← List.cons_append, fill_append, ← hkids]
        rfl
      · rw [List.map_append, List.append_assoc]
        exact habove
    · rw [append_cons]
      exact ih₂ hs (g ++ cons a kids nil)

/-! ### Changes -/

theorem updateAt_append : (f ++ g).updateAt p φ = f.updateAt p φ ++ g.updateAt p φ := by
  induction f with
  | nil => rfl
  | cons a kids rest _ ih => rw [cons_append, updateAt_cons, ih, updateAt_cons, cons_append]

/-- A frame without such a node stays as it is. -/
theorem updateAt_frame (h : ∀ a ∈ (fr.fill nil).labels, p a = false) :
    (fr.fill kids).updateAt p φ = fr.fill (kids.updateAt p φ) := by
  simp only [Shell.fill, labels_append, labels_cons, labels_nil, List.append_nil,
    List.forall_mem_append, List.forall_mem_cons] at h
  rw [Shell.fill, updateAt_append, updateAt_append, updateAt_cons, updateAt_nil,
    updateAt_eq_self h.1, updateAt_eq_self h.2.2, h.2.1.1]
  rfl

/-- What is around a place stays as it is, without such a node. -/
theorem updateAt_fill_of_not (h : ∀ a ∈ (fill ctx nil).labels, p a = false) :
    (fill ctx kids).updateAt p φ = fill ctx (kids.updateAt p φ) := by
  induction ctx generalizing kids with
  | nil => rfl
  | cons fr ctx ih =>
    have hctx : ∀ a ∈ (fill ctx nil).labels, p a = false := fun a ha =>
      h a (by rw [fill_cons, mem_labels_fill]; exact Or.inl ha)
    have hfr : ∀ a ∈ (fr.fill nil).labels, p a = false := fun a ha =>
      h a (by rw [fill_cons, mem_labels_fill]; exact Or.inr ha)
    rw [fill_cons, ih hctx, updateAt_frame hfr, fill_cons]

/-- **A change below the node above a place** fills the place with another forest, when no two nodes have
the same name. -/
theorem updateAt_fill [DecidableEq β] {name : α → β}
    (hnodup : ((fill (fr :: ctx) kids).labels.map name).Nodup) :
    (fill (fr :: ctx) kids).updateAt (fun a => name a = name fr.label) (fun _ => g) =
      fill (fr :: ctx) g := by
  have hlabels : (fill ctx (fr.fill kids)).labels.Perm ((fill ctx nil).labels ++ (fr.fill kids).labels) :=
    labels_fill
  have hperm := hlabels.map name
  rw [fill_cons, hperm.nodup_iff, List.map_append, List.nodup_append'] at hnodup
  obtain ⟨-, hfr, hctx⟩ := hnodup
  rw [Shell.fill, labels_append, labels_append, labels_cons, labels_nil, List.append_nil,
    List.map_append, List.map_append, List.map_cons] at hctx hfr
  have hmem : name fr.label ∈ fr.before.labels.map name ++
      (name fr.label :: kids.labels.map name ++ fr.behind.labels.map name) := by simp
  have hother : ∀ a ∈ (fill ctx nil).labels, decide (name a = name fr.label) = false :=
    fun a ha => decide_eq_false fun heq => hctx (List.mem_map_of_mem ha) (heq ▸ hmem)
  obtain ⟨-, hcons, hbefore⟩ := List.nodup_append'.mp hfr
  have hbehind : name fr.label ∉ fr.behind.labels.map name := fun hin =>
    (List.nodup_cons.mp hcons).1 (List.mem_append_right _ hin)
  rw [fill_cons, updateAt_fill_of_not hother, Shell.fill, updateAt_append, updateAt_append,
    updateAt_cons, if_pos (decide_eq_true rfl), updateAt_of_not_mem_map hbehind,
    updateAt_of_not_mem_map fun hin => hbefore hin (by simp)]
  rfl

/-! ### Sizes -/

/-- The size of a forest with a new child does not depend on the labels of what is put into it. -/
theorem length_labels_setChild {g' : Forest α} {old : α → α} {new new' : α}
    (h : g.labels.length = g'.labels.length) :
    (f.setChild p old new g).labels.length = (f.setChild p old new' g').labels.length := by
  induction f with
  | nil => simp only [setChild, labels_cons, List.length_cons, List.length_append, h]
  | cons a kids rest _ ih =>
    rw [setChild, setChild]
    split_ifs
    · simp only [labels_cons, List.length_cons, List.length_append, h]
    · simp only [labels_cons, List.length_cons, List.length_append, ih]

/-- The size of a forest after a change depends on the sizes of what is put in only. -/
theorem length_labels_updateAt_congr {ψ : Forest α → Forest α}
    (h : ∀ g, (φ g).labels.length = (ψ g).labels.length) :
    (f.updateAt p φ).labels.length = (f.updateAt p ψ).labels.length := by
  induction f with
  | nil => rfl
  | cons a kids rest ih₁ ih₂ =>
    rw [updateAt, updateAt]
    split_ifs
    · simp only [labels_cons, List.length_cons, List.length_append, h, ih₂]
    · simp only [labels_cons, List.length_cons, List.length_append, ih₁, ih₂]

end Forest

end VeritableLasagna
