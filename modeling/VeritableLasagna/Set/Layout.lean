import VeritableLasagna.Set.Basic
import VeritableLasagna.Pool.Runs

/-!
# The layout of a set

`set.Layout t` says that the nodes of a set, read through its pool, are linked as the tree `t`
whose root is the set's root. Each piece of surgery of `vl_set` is specified against it: from a
layout of one tree the code returns with a layout of another, and touches nothing but links,
colours and elements (`VlSet.Twin`).
-/

namespace VeritableLasagna

open ColorTree

variable {α : Type} {set set' : VlSet α} {i : VlPoolIdx} {o : Option VlPoolIdx}
  {n : VlSetNode α} {f : VlSetNode α → VlSetNode α}

/-- The pool gives no slot to two indices. -/
def VlSet.Apart (set : VlSet α) : Prop :=
  ∀ i j p, vlPoolSample set.nodePool i = some p → vlPoolSample set.nodePool j = some p → i = j

/-- Two sets that differ in the contents of nodes and in the root only. -/
structure VlSet.Twin (set' set : VlSet α) : Prop where
  nodePool : set'.nodePool = set.nodePool
  elementSize : set'.elementSize = set.elementSize
  totalElements : set'.totalElements = set.totalElements
  comparator : set'.comparator = set.comparator

namespace VlSet.Twin

theorem refl (set : VlSet α) : set.Twin set := ⟨rfl, rfl, rfl, rfl⟩

theorem trans {s₁ s₂ s₃ : VlSet α} (h : s₃.Twin s₂) (h' : s₂.Twin s₁) : s₃.Twin s₁ :=
  ⟨h.nodePool.trans h'.nodePool, h.elementSize.trans h'.elementSize,
    h.totalElements.trans h'.totalElements, h.comparator.trans h'.comparator⟩

theorem apart (h : set'.Twin set) (hap : set.Apart) : set'.Apart := by
  intro i j p hi hj
  rw [h.nodePool] at hi hj
  exact hap i j p hi hj

end VlSet.Twin

/-- One node rewritten by `f`. -/
structure VlSet.Modified (set' set : VlSet α) (o : Option VlPoolIdx)
    (f : VlSetNode α → VlSetNode α) : Prop where
  heap : set'.heap = set.heap.modify o f
  root : set'.root = set.root
  twin : set'.Twin set

/-- A write keeps every node there. -/
theorem VlSet.Modified.exists_node (h : set'.Modified set o f) (hi : ∃ n, set.heap i = some n) :
    ∃ n, set'.heap i = some n := by
  rw [h.heap]
  exact LinkHeap.exists_modify hi

/-! ### Access to nodes -/

@[simp] theorem vlSetGetNodeAt_none : vlSetGetNodeAt set none = none := rfl

@[simp] theorem vlSetGetNodeAt_some : vlSetGetNodeAt set (some i) = set.heap i := rfl

theorem VlSet.node_some (h : set.heap i = some n) : set.node (some i) = .ok n := by
  rw [VlSet.node, vlSetGetNodeAt_some, h, deref_some]

theorem VlSet.colorAt_some (h : set.heap i = some n) : set.colorAt (some i) = n.color := by
  rw [VlSet.colorAt, vlSetGetNodeAt_some, h]
  rfl

/-- Writing to the slot of an iterator changes the node of that iterator only. -/
theorem VlSet.heap_update {p : Slot} (hap : set.Apart)
    (hp : vlPoolSample set.nodePool i = some p) (m : VlSetNode α) :
    VlSet.heap { set with mem := Function.update set.mem p (some m) } =
      Function.update set.heap i (some m) := by
  funext j
  change (vlPoolSample set.nodePool j).bind (Function.update set.mem p (some m)) = _
  by_cases hj : j = i
  · rw [hj, Function.update_self, hp, Option.bind_some, Function.update_self]
  · rw [Function.update_of_ne hj]
    cases hq : vlPoolSample set.nodePool j with
    | none => rw [VlSet.heap, hq, Option.bind_none, Option.bind_none]
    | some q =>
      have hqp : q ≠ p := by
        rintro rfl
        exact hj (hap j i q hq hp)
      rw [VlSet.heap, hq, Option.bind_some, Option.bind_some, Function.update_of_ne hqp]

theorem VlSet.modify_spec (hap : set.Apart) (hi : set.heap i = some n)
    (f : VlSetNode α → VlSetNode α) :
    Returns (set.modify (some i) f) (·.Modified set (some i) f) := by
  obtain ⟨p, hp, hmem⟩ := Option.bind_eq_some_iff.mp hi
  refine ⟨{ set with mem := Function.update set.mem p (some (f n)) },
    by rw [VlSet.modify, deref_some, ok_bind, hp, deref_some, ok_bind, hmem]; rfl,
    ?_, rfl, ⟨rfl, rfl, rfl, rfl⟩⟩
  rw [VlSet.heap_update hap hp]
  funext j
  by_cases hj : j = i
  · rw [hj, Function.update_self, LinkHeap.modify_self, hi, Option.map_some]
  · rw [Function.update_of_ne hj, LinkHeap.modify_of_ne (by simpa using Ne.symm hj)]

/-- A write the source makes only if the iterator is valid. -/
theorem VlSet.modifyValid_spec (hap : set.Apart) (ho : ∀ i, o = some i → ∃ n, set.heap i = some n)
    (f : VlSetNode α → VlSetNode α) :
    Returns (set.modifyValid o f) (·.Modified set o f) := by
  cases o with
  | none => exact returns_ok ⟨LinkHeap.modify_none.symm, rfl, .refl _⟩
  | some i =>
    obtain ⟨n, hn⟩ := ho i rfl
    exact VlSet.modify_spec hap hn f

/-- A write the source makes only if there is a node. -/
theorem VlSet.modifyNode_spec (hap : set.Apart)
    (ho : ∀ i, o = some i → ∃ n, set.heap i = some n) (f : VlSetNode α → VlSetNode α) :
    Returns (set.modifyNode o f) (·.Modified set o f) := by
  have hiff : (vlSetGetNodeAt set o).isSome = o.isSome := by
    cases o with
    | none => rfl
    | some i =>
      obtain ⟨n, hn⟩ := ho i rfl
      rw [vlSetGetNodeAt_some, hn]
      rfl
  rw [VlSet.modifyNode, hiff]
  exact VlSet.modifyValid_spec hap ho f

/-- The write that links `new` below `p` in the place of `old`, or at the root. -/
theorem VlSet.relink_spec {p old new : Option VlPoolIdx} {d : Side} (hap : set.Apart)
    (hp : ∀ i, p = some i → ∃ n, set.heap i = some n) :
    Returns (set.relink d p old new) fun set' =>
        set'.heap = set.heap.modify p (·.replaceChild d old new) ∧
        set'.root = (if p.isNone then new else set.root) ∧ set'.Twin set := by
  cases p with
  | none => exact returns_ok ⟨LinkHeap.modify_none.symm, rfl, ⟨rfl, rfl, rfl, rfl⟩⟩
  | some i =>
    obtain ⟨n, hn⟩ := hp i rfl
    exact (VlSet.modify_spec hap hn _).mono fun s h => ⟨h.heap, h.root, h.twin⟩

/-! ### Layouts -/

/-- The nodes of a set are linked as a tree. -/
structure VlSet.Layout (set : VlSet α) (t : ColorTree (VlPoolIdx × α)) : Prop where
  apart : set.Apart
  linked : Linked set.heap none t
  root_eq : set.root = t.root
  nodup : t.iters.Nodup

/-- Below a frame, the root does not depend on the focus. -/
theorem root_plug_cons {ι : Type*} (f : Frame (ι × α)) (fs : List (Frame (ι × α)))
    (t t' : ColorTree (ι × α)) : (plug (f :: fs) t).root = (plug (f :: fs) t').root := by
  induction fs generalizing f t t' with
  | nil => simp only [plug_cons, plug_nil, Frame.fill, root_mk]
  | cons g fs ih => exact ih g _ _

/-- The root after a focus was replaced, as the source keeps it. -/
theorem root_plug_replace {ι : Type*} (fs : List (Frame (ι × α))) (t t' : ColorTree (ι × α)) :
    (plug fs t').root =
      if (ctxParent fs).isNone then t'.root else (plug fs t).root := by
  cases fs with
  | nil => rfl
  | cons f fs => exact root_plug_cons f fs t' t

theorem root_plug_congr {ι : Type*} {fs : List (Frame (ι × α))} {t t' : ColorTree (ι × α)}
    (h : t'.root = t.root) : (plug fs t').root = (plug fs t).root := by
  rw [root_plug_replace fs t t', h, ← root_plug_replace]

section Surgery

variable {fs : List (Frame (VlPoolIdx × α))} {t t' : ColorTree (VlPoolIdx × α)} {d : Side}

/-- The node of a focus. -/
theorem VlSet.Layout.heap_focus {c : Color} {l r : ColorTree (VlPoolIdx × α)} {e : VlPoolIdx × α}
    (h : set.Layout (plug fs (.mk d c l e r))) :
    set.heap e.1 = some (.of d c (ctxParent fs) l.root r.root e.2) :=
  (linked_mk.mp (linked_plug.mp h.linked).2).1

/-- The node of an innermost frame. -/
theorem VlSet.Layout.heap_frame {f : Frame (VlPoolIdx × α)} (h : set.Layout (plug (f :: fs) t)) :
    set.heap f.iter =
      some (.of f.side f.color (ctxParent fs) t.root f.sibling.root f.entry.2) :=
  VlSet.Layout.heap_focus h

/-- A focus and its sibling have different roots. -/
theorem VlSet.Layout.root_ne_sibling {f : Frame (VlPoolIdx × α)}
    (h : set.Layout (plug (f :: fs) t)) (ht : t ≠ .nil) : t.root ≠ f.sibling.root := by
  obtain ⟨-, -, hdisj⟩ := nodup_plug.mp h.nodup
  intro heq
  cases hroot : t.root with
  | none => exact ht (root_eq_none.mp hroot)
  | some i =>
    refine hdisj i (root_mem_iters hroot) ?_
    rw [ctxIters_cons]
    exact List.mem_cons_of_mem _ (List.mem_append_left _ (root_mem_iters (heq ▸ hroot)))

/-- A focus below a frame is not the root. -/
theorem VlSet.Layout.root_ne_top {f : Frame (VlPoolIdx × α)}
    (h : set.Layout (plug (f :: fs) t)) (ht : t ≠ .nil) : t.root ≠ set.root := by
  obtain ⟨-, -, hdisj⟩ := nodup_plug.mp h.nodup
  rw [h.root_eq, root_plug_cons f fs t .nil]
  intro heq
  cases hroot : t.root with
  | none => exact ht (root_eq_none.mp hroot)
  | some i =>
    have hmem := root_mem_iters (heq ▸ hroot)
    rw [(iters_plug_perm _ _).mem_iff] at hmem
    exact hdisj i (root_mem_iters hroot) (by simpa using hmem)

theorem VlSet.Layout.exists_node (h : set.Layout t) (hi : i ∈ t.iters) :
    ∃ n, set.heap i = some n := h.linked.mem_heap hi

/-- **`vl_SetTreeRotateLeft`** and **`vl_SetTreeRotateRight`**. -/
theorem vlSetTreeRotate_spec {cx cy : Color} {x y : VlPoolIdx × α}
    {a b c : ColorTree (VlPoolIdx × α)}
    (h : set.Layout (plug fs (.mk d cx a x (.mk d cy b y c)))) :
    Returns (vlSetTreeRotate d set (some x.1)) fun set' =>
      set'.Layout (plug fs (.mk d cy (.mk d cx a x b) y c)) ∧ set'.Twin set := by
  have hx := h.heap_focus
  have hy : set.heap y.1 = some (.of d cy (some x.1) b.root c.root y.2) :=
    (linked_mk.mp (linked_mk.mp (linked_plug.mp h.linked).2).2.2).1
  have hrot := h.linked.rotate h.nodup
  have hnd := h.nodup
  simp only [nodup_plug, nodup_iters_mk, mem_iters_mk, not_or] at hnd
  obtain ⟨⟨-, ⟨hxy, hxb, -⟩, -, ⟨hyb, -⟩, -⟩, -, hdisj⟩ := hnd
  have hpx := ctxParent_ne_some (hdisj x.1 (Or.inl rfl))
  have hpy := ctxParent_ne_some (hdisj y.1 (Or.inr (Or.inr (Or.inl rfl))))
  rw [vlSetTreeRotate, vlSetGetNodeAt_some, hx]
  dsimp only
  rw [LinkNode.child_other_of, root_mk, vlSetGetNodeAt_some, hy]
  simp only [LinkNode.child_of]
  refine (VlSet.modify_spec h.apart hx _).bind fun s₁ m₁ => ?_
  have hx₁ : s₁.heap x.1 = some (.of d cx (ctxParent fs) a.root b.root x.2) := by
    rw [m₁.heap, LinkHeap.modify_self, hx, Option.map_some]
    simp
  have hy₁ : s₁.heap y.1 = some (.of d cy (some x.1) b.root c.root y.2) := by
    rw [m₁.heap, LinkHeap.modify_of_ne (by simpa using hxy), hy]
  rw [VlSet.node_some hy₁, ok_bind, LinkNode.child_of]
  have hap₁ := m₁.twin.apart h.apart
  have hkeep₁ : ∀ i, (∃ n, set.heap i = some n) → ∃ n, s₁.heap i = some n :=
    fun i hi => m₁.exists_node hi
  refine (VlSet.modifyValid_spec hap₁ (fun i hi => hkeep₁ i (h.exists_node ?_)) _).bind
    fun s₂ m₂ => ?_
  · rw [(iters_plug_perm _ _).mem_iff, List.mem_append, mem_iters_mk, mem_iters_mk]
    exact Or.inl (Or.inr (Or.inr (Or.inr (Or.inl (root_mem_iters hi)))))
  have hx₂ : s₂.heap x.1 = some (.of d cx (ctxParent fs) a.root b.root x.2) := by
    rw [m₂.heap, LinkHeap.modify_of_ne (root_ne_some hxb), hx₁]
  have hy₂ : s₂.heap y.1 = some (.of d cy (some x.1) b.root c.root y.2) := by
    rw [m₂.heap, LinkHeap.modify_of_ne (root_ne_some hyb), hy₁]
  rw [VlSet.node_some hx₂, ok_bind, LinkNode.parent_of]
  have hap₂ := m₂.twin.apart hap₁
  refine (VlSet.modify_spec hap₂ hy₂ _).bind fun s₃ m₃ => ?_
  have hx₃ : s₃.heap x.1 = some (.of d cx (ctxParent fs) a.root b.root x.2) := by
    rw [m₃.heap, LinkHeap.modify_of_ne (by simpa using Ne.symm hxy), hx₂]
  rw [VlSet.node_some hx₃, ok_bind, LinkNode.parent_of]
  have hap₃ := m₃.twin.apart hap₂
  refine (VlSet.relink_spec hap₃ (fun i hi => m₃.exists_node (m₂.exists_node (hkeep₁ i
    (h.exists_node ?_))))).bind fun s₄ ⟨hheap₄, hroot₄, htwin₄⟩ => ?_
  · rw [(iters_plug_perm _ _).mem_iff, List.mem_append]
    exact Or.inr (ctxParent_mem hi)
  have hy₄ : s₄.heap y.1 = some (.of d cy (ctxParent fs) b.root c.root y.2) := by
    rw [hheap₄, LinkHeap.modify_of_ne hpy, m₃.heap, LinkHeap.modify_self, hy₂, Option.map_some,
      LinkNode.setParent_of]
  have hx₄ : s₄.heap x.1 = some (.of d cx (ctxParent fs) a.root b.root x.2) := by
    rw [hheap₄, LinkHeap.modify_of_ne hpx, hx₃]
  have hap₄ := htwin₄.apart hap₃
  refine (VlSet.modify_spec hap₄ hy₄ _).bind fun s₅ m₅ => ?_
  have hap₅ := m₅.twin.apart hap₄
  refine (VlSet.modify_spec hap₅ (m₅.exists_node ⟨_, hx₄⟩).choose_spec _).mono fun s₆ m₆ => ?_
  have htwin : s₆.Twin set := m₆.twin.trans (m₅.twin.trans (htwin₄.trans (m₃.twin.trans
    (m₂.twin.trans m₁.twin))))
  refine ⟨⟨htwin.apart h.apart, ?_, ?_, ?_⟩, htwin⟩
  · rw [m₆.heap, m₅.heap, hheap₄, m₃.heap, m₂.heap, m₁.heap]
    exact hrot
  · rw [m₆.root, m₅.root, hroot₄, m₃.root, m₂.root, m₁.root, h.root_eq,
      root_plug_replace fs (.mk d cx a x (.mk d cy b y c)) (.mk d cy (.mk d cx a x b) y c), root_mk]
  · rw [iters, inorder_plug_congr (inorder_rotate d cx cy cx cy a x b y c)]
    exact h.nodup

/-- The colour read at a focus. -/
theorem VlSet.Layout.colorAt (h : set.Layout (plug fs t)) : set.colorAt t.root = t.rootColor := by
  cases t with
  | nil => rfl
  | node c l e r =>
    have he := VlSet.Layout.heap_focus (d := .left) h
    exact VlSet.colorAt_some he

/-- A write of a colour and an element at a focus. -/
theorem VlSet.modify_focus_spec {c c' : Color} {l r : ColorTree (VlPoolIdx × α)} {a a' : α}
    (h : set.Layout (plug fs (.mk d c l (i, a) r)))
    (hf : f (.of d c (ctxParent fs) l.root r.root a) = .of d c' (ctxParent fs) l.root r.root a') :
    Returns (set.modify (some i) f) fun set' =>
      set'.Layout (plug fs (.mk d c' l (i, a') r)) ∧ set'.Twin set ∧
        ∀ j, j ≠ i → set'.heap j = set.heap j := by
  refine (VlSet.modify_spec h.apart h.heap_focus f).mono fun s m =>
    ⟨⟨m.twin.apart h.apart, ?_, ?_, ?_⟩, m.twin, fun j hj => ?_⟩
  · rw [m.heap]
    exact h.linked.modify_focus h.nodup hf
  · rw [m.root, h.root_eq]
    exact root_plug_congr (by rw [root_mk, root_mk])
  · have hnd := h.nodup
    simp only [nodup_plug, nodup_iters_mk, mem_iters_mk] at hnd ⊢
    exact hnd
  · rw [m.heap, LinkHeap.modify_of_ne (by simpa using Ne.symm hj)]

/-- A write of a colour at a focus. -/
theorem VlSet.setColor_spec {c : Color} {l r : ColorTree (VlPoolIdx × α)} {e : VlPoolIdx × α}
    (h : set.Layout (plug fs (.mk d c l e r))) (c' : Color) :
    Returns (set.modify (some e.1) (·.setColor c')) fun set' =>
      set'.Layout (plug fs (.mk d c' l e r)) ∧ set'.Twin set :=
  (VlSet.modify_focus_spec h (LinkNode.setColor_of c')).mono fun _ ⟨h', htwin, _⟩ => ⟨h', htwin⟩

/-- A write of a colour at the root of a subtree, if there is one. -/
theorem VlSet.paint_spec (h : set.Layout (plug fs t)) (c : Color) :
    Returns (set.modifyValid t.root (·.setColor c)) fun set' =>
      set'.Layout (plug fs (t.paint c)) ∧ set'.Twin set := by
  cases t with
  | nil => exact returns_ok ⟨h, .refl set⟩
  | node c₀ l e r => exact VlSet.setColor_spec (d := .left) h c

/-- In a layout, the root of a subtree has a node whenever it is valid. -/
theorem VlSet.modifyNode_eq (h : set.Layout (plug fs t)) :
    set.modifyNode t.root f = set.modifyValid t.root f := by
  cases t with
  | nil => rfl
  | node c l e r =>
    have he := VlSet.Layout.heap_focus (d := .left) h
    change (if (set.heap e.1).isSome then _ else _) = _
    rw [he]
    rfl

/-- **The splice** of `vlSetRemove`. The node spliced out keeps its contents. -/
theorem vlSetSpliceOut_spec {c : Color} {y : VlPoolIdx × α}
    (h : set.Layout (plug fs (.mk d c t y .nil))) :
    Returns (vlSetSpliceOut set (some y.1) t.root) fun set' =>
      set'.Layout (plug fs t) ∧ set'.Twin set ∧ set'.heap y.1 = set.heap y.1 := by
  have hy := h.heap_focus
  have hsplice := h.linked.splice .left h.nodup
  have hnd := h.nodup
  simp only [nodup_plug, nodup_iters_mk, mem_iters_mk] at hnd
  obtain ⟨⟨hyt, -, htnd, -, -⟩, hfs, hdisj⟩ := hnd
  have hpy := ctxParent_ne_some (hdisj y.1 (Or.inl rfl))
  rw [vlSetSpliceOut, VlSet.node_some hy, ok_bind, LinkNode.parent_of]
  refine (VlSet.modifyNode_spec h.apart (fun i hi => h.exists_node ?_) _).bind fun s₁ m₁ => ?_
  · rw [(iters_plug_perm _ _).mem_iff, List.mem_append, mem_iters_mk]
    exact Or.inl (Or.inr (Or.inl (root_mem_iters hi)))
  have hy₁ : s₁.heap y.1 = some (.of d c (ctxParent fs) t.root none y.2) := by
    rw [m₁.heap, LinkHeap.modify_of_ne (root_ne_some hyt), hy, root_nil]
  rw [VlSet.node_some hy₁, ok_bind, LinkNode.parent_of]
  refine (VlSet.relink_spec (m₁.twin.apart h.apart) (fun i hi => m₁.exists_node
    (h.exists_node ?_))).mono fun s₂ ⟨hheap₂, hroot₂, htwin₂⟩ => ?_
  · rw [(iters_plug_perm _ _).mem_iff, List.mem_append]
    exact Or.inr (ctxParent_mem hi)
  have htwin := htwin₂.trans m₁.twin
  refine ⟨⟨htwin.apart h.apart, ?_, ?_, ?_⟩, htwin, ?_⟩
  · rw [hheap₂, m₁.heap]
    exact hsplice
  · rw [hroot₂, m₁.root, h.root_eq, ← root_plug_replace]
  · exact nodup_plug.mpr ⟨htnd, hfs, fun i hi => hdisj i (Or.inr (Or.inl hi))⟩
  · rw [hheap₂, LinkHeap.modify_of_ne hpy, hy₁, hy, root_nil]

/-- **The transplant** of `vlSetRemove`: the node spliced out takes the place of `z`. -/
theorem vlSetTakePlace_spec {c : Color} {l r : ColorTree (VlPoolIdx × α)} {y z : VlPoolIdx × α}
    (h : set.Layout (plug fs (.mk .left c l z r)))
    (hy : y.1 ∉ (plug fs (.mk .left c l z r)).iters)
    (hn : set.heap y.1 = some n) (helem : n.elem = y.2) :
    Returns (vlSetTakePlace set (some y.1) (some z.1)) fun set' =>
      set'.Layout (plug fs (.mk .left c l y r)) ∧ set'.Twin set := by
  have hyz : y.1 ≠ z.1 := by
    intro hyz
    refine hy ?_
    rw [hyz, (iters_plug_perm _ _).mem_iff, List.mem_append, mem_iters_mk]
    exact Or.inl (Or.inl rfl)
  rw [vlSetTakePlace, if_pos (by simpa using hyz), VlSet.node_some hn, ok_bind, helem]
  -- the element of `z` is overwritten first
  obtain ⟨z, az⟩ := z
  have hset : (LinkNode.of .left c (ctxParent fs) l.root r.root az).setElem y.2 =
      .of .left c (ctxParent fs) l.root r.root y.2 := rfl
  refine (VlSet.modify_focus_spec h hset).bind fun s₁ ⟨h₁, htwin₁, hframe₁⟩ => ?_
  have hz₁ := h₁.heap_focus
  have hy₁ : s₁.heap y.1 = some n := (hframe₁ y.1 hyz).trans hn
  have hy' : y.1 ∉ (plug fs (.mk .left c l (z, y.2) r)).iters := by
    rw [(iters_plug_perm _ _).mem_iff, List.mem_append, mem_iters_mk] at hy ⊢
    exact hy
  have htake := h₁.linked.takePlace .left h₁.nodup hy' hy₁
    (f := fun nodeY => { LinkNode.of .left c (ctxParent fs) l.root r.root y.2 with
      elem := nodeY.elem }) (by rw [← helem]; rfl)
  have hnd := h₁.nodup
  simp only [nodup_plug, nodup_iters_mk, mem_iters_mk] at hnd
  obtain ⟨⟨hzl, hzr, hlnd, hrnd, hlr⟩, hfs, hdisj⟩ := hnd
  have hpz := ctxParent_ne_some (hdisj z (Or.inl rfl))
  have hthere : ∀ i, i = z ∨ i ∈ l.iters ∨ i ∈ r.iters ∨ i ∈ ctxIters fs →
      ∃ n, s₁.heap i = some n := by
    intro i hi
    refine h₁.exists_node ?_
    rw [(iters_plug_perm _ _).mem_iff, List.mem_append, mem_iters_mk]
    tauto
  rw [VlSet.node_some hz₁, ok_bind]
  refine (VlSet.modify_spec h₁.apart hy₁ _).bind fun s₂ m₂ => ?_
  have hz₂ : s₂.heap z = some (.of .left c (ctxParent fs) l.root r.root y.2) := by
    rw [m₂.heap, LinkHeap.modify_of_ne (by simpa using hyz), hz₁]
  have hap₂ := m₂.twin.apart h₁.apart
  rw [VlSet.node_some hz₂, ok_bind]
  refine (VlSet.relink_spec hap₂ fun i hi => m₂.exists_node (hthere i (Or.inr (Or.inr
    (Or.inr (ctxParent_mem hi)))))).bind fun s₃ ⟨hheap₃, hroot₃, htwin₃⟩ => ?_
  have hz₃ : s₃.heap z = some (.of .left c (ctxParent fs) l.root r.root y.2) := by
    rw [hheap₃, LinkHeap.modify_of_ne hpz, hz₂]
  have hap₃ := htwin₃.apart hap₂
  rw [VlSet.node_some hz₃, ok_bind]
  have hthere₃ : ∀ i, i ∈ l.iters ∨ i ∈ r.iters → ∃ n, s₃.heap i = some n := by
    intro i hi
    rw [hheap₃]
    exact LinkHeap.exists_modify (m₂.exists_node (hthere i (by tauto)))
  refine (VlSet.modifyNode_spec hap₃ (fun i hi => hthere₃ i (Or.inl (root_mem_iters hi))) _).bind
    fun s₄ m₄ => ?_
  have hz₄ : s₄.heap z = some (.of .left c (ctxParent fs) l.root r.root y.2) := by
    rw [m₄.heap]
    exact (LinkHeap.modify_of_ne (root_ne_some hzl)).trans hz₃
  have hap₄ := m₄.twin.apart hap₃
  rw [VlSet.node_some hz₄, ok_bind]
  refine (VlSet.modifyNode_spec hap₄ (fun i hi => m₄.exists_node (hthere₃ i (Or.inr
    (root_mem_iters hi)))) _).mono fun s₅ m₅ => ?_
  have htwin := m₅.twin.trans (m₄.twin.trans (htwin₃.trans m₂.twin))
  refine ⟨⟨htwin.apart h₁.apart, ?_, ?_, ?_⟩, htwin.trans htwin₁⟩
  · rw [m₅.heap, m₄.heap, hheap₃, m₂.heap]
    exact htake
  · rw [m₅.root, m₄.root, hroot₃, m₂.root, h₁.root_eq]
    rw [root_plug_replace fs (.mk .left c l (z, y.2) r) (.mk .left c l y r), root_mk]
  · rw [(iters_plug_perm _ _).mem_iff, List.mem_append, mem_iters_mk] at hy'
    simp only [nodup_plug, nodup_iters_mk, mem_iters_mk]
    simp only [not_or] at hy'
    refine ⟨⟨hy'.1.2.1, hy'.1.2.2, hlnd, hrnd, hlr⟩, hfs, ?_⟩
    rintro i (rfl | hi)
    · exact hy'.2
    · exact hdisj i (Or.inr hi)

end Surgery

end VeritableLasagna
