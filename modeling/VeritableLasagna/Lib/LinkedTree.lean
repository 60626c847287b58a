import VeritableLasagna.Lib.ColorTree

/-!
# Trees in a linked heap

A **linked heap** maps iterators to nodes that hold the iterators of their parent and of their two
children. `Linked h p t` says that the heap lays out the tree `t`, whose entries pair an iterator
with an element, below the parent `p`; `LinkedCtx h fs hole` says the same for the frames around a
focus, with `hole` linked where the focus goes. `linked_plug` splits a tree at a focus.

A linked tree algorithm changes a heap by `LinkHeap.modify`, one node at a time. A modification of
a node outside a subtree leaves the subtree alone (`Linked.modify`, `LinkedCtx.modify`), so a
surgery comes down to the few nodes whose links it rewrites: recolouring a node, hanging a leaf,
splicing a node out, putting one node in the place of another, and rotation.
-/

namespace VeritableLasagna

/-- A node of a linked heap. -/
@[ext]
structure LinkNode (ι α : Type*) where
  color : Color
  parent : Option ι
  left : Option ι
  right : Option ι
  elem : α
  deriving DecidableEq, Repr

namespace LinkNode

variable {ι α : Type*}

/-- The child on a given side. -/
def child (d : Side) (n : LinkNode ι α) : Option ι :=
  match d with
  | .left => n.left
  | .right => n.right

def setColor (c : Color) (n : LinkNode ι α) : LinkNode ι α := { n with color := c }

def setParent (p : Option ι) (n : LinkNode ι α) : LinkNode ι α := { n with parent := p }

def setElem (a : α) (n : LinkNode ι α) : LinkNode ι α := { n with elem := a }

/-- Link another child on a given side. -/
def setChild (d : Side) (i : Option ι) (n : LinkNode ι α) : LinkNode ι α :=
  match d with
  | .left => { n with left := i }
  | .right => { n with right := i }

/-- Put `new` in the place of the child `old`, looking on side `d` first and taking the other side
without looking. -/
def replaceChild [DecidableEq ι] (d : Side) (old new : Option ι) (n : LinkNode ι α) :
    LinkNode ι α :=
  if n.child d = old then n.setChild d new else n.setChild d.other new

/-- A node given by its child on side `d` and its child on the other side. -/
def of (d : Side) (c : Color) (p near far : Option ι) (a : α) : LinkNode ι α :=
  match d with
  | .left => ⟨c, p, near, far, a⟩
  | .right => ⟨c, p, far, near, a⟩

section Of

variable {d : Side} {c : Color} {p near far : Option ι} {a : α}

@[simp] theorem child_of : (of d c p near far a).child d = near := by cases d <;> rfl

@[simp] theorem child_other_of : (of d c p near far a).child d.other = far := by cases d <;> rfl

@[simp] theorem color_of : (of d c p near far a).color = c := by cases d <;> rfl

@[simp] theorem parent_of : (of d c p near far a).parent = p := by cases d <;> rfl

@[simp] theorem elem_of : (of d c p near far a).elem = a := by cases d <;> rfl

@[simp] theorem setColor_of (c' : Color) :
    (of d c p near far a).setColor c' = of d c' p near far a := by cases d <;> rfl

@[simp] theorem setParent_of (q : Option ι) :
    (of d c p near far a).setParent q = of d c q near far a := by cases d <;> rfl

@[simp] theorem setChild_of (i : Option ι) :
    (of d c p near far a).setChild d i = of d c p i far a := by cases d <;> rfl

@[simp] theorem setChild_other_of (i : Option ι) :
    (of d c p near far a).setChild d.other i = of d c p near i a := by cases d <;> rfl

theorem of_other : of d.other c p near far a = of d c p far near a := by cases d <;> rfl

/-- Replacing the near child finds it whichever side is looked at first, as long as the far child
is another. -/
theorem replaceChild_of [DecidableEq ι] {d' : Side} {new : Option ι} (h : far ≠ near) :
    (of d c p near far a).replaceChild d' near new = of d c p new far a := by
  rcases Side.eq_or_eq_other d d' with rfl | rfl
  · rw [replaceChild, child_of, if_pos rfl, setChild_of]
  · rw [replaceChild, child_other_of, if_neg h, Side.other_other, setChild_of]

/-- The side of a child, found by comparing it with the left child. -/
theorem side_of [DecidableEq ι] {i : ι} (h : far ≠ some i) :
    (if some i = (of d c p (some i) far a).left then Side.left else Side.right) = d := by
  cases d with
  | left => exact if_pos rfl
  | right => exact if_neg (Ne.symm h)

end Of

end LinkNode

/-- A linked heap. -/
abbrev LinkHeap (ι α : Type*) := ι → Option (LinkNode ι α)

variable {ι α : Type*} [DecidableEq ι]

namespace LinkHeap

/-- Apply a function to the node of one iterator, if there is one. -/
def modify (h : LinkHeap ι α) (o : Option ι) (f : LinkNode ι α → LinkNode ι α) : LinkHeap ι α :=
  fun i => if o = some i then (h i).map f else h i

variable {h : LinkHeap ι α} {o : Option ι} {f : LinkNode ι α → LinkNode ι α} {i : ι}

@[simp] theorem modify_none : h.modify none f = h := by
  funext i
  simp [modify]

@[simp] theorem modify_self : h.modify (some i) f i = (h i).map f := if_pos rfl

theorem modify_of_ne (hne : o ≠ some i) : h.modify o f i = h i := if_neg hne

/-- A modification keeps every node there. -/
theorem exists_modify (hi : ∃ n, h i = some n) : ∃ n, h.modify o f i = some n := by
  obtain ⟨n, hn⟩ := hi
  rw [modify, hn]
  split_ifs
  · exact ⟨_, rfl⟩
  · exact ⟨_, rfl⟩

end LinkHeap

/-! ### Linked trees -/

namespace ColorTree

/-- The iterators of a tree, from left to right. -/
def iters (t : ColorTree (ι × α)) : List ι := t.inorder.map Prod.fst

/-- The iterator of the root. -/
def root : ColorTree (ι × α) → Option ι
  | .nil => none
  | .node _ _ e _ => some e.1

omit [DecidableEq ι]

@[simp] theorem iters_nil : (nil : ColorTree (ι × α)).iters = [] := rfl

@[simp] theorem root_nil : (nil : ColorTree (ι × α)).root = none := rfl

@[simp] theorem root_mk {d : Side} {c : Color} {n f : ColorTree (ι × α)} {e : ι × α} :
    (mk d c n e f).root = some e.1 := by cases d <;> rfl

theorem mem_iters_mk {d : Side} {c : Color} {n f : ColorTree (ι × α)} {e : ι × α} {i : ι} :
    i ∈ (mk d c n e f).iters ↔ i = e.1 ∨ i ∈ n.iters ∨ i ∈ f.iters := by
  cases d <;> simp only [mk, iters, inorder_node, List.map_append, List.map_cons,
    List.mem_append, List.mem_cons] <;> tauto

/-- The iterators of a node, up to order. -/
theorem iters_mk_perm {d : Side} {c : Color} {n f : ColorTree (ι × α)} {e : ι × α} :
    (mk d c n e f).iters.Perm (e.1 :: (n.iters ++ f.iters)) := by
  cases d with
  | left => simp [mk, iters]
  | right =>
    have hcomm : (f.iters ++ n.iters).Perm (n.iters ++ f.iters) := List.perm_append_comm
    have hswap := hcomm.cons e.1
    simpa [mk, iters] using List.perm_middle.trans hswap

theorem root_mem_iters {t : ColorTree (ι × α)} {i : ι} (h : t.root = some i) : i ∈ t.iters := by
  cases t with
  | nil => cases h
  | node c l e r =>
    obtain rfl := Option.some_injective _ h
    simp [iters]

theorem root_eq_none {t : ColorTree (ι × α)} : t.root = none ↔ t = .nil := by
  cases t <;> simp [root]

end ColorTree

open ColorTree

/-- The iterator of a frame's node. -/
def Frame.iter (f : Frame (ι × α)) : ι := f.entry.1

/-- The parent of a focus. -/
def ctxParent (fs : List (Frame (ι × α))) : Option ι := fs.head?.map Frame.iter

/-- The iterators of a context. -/
def ctxIters : List (Frame (ι × α)) → List ι
  | [] => []
  | f :: fs => f.iter :: (f.sibling.iters ++ ctxIters fs)

section

omit [DecidableEq ι]

@[simp] theorem ctxParent_nil : ctxParent ([] : List (Frame (ι × α))) = none := rfl

@[simp] theorem ctxParent_cons (f : Frame (ι × α)) (fs : List (Frame (ι × α))) :
    ctxParent (f :: fs) = some f.iter := rfl

@[simp] theorem ctxIters_nil : ctxIters ([] : List (Frame (ι × α))) = [] := rfl

@[simp] theorem ctxIters_cons (f : Frame (ι × α)) (fs : List (Frame (ι × α))) :
    ctxIters (f :: fs) = f.iter :: (f.sibling.iters ++ ctxIters fs) := rfl

theorem ctxParent_mem {fs : List (Frame (ι × α))} {i : ι} (h : ctxParent fs = some i) :
    i ∈ ctxIters fs := by
  cases fs with
  | nil => cases h
  | cons f fs =>
    obtain rfl := Option.some_injective _ h
    exact List.mem_cons_self

/-- The iterators of a tree split at a focus, up to order. -/
theorem iters_plug_perm (fs : List (Frame (ι × α))) (t : ColorTree (ι × α)) :
    (plug fs t).iters.Perm (t.iters ++ ctxIters fs) := by
  induction fs generalizing t with
  | nil => simp
  | cons f fs ih =>
    have hfill : (f.fill t).iters.Perm (f.iter :: (t.iters ++ f.sibling.iters)) := iters_mk_perm
    refine (ih (f.fill t)).trans ((hfill.append_right _).trans ?_)
    simpa using List.perm_middle.symm

theorem nodup_plug {fs : List (Frame (ι × α))} {t : ColorTree (ι × α)} :
    (plug fs t).iters.Nodup ↔
      t.iters.Nodup ∧ (ctxIters fs).Nodup ∧ ∀ i ∈ t.iters, i ∉ ctxIters fs := by
  rw [(iters_plug_perm fs t).nodup_iff, List.nodup_append']
  rfl

theorem nodup_iters_mk {d : Side} {c : Color} {n f : ColorTree (ι × α)} {e : ι × α} :
    (ColorTree.mk d c n e f).iters.Nodup ↔ e.1 ∉ n.iters ∧ e.1 ∉ f.iters ∧ n.iters.Nodup ∧
      f.iters.Nodup ∧ ∀ i ∈ n.iters, i ∉ f.iters := by
  rw [iters_mk_perm.nodup_iff, List.nodup_cons, List.mem_append, not_or, List.nodup_append',
    and_assoc]
  rfl

end

/-- The heap lays out a tree below the parent `p`. -/
def Linked (h : LinkHeap ι α) : Option ι → ColorTree (ι × α) → Prop
  | _, .nil => True
  | p, .node c l e r => h e.1 = some ⟨c, p, l.root, r.root, e.2⟩ ∧
      Linked h (some e.1) l ∧ Linked h (some e.1) r

/-- The heap lays out the frames around a focus, with `hole` in the place of the focus. -/
def LinkedCtx (h : LinkHeap ι α) : List (Frame (ι × α)) → Option ι → Prop
  | [], _ => True
  | f :: fs, hole =>
    h f.iter = some (.of f.side f.color (ctxParent fs) hole f.sibling.root f.entry.2) ∧
      Linked h (some f.iter) f.sibling ∧ LinkedCtx h fs (some f.iter)

section

omit [DecidableEq ι]

variable {h h' : LinkHeap ι α} {p hole : Option ι} {t : ColorTree (ι × α)}
  {fs : List (Frame (ι × α))}

@[simp] theorem linked_nil : Linked h p .nil := trivial

@[simp] theorem linkedCtx_nil : LinkedCtx h [] hole := trivial

theorem linked_mk {d : Side} {c : Color} {n f : ColorTree (ι × α)} {e : ι × α} :
    Linked h p (.mk d c n e f) ↔ h e.1 = some (.of d c p n.root f.root e.2) ∧
      Linked h (some e.1) n ∧ Linked h (some e.1) f := by
  cases d with
  | left => exact Iff.rfl
  | right => exact and_congr_right fun _ => and_comm

/-- A tree is laid out when its focus and the frames around it are. -/
theorem linked_plug : Linked h none (plug fs t) ↔
    LinkedCtx h fs t.root ∧ Linked h (ctxParent fs) t := by
  induction fs generalizing t with
  | nil => simp
  | cons f fs ih =>
    rw [plug_cons, ih, Frame.fill, linked_mk, root_mk, LinkedCtx, ctxParent_cons]
    simp only [Frame.iter]
    tauto

/-- The heap determines the tree below a root. -/
theorem Linked.unique {t' : ColorTree (ι × α)} (hl : Linked h p t) (hl' : Linked h p t')
    (hroot : t.root = t'.root) : t = t' := by
  induction t generalizing p t' with
  | nil =>
    cases t' with
    | nil => rfl
    | node => cases hroot
  | node c l e r ihl ihr =>
    cases t' with
    | nil => cases hroot
    | node c' l' e' r' =>
      obtain ⟨i, a⟩ := e
      obtain ⟨i', a'⟩ := e'
      obtain rfl : i = i' := Option.some.inj hroot
      have hnode := Option.some.inj (hl.1.symm.trans hl'.1)
      simp only [LinkNode.mk.injEq, true_and] at hnode
      obtain ⟨rfl, hleft, hright, rfl⟩ := hnode
      rw [ihl hl.2.1 hl'.2.1 hleft, ihr hl.2.2 hl'.2.2 hright]

instance instDecidableLinked [DecidableEq α] :
    (p : Option ι) → (t : ColorTree (ι × α)) → Decidable (Linked h p t)
  | _, .nil => inferInstanceAs (Decidable True)
  | p, .node c l e r =>
    have : Decidable (Linked h (some e.1) l) := instDecidableLinked (some e.1) l
    have : Decidable (Linked h (some e.1) r) := instDecidableLinked (some e.1) r
    inferInstanceAs (Decidable (h e.1 = some ⟨c, p, l.root, r.root, e.2⟩ ∧
      Linked h (some e.1) l ∧ Linked h (some e.1) r))

/-- A tree only depends on the nodes of its iterators. -/
theorem Linked.congr (hl : Linked h p t) (heq : ∀ i ∈ t.iters, h' i = h i) : Linked h' p t := by
  induction t generalizing p with
  | nil => trivial
  | node c l e r ihl ihr =>
    simp only [iters, inorder_node, List.map_append, List.map_cons, List.mem_append,
      List.mem_cons] at heq
    obtain ⟨hroot, hleft, hright⟩ := hl
    refine ⟨(heq e.1 (Or.inr (Or.inl rfl))).trans hroot, ihl hleft fun i hi => heq i (Or.inl hi),
      ihr hright fun i hi => heq i (Or.inr (Or.inr hi))⟩

theorem LinkedCtx.congr (hl : LinkedCtx h fs hole) (heq : ∀ i ∈ ctxIters fs, h' i = h i) :
    LinkedCtx h' fs hole := by
  induction fs generalizing hole with
  | nil => trivial
  | cons f fs ih =>
    simp only [ctxIters_cons, List.mem_cons, List.mem_append] at heq
    obtain ⟨hnode, hsib, hrest⟩ := hl
    refine ⟨(heq f.iter (Or.inl rfl)).trans hnode,
      hsib.congr fun i hi => heq i (Or.inr (Or.inl hi)),
      ih hrest fun i hi => heq i (Or.inr (Or.inr hi))⟩

theorem Linked.mem_heap (hl : Linked h p t) {i : ι} (hi : i ∈ t.iters) : ∃ n, h i = some n := by
  induction t generalizing p with
  | nil => cases hi
  | node c l e r ihl ihr =>
    simp only [iters, inorder_node, List.map_append, List.map_cons, List.mem_append,
      List.mem_cons] at hi
    rcases hi with hi | rfl | hi
    · exact ihl hl.2.1 hi
    · exact ⟨_, hl.1⟩
    · exact ihr hl.2.2 hi

end

/-! ### Surgery -/

variable {h : LinkHeap ι α} {p q o : Option ι} {t : ColorTree (ι × α)}
  {fs : List (Frame (ι × α))} {f : LinkNode ι α → LinkNode ι α}

section

omit [DecidableEq ι]

/-- An iterator that is invalid or not in a list. -/
def Misses (o : Option ι) (l : List ι) : Prop := ∀ i ∈ l, o ≠ some i

theorem misses_some {i : ι} {l : List ι} (hi : i ∉ l) : Misses (some i) l := by
  rintro j hj ⟨⟩
  exact hi hj

theorem misses_root {l : List ι} (hl : ∀ i ∈ t.iters, i ∉ l) : Misses t.root l :=
  fun i hi hroot => hl i (root_mem_iters hroot) hi

theorem misses_ctxParent {l : List ι} (hl : ∀ i ∈ l, i ∉ ctxIters fs) :
    Misses (ctxParent fs) l :=
  fun i hi hparent => hl i hi (ctxParent_mem hparent)

end

/-- The modification of a node outside a tree leaves the tree alone. -/
theorem Linked.modify (hl : Linked h p t) (ho : Misses o t.iters) : Linked (h.modify o f) p t :=
  hl.congr fun i hi => LinkHeap.modify_of_ne (ho i hi)

theorem LinkedCtx.modify {hole : Option ι} (hl : LinkedCtx h fs hole)
    (ho : Misses o (ctxIters fs)) : LinkedCtx (h.modify o f) fs hole :=
  hl.congr fun i hi => LinkHeap.modify_of_ne (ho i hi)

/-- Hanging a tree below another parent. -/
theorem Linked.reparent (hl : Linked h p t) (hnd : t.iters.Nodup) :
    Linked (h.modify t.root (·.setParent q)) q t := by
  cases t with
  | nil => trivial
  | node c l e r =>
    have hmk : (ColorTree.mk .left c l e r).iters.Nodup := hnd
    obtain ⟨hel, her, -, -, -⟩ := nodup_iters_mk.mp hmk
    refine ⟨?_, hl.2.1.modify (misses_some hel), hl.2.2.modify (misses_some her)⟩
    rw [root, LinkHeap.modify_self, hl.1, Option.map_some, LinkNode.setParent]

/-- Linking another focus into the place of the old one. -/
theorem LinkedCtx.relink {x : ι} {new : Option ι} {d : Side} (hl : LinkedCtx h fs (some x))
    (hnd : (ctxIters fs).Nodup) (hx : x ∉ ctxIters fs) :
    LinkedCtx (h.modify (ctxParent fs) (·.replaceChild d (some x) new)) fs new := by
  cases fs with
  | nil => trivial
  | cons f fs =>
    obtain ⟨hnode, hsib, hrest⟩ := hl
    rw [ctxIters_cons, List.nodup_cons, List.mem_append, not_or] at hnd
    obtain ⟨⟨hfs, hff⟩, -⟩ := hnd
    have hother : f.sibling.root ≠ some x := by
      intro hroot
      refine hx ?_
      rw [ctxIters_cons]
      exact List.mem_cons_of_mem _ (List.mem_append_left _ (root_mem_iters hroot))
    refine ⟨?_, hsib.modify (misses_some hfs), hrest.modify (misses_some hff)⟩
    rw [ctxParent_cons, LinkHeap.modify_self, hnode, Option.map_some,
      LinkNode.replaceChild_of hother]

omit [DecidableEq ι] in
theorem root_ne_some {i : ι} (hi : i ∉ t.iters) : t.root ≠ some i :=
  fun hroot => hi (root_mem_iters hroot)

omit [DecidableEq ι] in
theorem ctxParent_ne_some {i : ι} (hi : i ∉ ctxIters fs) : ctxParent fs ≠ some i :=
  fun hp => hi (ctxParent_mem hp)

/-- Rewriting the colour and the element of a node at a focus. -/
theorem Linked.modify_focus {d : Side} {c c' : Color} {n r : ColorTree (ι × α)} {i : ι} {a a' : α}
    (hl : Linked h none (plug fs (.mk d c n (i, a) r)))
    (hnd : (plug fs (.mk d c n (i, a) r)).iters.Nodup)
    (hf : f (.of d c (ctxParent fs) n.root r.root a) =
      .of d c' (ctxParent fs) n.root r.root a') :
    Linked (h.modify (some i) f) none (plug fs (.mk d c' n (i, a') r)) := by
  simp only [linked_plug, linked_mk, root_mk] at hl ⊢
  simp only [nodup_plug, nodup_iters_mk, mem_iters_mk] at hnd
  obtain ⟨hctx, hi, hn, hr⟩ := hl
  obtain ⟨⟨hin, hir, -, -, -⟩, -, hdisj⟩ := hnd
  refine ⟨hctx.modify (misses_some (hdisj i (Or.inl rfl))), ?_, hn.modify (misses_some hin),
    hr.modify (misses_some hir)⟩
  rw [LinkHeap.modify_self, hi, Option.map_some, hf]

/-- **Hanging a leaf** in the place of a missing child. -/
theorem Linked.leaf {g : Frame (ι × α)} {c : Color} {i : ι} {a : α}
    (hl : Linked h none (plug (g :: fs) .nil)) (hnd : (plug (g :: fs) .nil).iters.Nodup)
    (hi : i ∉ (plug (g :: fs) .nil).iters) (hnode : h i = some ⟨c, some g.iter, none, none, a⟩) :
    Linked (h.modify (some g.iter) (·.setChild g.side (some i))) none
      (plug (g :: fs) (.mk .left c .nil (i, a) .nil)) := by
  rw [(iters_plug_perm _ _).mem_iff] at hi
  simp only [linked_plug, linked_mk, root_mk, root_nil, LinkedCtx, ctxParent_cons] at hl ⊢
  simp only [nodup_plug, ctxIters_cons, List.nodup_cons, List.mem_append, not_or] at hnd
  obtain ⟨⟨hg, hsib, hfs⟩, -⟩ := hl
  obtain ⟨-, ⟨⟨hgsib, hgfs⟩, -⟩, -⟩ := hnd
  simp only [iters_nil, List.nil_append, ctxIters_cons, List.mem_cons, not_or] at hi
  refine ⟨⟨?_, hsib.modify (misses_some hgsib), hfs.modify (misses_some hgfs)⟩, ?_, trivial,
    trivial⟩
  · rw [LinkHeap.modify_self, hg, Option.map_some, LinkNode.setChild_of]
  · rw [LinkHeap.modify_of_ne (by simpa using Ne.symm hi.1), hnode]
    rfl

/-- **Splicing out** a node that has a child `t` and misses the other. -/
theorem Linked.splice (d' : Side) {d : Side} {c : Color} {y : ι × α}
    (hl : Linked h none (plug fs (.mk d c t y .nil)))
    (hnd : (plug fs (.mk d c t y .nil)).iters.Nodup) :
    Linked ((h.modify t.root (·.setParent (ctxParent fs))).modify (ctxParent fs)
      (·.replaceChild d' (some y.1) t.root)) none (plug fs t) := by
  simp only [linked_plug, linked_mk, root_mk] at hl ⊢
  simp only [nodup_plug, nodup_iters_mk, mem_iters_mk] at hnd
  obtain ⟨hctx, -, ht, -⟩ := hl
  obtain ⟨⟨-, -, htnd, -, -⟩, hfs, hdisj⟩ := hnd
  have htfs : ∀ i ∈ t.iters, i ∉ ctxIters fs := fun i hi => hdisj i (Or.inr (Or.inl hi))
  refine ⟨?_, (ht.reparent htnd).modify (misses_ctxParent htfs)⟩
  exact (hctx.modify (misses_root htfs)).relink hfs (hdisj y.1 (Or.inl rfl))

/-- **Taking the place** of a node `z`: the writes that give a node `y` outside the tree all links
of `z`. -/
theorem Linked.takePlace (d' : Side) {d : Side} {c : Color} {l r : ColorTree (ι × α)} {y z : ι × α}
    {n : LinkNode ι α} (hl : Linked h none (plug fs (.mk d c l z r)))
    (hnd : (plug fs (.mk d c l z r)).iters.Nodup) (hy : y.1 ∉ (plug fs (.mk d c l z r)).iters)
    (hn : h y.1 = some n) (hf : f n = .of d c (ctxParent fs) l.root r.root y.2) :
    Linked ((((h.modify (some y.1) f).modify (ctxParent fs)
      (·.replaceChild d' (some z.1) (some y.1))).modify l.root (·.setParent (some y.1))).modify
      r.root (·.setParent (some y.1))) none (plug fs (.mk d c l y r)) := by
  rw [(iters_plug_perm _ _).mem_iff, List.mem_append, mem_iters_mk] at hy
  simp only [not_or] at hy
  simp only [linked_plug, linked_mk, root_mk] at hl ⊢
  simp only [nodup_plug, nodup_iters_mk, mem_iters_mk] at hnd
  obtain ⟨hctx, hz, hleft, hright⟩ := hl
  obtain ⟨⟨hzl, hzr, hlnd, hrnd, hlr⟩, hfs, hdisj⟩ := hnd
  obtain ⟨⟨hyz, hyl, hyr⟩, hyfs⟩ := hy
  have hlfs : ∀ i ∈ l.iters, i ∉ ctxIters fs := fun i hi => hdisj i (Or.inr (Or.inl hi))
  have hrfs : ∀ i ∈ r.iters, i ∉ ctxIters fs := fun i hi => hdisj i (Or.inr (Or.inr hi))
  refine ⟨?_, ?_, ?_, ?_⟩
  · exact (((hctx.modify (misses_some hyfs)).relink hfs (hdisj z.1 (Or.inl rfl))).modify
      (misses_root hlfs)).modify (misses_root hrfs)
  · rw [LinkHeap.modify_of_ne (root_ne_some hyr), LinkHeap.modify_of_ne (root_ne_some hyl),
      LinkHeap.modify_of_ne (ctxParent_ne_some hyfs), LinkHeap.modify_self, hn, Option.map_some, hf]
  · have hin := (hleft.modify (misses_some hyl) (f := f)).modify (misses_ctxParent hlfs)
      (f := (·.replaceChild d' (some z.1) (some y.1)))
    exact (hin.reparent hlnd).modify (misses_root fun i hir hil => hlr i hil hir)
  · have hin := ((hright.modify (misses_some hyr) (f := f)).modify (misses_ctxParent hrfs)
      (f := (·.replaceChild d' (some z.1) (some y.1)))).modify (misses_root hlr)
      (f := (·.setParent (some y.1)))
    exact hin.reparent hrnd

/-- **Rotation**: the writes that rotate a node `x` towards side `d`, below its child `y`. -/
theorem Linked.rotate {d : Side} {cx cy : Color} {x y : ι × α} {a b c : ColorTree (ι × α)}
    (hl : Linked h none (plug fs (.mk d cx a x (.mk d cy b y c))))
    (hnd : (plug fs (.mk d cx a x (.mk d cy b y c))).iters.Nodup) :
    Linked ((((((h.modify (some x.1) (·.setChild d.other b.root)).modify b.root
      (·.setParent (some x.1))).modify (some y.1) (·.setParent (ctxParent fs))).modify
      (ctxParent fs) (·.replaceChild d (some x.1) (some y.1))).modify (some y.1)
      (·.setChild d (some x.1))).modify (some x.1) (·.setParent (some y.1)))
      none (plug fs (.mk d cy (.mk d cx a x b) y c)) := by
  simp only [linked_plug, linked_mk, root_mk] at hl ⊢
  simp only [nodup_plug, nodup_iters_mk, mem_iters_mk, not_or] at hnd
  obtain ⟨hctx, hx, ha, hy, hb, hc⟩ := hl
  obtain ⟨⟨hxa, ⟨hxy, hxb, hxc⟩, -, ⟨hyb, hyc, hbnd, -, hbc⟩, habc⟩, hfs, hdisj⟩ := hnd
  have hxfs : x.1 ∉ ctxIters fs := hdisj x.1 (Or.inl rfl)
  have hyfs : y.1 ∉ ctxIters fs := hdisj y.1 (Or.inr (Or.inr (Or.inl rfl)))
  have hafs : ∀ i ∈ a.iters, i ∉ ctxIters fs := fun i hi => hdisj i (Or.inr (Or.inl hi))
  have hbfs : ∀ i ∈ b.iters, i ∉ ctxIters fs :=
    fun i hi => hdisj i (Or.inr (Or.inr (Or.inr (Or.inl hi))))
  have hcfs : ∀ i ∈ c.iters, i ∉ ctxIters fs :=
    fun i hi => hdisj i (Or.inr (Or.inr (Or.inr (Or.inr hi))))
  have hya : y.1 ∉ a.iters := fun hi => (habc y.1 hi).1 rfl
  have hpx := ctxParent_ne_some hxfs
  have hpy := ctxParent_ne_some hyfs
  have hbx := root_ne_some hxb
  have hby := root_ne_some hyb
  refine ⟨?_, ?_, ⟨?_, ?_, ?_⟩, ?_⟩
  · -- the frames: only the innermost is rewritten
    have hin := ((hctx.modify (misses_some hxfs) (f := (·.setChild d.other b.root))).modify
      (misses_root hbfs) (f := (·.setParent (some x.1)))).modify (misses_some hyfs)
      (f := (·.setParent (ctxParent fs)))
    exact ((hin.relink hfs hxfs).modify (misses_some hyfs)).modify (misses_some hxfs)
  · simp [LinkHeap.modify, hy, hby, hpy, hxy]
  · simp [LinkHeap.modify, hx, hbx, hpx, Ne.symm hxy]
  · exact (((((ha.modify (misses_some hxa)).modify (misses_root fun i hi hia =>
      (habc i hia).2.1 hi)).modify (misses_some hya)).modify (misses_ctxParent hafs)).modify
      (misses_some hya)).modify (misses_some hxa)
  · -- the subtree that changes sides is the one with a new parent
    have hin := hb.modify (misses_some hxb) (f := (·.setChild d.other b.root))
    exact ((((hin.reparent hbnd).modify (misses_some hyb)).modify
      (misses_ctxParent hbfs)).modify (misses_some hyb)).modify (misses_some hxb)
  · exact (((((hc.modify (misses_some hxc)).modify (misses_root hbc)).modify
      (misses_some hyc)).modify (misses_ctxParent hcfs)).modify (misses_some hyc)).modify
      (misses_some hxc)

end VeritableLasagna
