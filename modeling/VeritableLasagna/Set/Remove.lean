import VeritableLasagna.Set.Insert
import VeritableLasagna.Set.RemoveFixup

/-!
# Removal

`vlSetRemove` splices out the node to remove or its successor, lets the successor take the place
of the node to remove, and runs the fixup if the colour it kept is black. It keeps the set
invariant on trees of any colouring (`vlSetRemove_spec`).

The colour it keeps is read after the successor took the colour of the node it replaces, and the
fixup does nothing for a missing node. `vlSetRemovesSafely` is the condition on the state under
which that does no harm: removal then keeps a red-black tree red-black.
-/

namespace VeritableLasagna

open ColorTree

variable {α : Type} {set set' : VlSet α} {fs : List (Frame (VlPoolIdx × α))}
  {t x : ColorTree (VlPoolIdx × α)} {i : VlPoolIdx} {c : Color}

/-- The state at the end of a removal. -/
structure VlSet.Released (set' set : VlSet α) (t' : ColorTree (VlPoolIdx × α)) : Prop where
  layout : set'.Layout t'
  pool : set'.nodePool.Inv t'.iters
  stride : set'.nodePool.elementSize = set.nodePool.elementSize
  total : set'.totalElements = t'.size
  rootBlack : t'.rootColor = .black
  elementSize : set'.elementSize = set.elementSize
  comparator : set'.comparator = set.comparator

/-- **The end of `vlSetRemove`**: the entries stay, and where the fixup stops at once only the
spliced-in child is painted. -/
private theorem vlSetRelease_spec {live : List VlPoolIdx} (h : set.Layout (plug fs x))
    (hpool : set.nodePool.Inv live) (hstride : 0 < set.nodePool.elementSize)
    (hlive : live.Perm (i :: (plug fs x).iters))
    (htotal : set.totalElements = (plug fs x).size + 1) (hroot : ctxRootColor fs = .black)
    (htop : fs = [] → c = .black) :
    Returns (vlSetRelease set i x.root c) fun s' => ∃ t', s'.Released set t' ∧
      t'.inorder = (plug fs x).inorder ∧ (c = .red → t' = plug fs x) ∧
      (c = .black → fs = [] ∨ x = .nil ∨ x.rootColor = .red → t' = plug fs (x.paint .black)) := by
  have hi : i ∈ live := hlive.mem_iff.mpr List.mem_cons_self
  obtain ⟨pool, hret, hinv, hext, hsize⟩ := vlPoolReturn_spec hpool hi
  have hrest : (live.erase i).Perm (plug fs x).iters := by
    have := hlive.erase i
    rwa [List.erase_cons_head] at this
  have hinv' : pool.Inv (plug fs x).iters := hinv.perm hrest.symm
  have hap : VlSet.Apart { set with nodePool := pool } :=
    hinv'.apart (hsize ▸ hstride) rfl
  have hlay := h.changePool hext hap (set.totalElements - 1)
  have hlen := length_add_size_le fs x
  rw [vlSetRelease, hret, ok_bind]
  dsimp only
  -- whatever the fixup does, it leaves pool and counter alone
  have hdone : ∀ {s' : VlSet α} {t' : ColorTree (VlPoolIdx × α)}, s'.Layout t' →
      s'.Twin { set with nodePool := pool, totalElements := set.totalElements - 1 } →
      t'.inorder = (plug fs x).inorder → t'.rootColor = .black → s'.Released set t' := by
    intro s' t' hlay' htwin horder hblack
    refine ⟨hlay', ?_, ?_, ?_, hblack, htwin.elementSize, htwin.comparator⟩
    · rw [htwin.nodePool, iters, horder]
      exact hinv'
    · rw [htwin.nodePool]
      exact hsize
    · rw [htwin.totalElements, size, horder]
      change set.totalElements - 1 = _
      rw [htotal]
      rfl
  split_ifs with hc
  · by_cases hexit : fs = [] ∨ x = .nil ∨ x.rootColor = .red
    · refine (vlSetRemoveFixup_exit hlay hexit).mono ?_
      rintro s' ⟨hlay', htwin⟩
      refine ⟨_, hdone hlay' htwin (inorder_plug_congr (inorder_paint ..)) ?_,
        inorder_plug_congr (inorder_paint ..), fun hred => ?_, fun _ _ => rfl⟩
      · exact rootColor_plug_paint hroot
      · rw [hc] at hred
        cases hred
    · refine (vlSetRemoveFixup_spec hlay hroot ?_).mono ?_
      · change fs.length ≤ set.totalElements - 1
        omega
      · rintro s' ⟨t', hlay', horder, hblack, htwin⟩
        refine ⟨t', hdone hlay' htwin horder hblack, horder, fun hred => ?_,
          fun _ hexit' => absurd hexit' hexit⟩
        rw [hc] at hred
        cases hred
  · refine returns_ok ⟨_, hdone hlay (.refl _) rfl ?_, rfl, fun _ => rfl, fun hb => absurd hb hc⟩
    cases fs with
    | nil => exact absurd (htop rfl) hc
    | cons f fs => exact (rootColor_plug_cons ..).trans hroot

/-- The condition under which `vlSetRemove` keeps a red-black tree red-black: the node it splices
out is red, or it is the root and the node to remove, or its child is red and gets painted. -/
def vlSetRemovesSafely (set : VlSet α) (z : Option VlPoolIdx) : Bool :=
  match vlSetGetNodeAt set z with
  | none => true
  | some nodeZ =>
    match vlSetSpliceTarget set z nodeZ with
    | .error _ => true
    | .ok y =>
      match vlSetGetNodeAt set y with
      | none => true
      | some nodeY => nodeY.color = .red ∨ (y = z ∧ nodeY.parent = none) ∨
          (set.colorAt nodeY.onlyChild = .red ∧ (y = z ∨ nodeZ.color = .black))

/-- Splicing a node with one missing child out of a red-black tree: below a red node there is
nothing, and a red child takes over the black of its parent. -/
private theorem redBlackAt_splice {d : Side} {e : VlPoolIdx × α} {n : ℕ}
    (h : RedBlackAt (.mk d c x e .nil) n) (hctx : CtxRedBlack fs n) :
    (c = .red → x = .nil ∧ ∃ m, RedBlackAt (plug fs x) m) ∧
      (c = .black → x.rootColor = .red → ∃ m, RedBlackAt (plug fs (x.paint .black)) m) := by
  refine ⟨?_, ?_⟩
  · rintro rfl
    obtain ⟨hx, hnil, hxb, -⟩ := redBlackAt_mk_red.mp h
    obtain rfl : 0 = n := RedBlackAt.nil.unique hnil
    have hxnil : x = .nil := by
      cases hx with
      | nil => rfl
      | red => cases hxb
    subst hxnil
    exact ⟨rfl, redBlackAt_plug.mpr ⟨0, .nil, hctx, fun hr => by cases hr⟩⟩
  · rintro rfl hred
    obtain ⟨m, rfl, hx, hnil⟩ := redBlackAt_mk_black.mp h
    obtain rfl : 0 = m := RedBlackAt.nil.unique hnil
    refine redBlackAt_plug.mpr ⟨1, hx.paint_red hred, hctx, fun hr => ?_⟩
    cases x <;> cases hr

/-- The result of a removal: one entry gone. -/
structure VlSet.Removed (set' set : VlSet α) (t : ColorTree (VlPoolIdx × α)) (i : VlPoolIdx)
    (a : α) (t' : ColorTree (VlPoolIdx × α)) (l₁ l₂ : List (VlPoolIdx × α)) : Prop where
  before : t.inorder = l₁ ++ (i, a) :: l₂
  after : t'.inorder = l₁ ++ l₂
  inv : set'.Inv t'
  redBlack : RedBlack t → vlSetRemovesSafely set (some i) = true → RedBlack t'
  kind : set'.SameKind set

private theorem removed_of_released {a : α} {t' : ColorTree (VlPoolIdx × α)}
    {l₁ l₂ : List (VlPoolIdx × α)} (h : set.Inv t) (hrel : set'.Released set t')
    (hbefore : t.inorder = l₁ ++ (i, a) :: l₂) (hafter : t'.inorder = l₁ ++ l₂)
    (hrb : RedBlack t → vlSetRemovesSafely set (some i) = true → ∃ n, RedBlackAt t' n) :
    set'.Removed set t i a t' l₁ l₂ := by
  refine ⟨hbefore, hafter, ⟨hrel.pool, hrel.stride ▸ h.stride, hrel.layout.linked,
    hrel.layout.root_eq, hrel.total, hrel.rootBlack, ?_⟩,
    fun ht hsafe => ⟨hrel.rootBlack, hrb ht hsafe⟩,
    ⟨hrel.stride, hrel.elementSize, hrel.comparator⟩⟩
  have hsorted := h.sorted
  rw [hbefore] at hsorted
  rw [hafter, hrel.comparator]
  exact hsorted.sublist (List.Sublist.append_left (List.sublist_cons_self _ _) _)

/-- The iterators of a tree, with a node with one missing child spliced out. -/
private theorem iters_splice_perm {d : Side} {e : VlPoolIdx × α} :
    (plug fs (.mk d c x e .nil)).iters.Perm (e.1 :: (plug fs x).iters) := by
  refine (iters_plug_perm _ _).trans ?_
  refine ((iters_mk_perm (d := d) (c := c) (n := x) (e := e) (f := .nil)).append_right _).trans ?_
  simpa using (iters_plug_perm fs x).symm.cons e.1

/-- The entries around a node with one missing child. -/
private theorem inorder_splice (d : Side) (c : Color) (x : ColorTree (VlPoolIdx × α))
    (e : VlPoolIdx × α) : ∃ m₁ m₂, (ColorTree.mk d c x e .nil).inorder = m₁ ++ e :: m₂ ∧
      x.inorder = m₁ ++ m₂ := by
  cases d with
  | left => exact ⟨x.inorder, [], by simp [mk], by simp⟩
  | right => exact ⟨[], x.inorder, by simp [mk], by simp⟩

/-- The guard at the head of `vlSetRemove` passes for a live iterator. -/
private theorem VlSet.Inv.root_valid (h : set.Inv t) (hi : i ∈ t.iters) :
    ¬ ((some i).isNone = true ∨ set.root.isNone = true) := by
  have ht : t ≠ .nil := by
    rintro rfl
    cases hi
  rw [h.root_eq, not_or]
  exact ⟨by simp, by simpa [root_eq_none] using ht⟩

/-- A node with a missing child is spliced out itself. -/
private theorem vlSetRemove_self {d : Side} {a : α} {nodeZ : VlSetNode α}
    (h : set.Inv (plug fs (.mk d c x (i, a) .nil))) (hz : set.heap i = some nodeZ)
    (htarget : vlSetSpliceTarget set (some i) nodeZ = .ok (some i))
    (hchild : nodeZ.onlyChild = x.root) :
    Returns (vlSetRemove set (some i)) fun s' => s'.comparator = set.comparator ∧
      ∃ t' l₁ l₂, s'.Removed set (plug fs (.mk d c x (i, a) .nil)) i a t' l₁ l₂ := by
  obtain rfl : nodeZ = .of d c (ctxParent fs) x.root none a :=
    Option.some.inj (hz.symm.trans h.layout.heap_focus)
  have hroot := h.root_valid (iters_splice_perm.mem_iff.mpr List.mem_cons_self)
  have htotal : set.totalElements = (plug fs x).size + 1 := by
    have hperm : (plug fs (.mk d c x (i, a) .nil)).iters.Perm (i :: (plug fs x).iters) :=
      iters_splice_perm
    simpa [h.total, size, iters] using hperm.length_eq
  rw [vlSetRemove, if_neg hroot, vlSetGetNodeAt_some, hz]
  dsimp only
  rw [if_neg (by omega), htarget, ok_bind, vlSetGetNodeAt_some, hz]
  dsimp only
  rw [hchild]
  refine (vlSetSpliceOut_spec h.layout).bind ?_
  rintro s₁ ⟨hlay₁, htwin₁, hkeep₁⟩
  have hz₁ : s₁.heap i = _ := hkeep₁.trans hz
  rw [vlSetTakePlace, if_neg (by simp), ok_bind, VlSet.node_some hz₁, ok_bind, deref_some, ok_bind,
    LinkNode.color_of]
  obtain ⟨m₁, m₂, hm, hx⟩ := inorder_splice d c x (i, a)
  have hctxRoot : ctxRootColor fs = .black ∧ (fs = [] → c = .black) := by
    cases fs with
    | nil => exact ⟨rfl, fun _ => (rootColor_mk ..).symm.trans h.rootBlack⟩
    | cons f fs => exact ⟨(rootColor_plug_cons ..).symm.trans h.rootBlack, by simp⟩
  refine (vlSetRelease_spec hlay₁ (htwin₁.nodePool ▸ h.pool) (htwin₁.nodePool ▸ h.stride)
    iters_splice_perm (htwin₁.totalElements.trans htotal) hctxRoot.1 hctxRoot.2).mono ?_
  rintro s' ⟨t', hrel, horder, hred, hblack⟩
  have hrel' : s'.Released set t' := ⟨hrel.layout, hrel.pool,
    hrel.stride.trans (congrArg _ htwin₁.nodePool), hrel.total, hrel.rootBlack,
    hrel.elementSize.trans htwin₁.elementSize, hrel.comparator.trans htwin₁.comparator⟩
  refine ⟨hrel'.comparator, t', entriesBefore .left fs ++ m₁, m₂ ++ entriesAfter .left fs,
    removed_of_released h hrel' ?_ ?_ fun hrb hsafe => ?_⟩
  · rw [inorder_plug, hm]
    simp
  · rw [horder, inorder_plug, hx]
    simp
  · obtain ⟨n, hmk, hctx, -⟩ := redBlackAt_plug.mp hrb.2
    obtain ⟨hsplice, hspliceBlack⟩ := redBlackAt_splice hmk hctx
    have hchildLayout : set.Layout (plug (⟨d, c, (i, a), .nil⟩ :: fs) x) := h.layout
    have hcolor := hchildLayout.colorAt
    have hcase : c = .red ∨ ctxParent fs = none ∨ x.rootColor = .red := by
      rw [vlSetRemovesSafely, vlSetGetNodeAt_some, hz] at hsafe
      dsimp only at hsafe
      rw [htarget] at hsafe
      dsimp only at hsafe
      rw [vlSetGetNodeAt_some, hz] at hsafe
      simpa [hchild, hcolor] using hsafe
    cases c with
    | red =>
      rw [hred rfl]
      exact (hsplice rfl).2
    | black =>
      rcases hcase with hc | hparent | hxred
      · cases hc
      · have hfs : fs = [] := by
          cases fs with
          | nil => rfl
          | cons f fs => cases hparent
        subst hfs
        rw [hblack rfl (Or.inl rfl), plug_nil]
        obtain ⟨m, -, hxm, -⟩ := redBlackAt_mk_black.mp hmk
        exact hxm.paint_black.2
      · rw [hblack rfl (Or.inr (Or.inr hxred))]
        exact hspliceBlack rfl hxred

/-- The frames between a successor `y` in the right subtree of `e` and the root. -/
private theorem plug_successor (gs fs : List (Frame (VlPoolIdx × α))) (c : Color)
    (e : VlPoolIdx × α) (l u : ColorTree (VlPoolIdx × α)) :
    plug (gs ++ ⟨.right, c, e, l⟩ :: fs) u = plug fs (.mk .left c l e (plug gs u)) := by
  rw [plug_append]
  rfl

/-- A node with two children is replaced by its successor, which is spliced out. -/
private theorem vlSetRemove_successor {a : α} {l r : ColorTree (VlPoolIdx × α)}
    (h : set.Inv (plug fs (.mk .left c l (i, a) r))) (hl : l ≠ .nil) (hr : r ≠ .nil) :
    Returns (vlSetRemove set (some i)) fun s' => s'.comparator = set.comparator ∧
      ∃ t' l₁ l₂, s'.Removed set (plug fs (.mk .left c l (i, a) r)) i a t' l₁ l₂ := by
  have hz := h.layout.heap_focus
  obtain ⟨gs, cy, y, ry, rfl, hgs⟩ := exists_plug_first .left hr
  have hspliced : ColorTree.mk .left cy .nil y ry = .mk .right cy ry y .nil := rfl
  have hfirst : (plug gs (.mk .left cy .nil y ry)).inorder = y :: (plug gs ry).inorder := by
    rw [inorder_plug, inorder_plug, hgs]
    simp [mk]
  have htarget : vlSetSpliceTarget set (some i) (.of .left c (ctxParent fs) l.root
      (plug gs (.mk .left cy .nil y ry)).root a) = .ok (some y.1) := by
    have hright : set.Layout (plug (⟨.right, c, (i, a), l⟩ :: fs)
        (plug gs (.mk .left cy .nil y ry))) := h.layout
    have hsize : (plug gs (.mk .left cy .nil y ry)).size ≤ set.totalElements + 1 := by
      have := length_add_size_le (⟨.right, c, (i, a), l⟩ :: fs)
        (plug gs (.mk .left cy .nil y ry))
      have htotal : set.totalElements = (plug (⟨.right, c, (i, a), l⟩ :: fs)
        (plug gs (.mk .left cy .nil y ry))).size := h.total
      omega
    have hboth : ¬ ((l.root.isNone = true) ∨
        ((plug gs (.mk .left cy .nil y ry)).root.isNone = true)) := by
      simp [root_eq_none, hl, hr]
    have hdescend := vlSetDescend_spec (d := .left) _ hright hr hsize
    rw [vlSetSpliceTarget, vlSetTreeSuccessor, vlSetGetNodeAt_some, hz]
    change (if l.root.isNone = true ∨ (plug gs (.mk .left cy .nil y ry)).root.isNone = true then _
      else if (plug gs (.mk .left cy .nil y ry)).root.isSome = true then
        vlSetMinSubtree set (plug gs (.mk .left cy .nil y ry)).root else _) = _
    rw [if_neg hboth, if_pos (root_isSome hr), vlSetMinSubtree, if_neg (not_or.mp hboth).2, hdescend]
    change Except.ok (firstIter (plug gs (.mk .left cy .nil y ry)).inorder) = _
    rw [hfirst]
    rfl
  -- the successor at a focus, with its only child as the subtree that stays
  have hfocus : plug fs (.mk .left c l (i, a) (plug gs (.mk .left cy .nil y ry))) =
      plug (gs ++ ⟨.right, c, (i, a), l⟩ :: fs) (.mk .right cy ry y .nil) :=
    (plug_successor ..).symm
  have hlay : set.Layout (plug (gs ++ ⟨.right, c, (i, a), l⟩ :: fs) (.mk .right cy ry y .nil)) :=
    hfocus ▸ h.layout
  have hy := hlay.heap_focus
  rw [root_nil] at hy
  have hchild : (LinkNode.of .right cy (ctxParent (gs ++ ⟨.right, c, (i, a), l⟩ :: fs)) ry.root
    none y.2).onlyChild = ry.root := rfl
  have horder₀ : ∀ e : VlPoolIdx × α, (plug (gs ++ ⟨.right, c, e, l⟩ :: fs) ry).inorder =
      entriesBefore .left fs ++ l.inorder ++ e :: ((plug gs ry).inorder ++ entriesAfter .left fs) := by
    intro e
    rw [plug_successor, inorder_plug]
    simp [mk]
  have hbefore : (plug fs (.mk .left c l (i, a) (plug gs (.mk .left cy .nil y ry)))).inorder =
      entriesBefore .left fs ++ l.inorder ++
        (i, a) :: y :: ((plug gs ry).inorder ++ entriesAfter .left fs) := by
    rw [inorder_plug]
    change _ ++ ((l.inorder ++ (i, a) :: (plug gs _).inorder) ++ _) = _
    rw [hfirst]
    simp
  have hlive : (plug fs (.mk .left c l (i, a) (plug gs (.mk .left cy .nil y ry)))).iters.Perm
      (i :: (plug (gs ++ ⟨.right, c, y, l⟩ :: fs) ry).iters) := by
    rw [iters, iters, hbefore, horder₀]
    simp only [List.map_append, List.map_cons]
    exact List.perm_middle
  have hroot := h.root_valid (hlive.mem_iff.mpr List.mem_cons_self)
  have htotal : set.totalElements = (plug (gs ++ ⟨.right, c, y, l⟩ :: fs) ry).size + 1 := by
    have := hlive.length_eq
    simpa [h.total, size, iters] using this
  have hyfresh : y.1 ∉ (plug fs (.mk .left c l (i, a) (plug gs ry))).iters := by
    have hnd := iters_splice_perm.nodup_iff.mp hlay.nodup
    rw [plug_successor] at hnd
    exact (List.nodup_cons.mp hnd).1
  rw [vlSetRemove, if_neg hroot, vlSetGetNodeAt_some, hz]
  dsimp only
  rw [if_neg (by omega), htarget, ok_bind, vlSetGetNodeAt_some, hy]
  dsimp only
  rw [hchild]
  refine (vlSetSpliceOut_spec hlay).bind ?_
  rintro s₁ ⟨hlay₁, htwin₁, hkeep₁⟩
  rw [plug_successor] at hlay₁
  refine (vlSetTakePlace_spec hlay₁ hyfresh (hkeep₁.trans hy) LinkNode.elem_of).bind ?_
  rintro s₂ ⟨hlay₂, htwin₂⟩
  have htwin := htwin₂.trans htwin₁
  rw [VlSet.node_some hlay₂.heap_focus, ok_bind, deref_some, ok_bind, LinkNode.color_of]
  rw [← plug_successor] at hlay₂
  have hctxRoot : ctxRootColor (gs ++ ⟨.right, c, y, l⟩ :: fs) = .black := by
    have hblack := h.rootBlack
    obtain ⟨k, ks, hks⟩ := List.exists_cons_of_ne_nil
      (List.append_ne_nil_of_right_ne_nil gs (List.cons_ne_nil (⟨.right, c, y, l⟩ : Frame _) fs))
    have hplug := plug_successor gs fs c y l ry
    rw [hks] at hplug ⊢
    rw [← rootColor_plug_cons k ks ry, hplug]
    cases fs with
    | nil => exact (rootColor_mk ..).trans ((rootColor_mk ..).symm.trans hblack)
    | cons f fs => exact (rootColor_plug_cons ..).trans ((rootColor_plug_cons ..).symm.trans hblack)
  refine (vlSetRelease_spec hlay₂ (htwin.nodePool ▸ h.pool) (htwin.nodePool ▸ h.stride)
    hlive (htwin.totalElements.trans htotal) hctxRoot (fun hnil => by simp at hnil)).mono ?_
  rintro s' ⟨t', hrel, horder, hred, hblack⟩
  have hrel' : s'.Released set t' := ⟨hrel.layout, hrel.pool,
    hrel.stride.trans (congrArg _ htwin.nodePool), hrel.total, hrel.rootBlack,
    hrel.elementSize.trans htwin.elementSize, hrel.comparator.trans htwin.comparator⟩
  refine ⟨hrel'.comparator, t', _, _, removed_of_released h hrel' hbefore
    (horder.trans (horder₀ y)) fun hrb hsafe => ?_⟩
  rw [hfocus] at hrb
  obtain ⟨n, hmk, hctx, -⟩ := redBlackAt_plug.mp hrb.2
  have hctx' : CtxRedBlack (gs ++ ⟨.right, c, y, l⟩ :: fs) n := hctx.rename
  obtain ⟨hsplice, hspliceBlack⟩ := redBlackAt_splice hmk hctx'
  have hne : y.1 ≠ i := by
    intro hyi
    refine hyfresh ?_
    rw [hyi, (iters_plug_perm _ _).mem_iff, List.mem_append, mem_iters_mk]
    exact Or.inl (Or.inl rfl)
  have hchildLayout : set.Layout (plug (⟨.right, cy, y, .nil⟩ ::
      (gs ++ ⟨.right, c, (i, a), l⟩ :: fs)) ry) := hlay
  have hcolor := hchildLayout.colorAt
  have hcase : cy = .red ∨ (ry.rootColor = .red ∧ c = .black) := by
    rw [vlSetRemovesSafely, vlSetGetNodeAt_some, hz] at hsafe
    dsimp only at hsafe
    rw [htarget] at hsafe
    dsimp only at hsafe
    rw [vlSetGetNodeAt_some, hy] at hsafe
    simpa [hchild, hcolor, hne] using hsafe
  cases cy with
  | red =>
    obtain ⟨rfl, hrb'⟩ := hsplice rfl
    cases c with
    | red => rwa [hred rfl]
    | black => rwa [hblack rfl (Or.inr (Or.inl rfl)), paint_nil]
  | black =>
    obtain hc | ⟨hryred, hc⟩ := hcase
    · cases hc
    · rw [hblack hc (Or.inr (Or.inr hryred))]
      exact hspliceBlack rfl hryred

/-- **`vlSetRemove`** of a live iterator removes its entry and no other, whatever the colours of
the tree. -/
theorem vlSetRemove_spec {a : α} (h : set.Inv t) (hi : (i, a) ∈ t.inorder) :
    Returns (vlSetRemove set (some i)) fun s' => s'.comparator = set.comparator ∧
      ∃ t' l₁ l₂, s'.Removed set t i a t' l₁ l₂ := by
  obtain ⟨fs, c, l, r, rfl⟩ := exists_plug_of_mem .left hi
  by_cases hl : l = .nil
  · subst hl
    have htarget : vlSetSpliceTarget set (some i) (.of .left c (ctxParent fs) none r.root a) =
        .ok (some i) := if_pos (Or.inl rfl)
    exact vlSetRemove_self (d := .right) h h.layout.heap_focus htarget rfl
  · by_cases hr : r = .nil
    · subst hr
      have htarget : vlSetSpliceTarget set (some i)
          (.of .left c (ctxParent fs) l.root none a) = .ok (some i) := if_pos (Or.inr rfl)
      have hchild : (LinkNode.of .left c (ctxParent fs) l.root none a).onlyChild = l.root :=
        if_pos (root_isSome hl)
      exact vlSetRemove_self h h.layout.heap_focus htarget hchild
    · exact vlSetRemove_successor h hl hr

end VeritableLasagna
