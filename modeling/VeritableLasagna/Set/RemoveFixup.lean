import VeritableLasagna.Set.Layout

/-!
# The removal fixup

The fixup loop of `vlSetRemove` runs on trees of any colouring, since the code may enter it on a
tree that is not red-black. Every round keeps the entries and a black root, and either moves the
focus one frame up or leaves the loop at its next test (`vlSetRemoveFixupRound_spec`).
`vlSetRemoveFixup_spec` concludes that the fixup returns with the same entries;
`vlSetRemoveFixup_exit` is the case in which it only paints.
-/

namespace VeritableLasagna

open ColorTree

variable {α : Type} {set : VlSet α} {fs : List (Frame (VlPoolIdx × α))}
  {f : Frame (VlPoolIdx × α)} {t w : ColorTree (VlPoolIdx × α)}

/-- The colour of a child of the node at a focus. -/
private theorem childColor_focus {d : Side} {c : Color} {n r : ColorTree (VlPoolIdx × α)}
    {e : VlPoolIdx × α} (h : set.Layout (plug fs (.mk d c n e r))) :
    set.childColor d (some e.1) = n.rootColor ∧ set.childColor d.other (some e.1) = r.rootColor := by
  have he := h.heap_focus
  have hnear : set.Layout (plug (⟨d, c, e, r⟩ :: fs) n) := h
  have hfar : set.Layout (plug (⟨d.other, c, e, n⟩ :: fs) r) := by
    rw [plug_cons, Frame.fill, mk_other]
    exact h
  constructor
  · rw [VlSet.childColor, vlSetGetNodeAt_some, he]
    dsimp only
    rw [LinkNode.child_of]
    exact hnear.colorAt
  · rw [VlSet.childColor, vlSetGetNodeAt_some, he]
    dsimp only
    rw [LinkNode.child_other_of]
    exact hfar.colorAt

/-- The parent read from the node at a focus below a frame. -/
private theorem node_parent (h : set.Layout (plug (f :: fs) t)) (ht : t ≠ .nil) :
    ∃ n, set.node t.root = .ok n ∧ n.parent = some f.iter := by
  rcases eq_nil_or_mk .left t with rfl | ⟨c, l, e, r, rfl⟩
  · exact absurd rfl ht
  · rw [root_mk]
    exact ⟨_, VlSet.node_some h.heap_focus, LinkNode.parent_of⟩

/-- The colour read from the node at a focus. -/
private theorem node_color (h : set.Layout (plug fs t)) (ht : t ≠ .nil) :
    ∃ n, set.node t.root = .ok n ∧ n.color = t.rootColor := by
  rcases eq_nil_or_mk .left t with rfl | ⟨c, l, e, r, rfl⟩
  · exact absurd rfl ht
  · rw [root_mk, rootColor_mk]
    exact ⟨_, VlSet.node_some h.heap_focus, LinkNode.color_of⟩

/-- A red sibling is rotated above the parent, which turns red. -/
private theorem vlSetRemoveRedSibling_spec (h : set.Layout (plug (f :: fs) t)) (ht : t ≠ .nil)
    (hroot : ctxRootColor (f :: fs) = .black) :
    Returns (vlSetRemoveRedSibling f.side set t.root (some f.iter) f.sibling.root) fun r =>
      ∃ f' fs', r.1 = some f'.iter ∧ r.2.1 = f'.sibling.root ∧ r.2.2.Twin set ∧
        r.2.2.Layout (plug (f' :: fs') t) ∧ f'.side = f.side ∧
        (plug (f' :: fs') t).inorder = (plug (f :: fs) t).inorder ∧
        ctxRootColor (f' :: fs') = .black ∧ (fs' = fs ∨ f'.color = .red ∧ fs' ≠ []) := by
  have hsib : set.Layout (plug (f.turn t :: fs) f.sibling) := by
    rw [plug_turn]
    exact h
  rw [vlSetRemoveRedSibling, hsib.colorAt]
  split_ifs with hred
  · obtain ⟨d, c, e, s⟩ := f
    rcases eq_nil_or_mk d s with rfl | ⟨cw, b, ew, r, rfl⟩
    · cases hred
    · rw [root_mk]
      refine (VlSet.setColor_spec hsib .black).bind ?_
      rintro s₁ ⟨h₁, htwin₁⟩
      have h₁' : s₁.Layout (plug fs (.mk d c t e (.mk d .black b ew r))) := by
        simpa only [plug_cons, Frame.turn, Frame.fill, mk_other] using h₁
      refine (VlSet.setColor_spec h₁' .red).bind ?_
      rintro s₂ ⟨h₂, htwin₂⟩
      have h₂' : s₂.Layout (plug (⟨d, .red, e, .mk d .black b ew r⟩ :: fs) t) := h₂
      obtain ⟨n₂, hn₂, hp₂⟩ := node_parent h₂' ht
      rw [hn₂, ok_bind, hp₂]
      refine (vlSetTreeRotate_spec h₂).bind ?_
      rintro s₃ ⟨h₃, htwin₃⟩
      have h₃' : s₃.Layout (plug (⟨d, .red, e, b⟩ :: ⟨d, .black, ew, r⟩ :: fs) t) := h₃
      obtain ⟨n₃, hn₃, hp₃⟩ := node_parent h₃' ht
      rw [hn₃, ok_bind, hp₃, VlSet.node_some h₃'.heap_frame, ok_bind, LinkNode.child_other_of]
      refine returns_ok ⟨⟨d, .red, e, b⟩, ⟨d, .black, ew, r⟩ :: fs, rfl, rfl,
        htwin₃.trans (htwin₂.trans htwin₁), h₃', rfl, ?_, ?_, Or.inr ⟨rfl, List.cons_ne_nil _ _⟩⟩
      · exact inorder_plug_congr (inorder_rotate ..)
      · cases fs with
        | nil => rfl
        | cons k fs => exact hroot
  · exact returns_ok ⟨f, fs, rfl, rfl, .refl set, h, rfl, rfl, hroot, Or.inl rfl⟩

/-- A sibling with a black child on the far side changes places with its red child. -/
private theorem vlSetRemoveFarBlack_spec {d : Side} {c cw : Color} {e ew : VlPoolIdx × α}
    {n r : ColorTree (VlPoolIdx × α)} (ht : t ≠ .nil)
    (h : set.Layout (plug (⟨d, c, e, .mk d cw n ew r⟩ :: fs) t))
    (hred : ¬ (n.rootColor = .black ∧ r.rootColor = .black)) :
    Returns (vlSetRemoveFarBlack d set t.root (some e.1) (some ew.1) r.rootColor) fun q =>
      ∃ cw' n' ew' r', q.1 = some e.1 ∧ q.2.1 = some ew'.1 ∧ q.2.2.Twin set ∧
        q.2.2.Layout (plug (⟨d, c, e, .mk d cw' n' ew' r'⟩ :: fs) t) ∧
        (ColorTree.mk d cw' n' ew' r').inorder = (ColorTree.mk d cw n ew r).inorder := by
  rw [vlSetRemoveFarBlack]
  split_ifs with hfar
  · rcases eq_nil_or_mk d n with rfl | ⟨cn, a, en, b, rfl⟩
    · exact absurd ⟨rfl, hfar⟩ hred
    · have hw : set.Layout (plug (⟨d.other, c, e, t⟩ :: fs) (.mk d cw (.mk d cn a en b) ew r)) := by
        simpa only [plug_cons, Frame.fill, mk_other] using h
      rw [VlSet.node_some hw.heap_focus, ok_bind, LinkNode.child_of]
      have hn : set.Layout (plug (⟨d, cw, ew, r⟩ :: ⟨d.other, c, e, t⟩ :: fs)
          (.mk d cn a en b)) := hw
      refine (VlSet.paint_spec hn .black).bind ?_
      rintro s₁ ⟨h₁, htwin₁⟩
      rw [plug_cons, paint_mk] at h₁
      refine (VlSet.setColor_spec h₁ .red).bind ?_
      rintro s₂ ⟨h₂, htwin₂⟩
      -- seen from the far side, the rotation is the one of the specification
      have hflip : s₂.Layout (plug (⟨d.other, c, e, t⟩ :: fs)
          (.mk d.other .red r ew (.mk d.other .black b en a))) := by
        rw [mk_other, mk_other]
        exact h₂
      refine (vlSetTreeRotate_spec hflip).bind ?_
      rintro s₃ ⟨h₃, htwin₃⟩
      have h₃' : s₃.Layout (plug (⟨d, c, e, .mk d .black a en (.mk d .red b ew r)⟩ :: fs) t) := by
        simpa only [plug_cons, Frame.fill, mk_other] using h₃
      obtain ⟨n₃, hn₃, hp₃⟩ := node_parent h₃' ht
      rw [hn₃, ok_bind, hp₃, VlSet.node_some h₃'.heap_frame, ok_bind, LinkNode.child_other_of]
      refine returns_ok ⟨.black, a, en, .mk d .red b ew r, rfl, root_mk,
        htwin₃.trans (htwin₂.trans htwin₁), h₃', ?_⟩
      exact (inorder_rotate ..).symm
  · exact returns_ok ⟨cw, n, ew, r, rfl, rfl, .refl set, h, rfl⟩

/-- The last rotation. -/
private theorem vlSetRemoveLast_spec {d : Side} {c cw : Color} {e ew : VlPoolIdx × α}
    {n r : ColorTree (VlPoolIdx × α)} (ht : t ≠ .nil)
    (h : set.Layout (plug (⟨d, c, e, .mk d cw n ew r⟩ :: fs) t)) :
    Returns (vlSetRemoveLast d set t.root (some e.1) (some ew.1)) fun s' =>
      s'.Layout (plug fs (.mk d c (.mk d .black t e n) ew (r.paint .black))) ∧ s'.Twin set := by
  have hw : set.Layout (plug (⟨d.other, c, e, t⟩ :: fs) (.mk d cw n ew r)) := by
    simpa only [plug_cons, Frame.fill, mk_other] using h
  rw [vlSetRemoveLast, vlSetGetNodeAt_some, hw.heap_focus]
  dsimp only
  have he : set.heap e.1 = some (.of d c (ctxParent fs) t.root (some ew.1) e.2) := by
    simpa [Frame.iter] using h.heap_frame
  rw [VlSet.node_some he, ok_bind, LinkNode.color_of]
  refine (VlSet.setColor_spec hw c).bind ?_
  rintro s₁ ⟨h₁, htwin₁⟩
  have h₁' : s₁.Layout (plug fs (.mk d c t e (.mk d c n ew r))) := by
    simpa only [plug_cons, Frame.fill, mk_other] using h₁
  refine (VlSet.setColor_spec h₁' .black).bind ?_
  rintro s₂ ⟨h₂, htwin₂⟩
  have h₂' : s₂.Layout (plug (⟨d.other, .black, e, t⟩ :: fs) (.mk d c n ew r)) := by
    simpa only [plug_cons, Frame.fill, mk_other] using h₂
  have hfar : s₂.Layout (plug (⟨d.other, c, ew, n⟩ :: ⟨d.other, .black, e, t⟩ :: fs) r) := by
    simpa only [plug_cons, Frame.fill, mk_other] using h₂
  rw [VlSet.node_some h₂'.heap_focus, ok_bind, LinkNode.child_other_of]
  refine (VlSet.paint_spec hfar .black).bind ?_
  rintro s₃ ⟨h₃, htwin₃⟩
  have h₃' : s₃.Layout (plug (⟨d, .black, e, .mk d c n ew (r.paint .black)⟩ :: fs) t) := by
    simpa only [plug_cons, Frame.fill, mk_other] using h₃
  obtain ⟨n₃, hn₃, hp₃⟩ := node_parent h₃' ht
  rw [hn₃, ok_bind, hp₃]
  refine (vlSetTreeRotate_spec h₃').mono ?_
  rintro s₄ ⟨h₄, htwin₄⟩
  exact ⟨h₄, htwin₄.trans (htwin₃.trans (htwin₂.trans htwin₁))⟩

/-- One round below a frame moves the focus one frame up, or makes it red or the root. -/
private theorem vlSetRemoveFixupRound_spec (h : set.Layout (plug (f :: fs) t)) (ht : t ≠ .nil)
    (hroot : ctxRootColor (f :: fs) = .black) :
    Returns (vlSetRemoveFixupRound f.side set t.root (some f.iter)) fun r =>
      ∃ fs' t', r.1 = t'.root ∧ r.2.Layout (plug fs' t') ∧ r.2.Twin set ∧
        (plug fs' t').inorder = (plug (f :: fs) t).inorder ∧ ctxRootColor fs' = .black ∧
        (fs' = fs ∨ t'.rootColor = .red ∨ fs' = []) := by
  have htail : ∀ {f : Frame (VlPoolIdx × α)} {fs : List (Frame (VlPoolIdx × α))},
      ctxRootColor (f :: fs) = .black → ctxRootColor fs = .black := by
    intro f fs h
    cases fs with
    | nil => rfl
    | cons k fs => exact h
  rw [vlSetRemoveFixupRound, VlSet.node_some h.heap_frame, ok_bind, LinkNode.child_other_of]
  refine (vlSetRemoveRedSibling_spec h ht hroot).bind ?_
  rintro ⟨p, w, s₁⟩ ⟨⟨d, c, e, s⟩, fs₁, rfl, rfl, htwin₁, h₁, rfl, horder₁, hroot₁, hfs₁⟩
  dsimp only [Frame.iter] at h₁ ⊢
  have hsib : s₁.Layout (plug (⟨f.side.other, c, e, t⟩ :: fs₁) s) := by
    simpa only [plug_cons, Frame.fill, mk_other] using h₁
  split_ifs with hblack
  · -- the sibling turns red, and the focus moves up
    have hpaint : Returns (s₁.modifyNode s.root (·.setColor .red)) fun s₂ =>
        s₂.Layout (plug (⟨f.side.other, c, e, t⟩ :: fs₁) (s.paint .red)) ∧ s₂.Twin s₁ := by
      rw [VlSet.modifyNode_eq hsib]
      exact VlSet.paint_spec hsib .red
    refine hpaint.bind ?_
    rintro s₂ ⟨h₂, htwin₂⟩
    have h₂' : s₂.Layout (plug (⟨f.side, c, e, s.paint .red⟩ :: fs₁) t) := by
      simpa only [plug_cons, Frame.fill, mk_other] using h₂
    obtain ⟨n₂, hn₂, hp₂⟩ := node_parent h₂' ht
    rw [hn₂, ok_bind, hp₂]
    refine returns_ok ⟨fs₁, .mk f.side c t e (s.paint .red), root_mk.symm, h₂',
      htwin₂.trans htwin₁, ?_, htail hroot₁, ?_⟩
    · rw [← horder₁]
      exact inorder_plug_congr (inorder_mk_congr rfl (inorder_paint ..))
    · rcases hfs₁ with rfl | ⟨hc, -⟩
      · exact Or.inl rfl
      · exact Or.inr (Or.inl ((rootColor_mk ..).trans hc))
  · rcases eq_nil_or_mk f.side s with rfl | ⟨cw, n, ew, r, rfl⟩
    · exact absurd ⟨rfl, rfl⟩ hblack
    · rw [root_mk] at hblack ⊢
      obtain ⟨hnear, hfar⟩ := childColor_focus hsib
      rw [hnear, hfar] at hblack
      rw [hfar]
      refine (vlSetRemoveFarBlack_spec ht h₁ hblack).bind ?_
      rintro ⟨p, w, s₂⟩ ⟨cw', n', ew', r', rfl, rfl, htwin₂, h₂, horder₂⟩
      refine (vlSetRemoveLast_spec ht h₂).bind ?_
      rintro s₃ ⟨h₃, htwin₃⟩
      refine returns_ok ?_
      refine ⟨[], _, h₃.root_eq, h₃, htwin₃.trans (htwin₂.trans htwin₁), ?_, rfl,
        Or.inr (Or.inr rfl)⟩
      rw [plug_nil, ← horder₁]
      refine inorder_plug_congr ?_
      calc (ColorTree.mk f.side c (.mk f.side .black t e n') ew' (r'.paint .black)).inorder
          = (ColorTree.mk f.side c (.mk f.side .black t e n') ew' r').inorder :=
            inorder_mk_congr rfl (inorder_paint ..)
        _ = (ColorTree.mk f.side c t e (.mk f.side cw' n' ew' r')).inorder := inorder_rotate ..
        _ = (ColorTree.mk f.side c t e (.mk f.side cw n ew r)).inorder :=
            inorder_mk_congr rfl horder₂

/-- At the root, at a missing node and at a red node the loop stops at its first test. -/
private theorem vlSetRemoveFixupLoop_exit (fuel : ℕ) (h : set.Layout (plug fs t))
    (hexit : fs = [] ∨ t = .nil ∨ t.rootColor = .red) :
    vlSetRemoveFixupLoop (fuel + 1) set t.root = .ok (t.root, set) := by
  rw [vlSetRemoveFixupLoop]
  split_ifs with htop
  · rfl
  · rcases hexit with rfl | rfl | hred
    · exact absurd (Or.inl h.root_eq.symm) htop
    · exact absurd (Or.inr rfl) htop
    · rcases eq_nil_or_mk .left t with rfl | ⟨c, l, e, r, rfl⟩
      · exact absurd (Or.inr rfl) htop
      · rw [rootColor_mk] at hred
        rw [root_mk, VlSet.node_some h.heap_focus, ok_bind, LinkNode.color_of, hred]
        rfl

/-- The loop of `vl_SetRemoveFixup` returns, with the entries kept and a black root above the
node it stops at. -/
private theorem vlSetRemoveFixupLoop_spec (fuel : ℕ) (h : set.Layout (plug fs t))
    (hroot : ctxRootColor fs = .black) (hfuel : fs.length + 2 ≤ fuel) :
    Returns (vlSetRemoveFixupLoop fuel set t.root) fun r =>
      ∃ fs' t', r.1 = t'.root ∧ r.2.Layout (plug fs' t') ∧ r.2.Twin set ∧
        (plug fs' t').inorder = (plug fs t).inorder ∧ ctxRootColor fs' = .black := by
  induction fuel generalizing set fs t with
  | zero => omega
  | succ fuel ih =>
    by_cases hexit : fs = [] ∨ t = .nil ∨ t.rootColor = .red
    · exact ⟨_, vlSetRemoveFixupLoop_exit fuel h hexit, fs, t, rfl, h, .refl set, rfl, hroot⟩
    · simp only [not_or] at hexit
      obtain ⟨hfs, ht, hred⟩ := hexit
      obtain ⟨f, fs, rfl⟩ := List.exists_cons_of_ne_nil hfs
      have htop := h.root_ne_top ht
      have hne := (h.root_ne_sibling ht).symm
      obtain ⟨i, hi⟩ := Option.ne_none_iff_exists'.mp (mt root_eq_none.mp ht)
      obtain ⟨n, hn, hcolor⟩ := node_color h ht
      obtain ⟨n', hn', hp⟩ := node_parent h ht
      obtain rfl : n' = n := Except.ok.inj (hn'.symm.trans hn)
      have hblack : ¬ n'.color ≠ .black := by
        rw [hcolor]
        cases hc : t.rootColor with
        | red => exact absurd hc hred
        | black => simp
      have hstay : ¬ (t.root = set.root ∨ t.root = none) := not_or.mpr ⟨htop, by rw [hi]; simp⟩
      rw [vlSetRemoveFixupLoop, if_neg hstay, hn, ok_bind, if_neg hblack, hp,
        VlSet.node_some h.heap_frame, ok_bind]
      have hside : (if t.root = (LinkNode.of f.side f.color (ctxParent fs) t.root
          f.sibling.root f.entry.2).left then Side.left else Side.right) = f.side := by
        rw [hi] at hne ⊢
        exact LinkNode.side_of hne
      rw [hside]
      refine (vlSetRemoveFixupRound_spec h ht hroot).bind ?_
      rintro ⟨x, s₁⟩ ⟨fs', t', rfl, h₁, htwin₁, horder₁, hroot₁, hnext⟩
      simp only [List.length_cons] at hfuel
      by_cases hup : fs' = fs
      · subst hup
        refine (ih h₁ hroot₁ (by omega)).mono ?_
        rintro r ⟨fs₂, t₂, hr, h₂, htwin₂, horder₂, hroot₂⟩
        exact ⟨fs₂, t₂, hr, h₂, htwin₂.trans htwin₁, horder₂.trans horder₁, hroot₂⟩
      · have hexit₁ : fs' = [] ∨ t' = .nil ∨ t'.rootColor = .red := by tauto
        obtain ⟨fuel, rfl⟩ : ∃ k, fuel = k + 1 := ⟨fuel - 1, by omega⟩
        exact ⟨_, vlSetRemoveFixupLoop_exit fuel h₁ hexit₁, fs', t', rfl, h₁, htwin₁, horder₁,
          hroot₁⟩

/-- The root of a painted tree. -/
theorem rootColor_plug_paint (hroot : ctxRootColor fs = .black) :
    (plug fs (t.paint .black)).rootColor = .black := by
  cases fs with
  | nil => cases t <;> rfl
  | cons f fs => exact (rootColor_plug_cons ..).trans hroot

/-- **`vl_SetRemoveFixup`** returns with the same entries and a black root, whatever the colours
of the tree it is called on. -/
theorem vlSetRemoveFixup_spec (h : set.Layout (plug fs t)) (hroot : ctxRootColor fs = .black)
    (htotal : fs.length ≤ set.totalElements) :
    Returns (vlSetRemoveFixup set t.root) fun s' =>
      ∃ t', s'.Layout t' ∧ t'.inorder = (plug fs t).inorder ∧ t'.rootColor = .black ∧
        s'.Twin set := by
  rw [vlSetRemoveFixup]
  refine (vlSetRemoveFixupLoop_spec _ h hroot (Nat.add_le_add_right htotal 2)).bind ?_
  rintro ⟨x, s₁⟩ ⟨fs₁, t₁, rfl, h₁, htwin₁, horder₁, hroot₁⟩
  refine (VlSet.paint_spec h₁ .black).mono fun s₂ ⟨h₂, htwin₂⟩ => ?_
  refine ⟨_, h₂, ?_, rootColor_plug_paint hroot₁, htwin₂.trans htwin₁⟩
  rw [inorder_plug_congr (inorder_paint ..), horder₁]

/-- Called on the root, on a missing node or on a red node, **`vl_SetRemoveFixup`** only paints
the node black. -/
theorem vlSetRemoveFixup_exit (h : set.Layout (plug fs t))
    (hexit : fs = [] ∨ t = .nil ∨ t.rootColor = .red) :
    Returns (vlSetRemoveFixup set t.root) fun s' =>
      s'.Layout (plug fs (t.paint .black)) ∧ s'.Twin set := by
  rw [vlSetRemoveFixup, vlSetRemoveFixupLoop_exit _ h hexit, ok_bind]
  exact VlSet.paint_spec h .black

end VeritableLasagna
