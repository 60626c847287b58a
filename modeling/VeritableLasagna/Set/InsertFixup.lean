import VeritableLasagna.Set.Layout

/-!
# The insertion fixup

`InsertFix fs t t'` is what the fixup loop of `vlSetInsert` makes of the red node at the root of
`t` below the frames `fs`: recolouring moves the focus two frames up, one or two rotations end the
loop. `vlSetInsertFixup_spec` shows that the loop on the linked nodes computes it;
`InsertFix.inorder_eq` and `InsertFix.redBlack` are what it means.
-/

namespace VeritableLasagna

open ColorTree

section Tree

variable {ε : Type*}

/-- The fixup loop of `vlSetInsert`, on trees. -/
inductive InsertFix : List (Frame ε) → ColorTree ε → ColorTree ε → Prop
  | root (t : ColorTree ε) : InsertFix [] t t
  | blackParent {f : Frame ε} {fs : List (Frame ε)} {t : ColorTree ε} : f.color = .black →
      InsertFix (f :: fs) t (plug (f :: fs) t)
  | redUncle {f g : Frame ε} {fs : List (Frame ε)} {t t' : ColorTree ε} : f.color = .red →
      g.sibling.rootColor = .red →
      InsertFix fs (.mk g.side .red (.mk f.side .black t f.entry f.sibling) g.entry
        (g.sibling.paint .black)) t' →
      InsertFix (f :: g :: fs) t t'
  | outer {d : Side} {c : Color} {e e' : ε} {s s' : ColorTree ε} {fs : List (Frame ε)}
      {t : ColorTree ε} : s'.rootColor = .black →
      InsertFix (⟨d, .red, e, s⟩ :: ⟨d, c, e', s'⟩ :: fs) t
        (plug fs (.mk d .black t e (.mk d .red s e' s')))
  | inner {d : Side} {c ct : Color} {e e' et : ε} {s s' n r : ColorTree ε} {fs : List (Frame ε)} :
      s'.rootColor = .black →
      InsertFix (⟨d.other, .red, e, s⟩ :: ⟨d, c, e', s'⟩ :: fs) (.mk d ct n et r)
        (plug fs (.mk d .black (.mk d .red s e n) et (.mk d .red r e' s')))

/-- The fixup keeps the entries. -/
theorem InsertFix.inorder_eq {fs : List (Frame ε)} {t t' : ColorTree ε} (h : InsertFix fs t t') :
    t'.inorder = (plug fs t).inorder := by
  induction h with
  | root t => rfl
  | blackParent => rfl
  | @redUncle f g fs t t' _ _ _ ih =>
    obtain ⟨d, c, e, s⟩ := f
    obtain ⟨d', c', e', s'⟩ := g
    rw [ih, plug_cons, plug_cons]
    refine inorder_plug_congr ?_
    cases d <;> cases d' <;> simp [Frame.fill, mk]
  | @outer d c e e' s s' fs t =>
    refine inorder_plug_congr ?_
    cases d <;> simp [Frame.fill, mk]
  | @inner d c ct e e' et s s' n r fs =>
    refine inorder_plug_congr ?_
    cases d <;> simp [Frame.fill, mk, Side.other]

/-- Nothing happens below a black parent. -/
theorem InsertFix.eq_of_black {f : Frame ε} {fs : List (Frame ε)} {t t' : ColorTree ε}
    (h : InsertFix (f :: fs) t t') (hf : f.color = .black) : t' = plug (f :: fs) t := by
  generalize hl : f :: fs = l at h
  cases h with
  | root => cases hl
  | blackParent => rfl
  | redUncle hc => cases hl; rw [hf] at hc; cases hc
  | outer => cases hl; cases hf
  | inner => cases hl; cases hf

/-- **The insertion fixup restores the red-black rules**, up to the colour of the root. -/
theorem InsertFix.redBlack {fs : List (Frame ε)} {t t' : ColorTree ε} {n : ℕ}
    (h : InsertFix fs t t') (hred : t.rootColor = .red) (ht : RedBlackAt t n)
    (hctx : CtxRedBlack fs n) : RedBlack (t'.paint .black) := by
  induction h generalizing n with
  | root t => exact ht.paint_black
  | blackParent hf =>
    obtain ⟨m, hm⟩ := redBlackAt_plug.mpr ⟨n, ht, hctx, fun _ => hf⟩
    exact hm.paint_black
  | @redUncle f g fs t t' hf hg _ ih =>
    cases hctx with
    | black hf' => rw [hf] at hf'; cases hf'
    | red _ hsib hsibBlack hgBlack hctx =>
      cases hctx with
      | red hg' => rw [ctxColor, hg'] at hgBlack; cases hgBlack
      | black _ huncle hctx =>
        have hparent : RedBlackAt (.mk f.side .black t f.entry f.sibling) (n + 1) :=
          redBlackAt_mk_black.mpr ⟨n, rfl, ht, hsib⟩
        have hpaint : (g.sibling.paint .black).rootColor = .black := by
          cases g.sibling <;> rfl
        exact ih (rootColor_mk ..) (redBlackAt_mk_red.mpr
          ⟨hparent, huncle.paint_red hg, rootColor_mk .., hpaint⟩) hctx
  | @outer d c e e' s s' fs t hs' =>
    cases hctx with
    | black hf' => cases hf'
    | red _ hsib hsibBlack hgBlack hctx =>
      cases hctx with
      | red hg' => rw [ctxColor, hg'] at hgBlack; cases hgBlack
      | black _ huncle hctx =>
        have hgrand : RedBlackAt (.mk d .red s e' s') n :=
          redBlackAt_mk_red.mpr ⟨hsib, huncle, hsibBlack, hs'⟩
        have hnew : RedBlackAt (.mk d .black t e (.mk d .red s e' s')) (n + 1) :=
          redBlackAt_mk_black.mpr ⟨n, rfl, ht, hgrand⟩
        obtain ⟨m, hm⟩ := redBlackAt_plug.mpr ⟨n + 1, hnew, hctx, fun hr => by simp at hr⟩
        exact hm.paint_black
  | @inner d c ct e e' et s s' near far fs hs' =>
    rw [rootColor_mk] at hred
    subst hred
    obtain ⟨hnear, hfar, hnearBlack, hfarBlack⟩ := redBlackAt_mk_red.mp ht
    cases hctx with
    | black hf' => cases hf'
    | red _ hsib hsibBlack hgBlack hctx =>
      cases hctx with
      | red hg' => rw [ctxColor, hg'] at hgBlack; cases hgBlack
      | black _ huncle hctx =>
        have hparent : RedBlackAt (.mk d .red s e near) n :=
          redBlackAt_mk_red.mpr ⟨hsib, hnear, hsibBlack, hnearBlack⟩
        have hgrand : RedBlackAt (.mk d .red far e' s') n :=
          redBlackAt_mk_red.mpr ⟨hfar, huncle, hfarBlack, hs'⟩
        have hnew : RedBlackAt (.mk d .black (.mk d .red s e near) et (.mk d .red far e' s'))
            (n + 1) :=
          redBlackAt_mk_black.mpr ⟨n, rfl, hparent, hgrand⟩
        obtain ⟨m, hm⟩ := redBlackAt_plug.mpr ⟨n + 1, hnew, hctx, fun hr => by simp at hr⟩
        exact hm.paint_black

end Tree

variable {α : Type} {set : VlSet α} {d : Side} {fs : List (Frame (VlPoolIdx × α))}
  {f g : Frame (VlPoolIdx × α)} {t : ColorTree (VlPoolIdx × α)}

/-- A red uncle: three recolourings. -/
private theorem vlSetInsertRecolor_spec (hset : set.Layout (plug (f :: g :: fs) t))
    (huncle : g.sibling.rootColor = .red) :
    Returns (vlSetInsertRecolor set (some f.iter) g.sibling.root (some g.iter)) fun r =>
      r.1 = some g.iter ∧ r.2.Twin set ∧
      r.2.Layout (plug fs (.mk g.side .red (.mk f.side .black t f.entry f.sibling) g.entry
        (g.sibling.paint .black))) := by
  rw [vlSetInsertRecolor]
  have h₀ : set.Layout (plug (g :: fs) (.mk f.side f.color t f.entry f.sibling)) := hset
  refine (VlSet.setColor_spec h₀ .black).bind fun s₁ ⟨h₁, htwin₁⟩ => ?_
  rw [← plug_turn] at h₁
  obtain ⟨w, hw⟩ : ∃ w, g.sibling.root = some w := by
    cases hsib : g.sibling with
    | nil => rw [hsib] at huncle; cases huncle
    | node c l e r => exact ⟨e.1, rfl⟩
  have hpaint := VlSet.paint_spec h₁ .black
  rw [hw] at hpaint ⊢
  refine hpaint.bind fun s₂ ⟨h₂, htwin₂⟩ => ?_
  rw [plug_cons] at h₂
  refine (VlSet.setColor_spec h₂ .red).bind fun s₃ ⟨h₃, htwin₃⟩ => ?_
  simp only [Frame.turn, mk_other] at h₃
  have hparent : s₃.Layout (plug (⟨g.side, .red, g.entry, g.sibling.paint .black⟩ :: fs)
      (.mk f.side .black t f.entry f.sibling)) := h₃
  have hf : s₃.heap f.iter = some (.of f.side .black (some g.iter) t.root f.sibling.root
      f.entry.2) := hparent.heap_focus
  rw [VlSet.node_some hf, ok_bind, LinkNode.parent_of]
  exact returns_ok ⟨rfl, htwin₃.trans (htwin₂.trans htwin₁), h₃⟩

/-- A node on the outer side of its parent stays where it is. -/
private theorem vlSetInsertStraighten_outer (hset : set.Layout (plug (f :: fs) t))
    (ht : t ≠ .nil) (g : Option VlPoolIdx) :
    vlSetInsertStraighten f.side set t.root (some f.iter) g = .ok (t.root, some f.iter, g, set) := by
  have hf : set.heap f.iter = some (.of f.side f.color (ctxParent fs) t.root f.sibling.root
      f.entry.2) := VlSet.Layout.heap_focus hset
  rw [vlSetInsertStraighten, VlSet.node_some hf, ok_bind, LinkNode.child_other_of,
    if_neg (hset.root_ne_sibling ht)]
  rfl

/-- A node on the inner side of its parent is rotated above it. -/
private theorem vlSetInsertStraighten_inner {c ct : Color} {e et : VlPoolIdx × α}
    {s n r : ColorTree (VlPoolIdx × α)}
    (hset : set.Layout (plug (⟨d.other, c, e, s⟩ :: g :: fs) (.mk d ct n et r))) :
    Returns (vlSetInsertStraighten d set (some et.1) (some e.1) (some g.iter)) fun q =>
      q.1 = some e.1 ∧ q.2.1 = some et.1 ∧ q.2.2.1 = some g.iter ∧ q.2.2.2.Twin set ∧
      q.2.2.2.Layout (plug (g :: fs) (.mk d ct (.mk d c s e n) et r)) := by
  have hx : set.heap et.1 = some (.of d ct (some e.1) n.root r.root et.2) :=
    VlSet.Layout.heap_focus hset
  rw [plug_cons] at hset
  simp only [Frame.fill, mk_other] at hset
  have he := VlSet.Layout.heap_focus hset
  rw [vlSetInsertStraighten, VlSet.node_some he, ok_bind, LinkNode.child_other_of, root_mk,
    if_pos rfl, VlSet.node_some hx, ok_bind, LinkNode.parent_of]
  refine (vlSetTreeRotate_spec hset).bind ?_
  rintro s' ⟨h', htwin⟩
  have hnear : s'.Layout (plug (⟨d, ct, et, r⟩ :: g :: fs) (.mk d c s e n)) := h'
  have he' : s'.heap e.1 = some (.of d c (some et.1) s.root n.root e.2) := hnear.heap_focus
  have hx' := VlSet.Layout.heap_focus h'
  rw [VlSet.node_some he', ok_bind, LinkNode.parent_of, VlSet.node_some hx', ok_bind,
    LinkNode.parent_of]
  exact returns_ok ⟨rfl, rfl, rfl, htwin, h'⟩

/-- The recolouring and the rotation that end the loop. -/
private theorem vlSetInsertRotate_spec {c c' : Color} {e e' : VlPoolIdx × α}
    {x y u : ColorTree (VlPoolIdx × α)}
    (hset : set.Layout (plug (⟨d, c', e', u⟩ :: fs) (.mk d c x e y))) :
    Returns (vlSetInsertRotate d set (some e.1) (some e'.1)) fun s' =>
      s'.Layout (plug fs (.mk d .black x e (.mk d .red y e' u))) ∧ s'.Twin set := by
  rw [vlSetInsertRotate]
  refine (VlSet.setColor_spec hset .black).bind fun s₁ ⟨h₁, htwin₁⟩ => ?_
  rw [plug_cons] at h₁
  refine (VlSet.setColor_spec h₁ .red).bind fun s₂ ⟨h₂, htwin₂⟩ => ?_
  have hparent : s₂.Layout (plug (⟨d, .red, e', u⟩ :: fs) (.mk d .black x e y)) := h₂
  have he : s₂.heap e.1 = some (.of d .black (some e'.1) x.root y.root e.2) := hparent.heap_focus
  rw [VlSet.node_some he, ok_bind, LinkNode.parent_of]
  -- seen from the other side, the rotation is the one of the specification
  have hflip : s₂.Layout (plug fs (.mk d.other .red u e' (.mk d.other .black y e x))) := by
    rw [mk_other, mk_other]
    exact h₂
  refine (vlSetTreeRotate_spec hflip).mono fun s₃ ⟨h₃, htwin₃⟩ => ⟨?_, ?_⟩
  · rwa [mk_other, mk_other] at h₃
  · exact htwin₃.trans (htwin₂.trans htwin₁)

/-- One round below a red parent moves the focus up, or ends with a black parent. -/
private theorem vlSetInsertFixupRound_spec (hset : set.Layout (plug (f :: g :: fs) t))
    (ht : t ≠ .nil) (hf : f.color = .red) (hroot : ctxRootColor (f :: g :: fs) = .black) :
    Returns (vlSetInsertFixupRound g.side set t.root (some f.iter) (some g.iter)) fun r =>
      ∃ fs' t', r.1 = t'.root ∧ t' ≠ .nil ∧ r.2.Layout (plug fs' t') ∧ r.2.Twin set ∧
        fs'.length ≤ fs.length + 1 ∧ ctxRootColor fs' = .black ∧
        ∀ t'', InsertFix fs' t' t'' → InsertFix (f :: g :: fs) t t'' := by
  have hg : set.heap g.iter = some (.of g.side g.color (ctxParent fs) (some f.iter)
      g.sibling.root g.entry.2) := by
    rw [plug_cons] at hset
    rw [hset.heap_frame, Frame.fill, root_mk]
    rfl
  have hfs : ctxRootColor fs = .black := by
    cases fs with
    | nil => rfl
    | cons k fs => exact hroot
  rw [vlSetInsertFixupRound, VlSet.node_some hg, ok_bind, LinkNode.child_other_of]
  have huncle : set.colorAt g.sibling.root = g.sibling.rootColor := by
    rw [plug_cons, ← plug_turn] at hset
    exact hset.colorAt
  dsimp only
  rw [huncle]
  split_ifs with hred
  · refine (vlSetInsertRecolor_spec hset hred).mono ?_
    rintro r ⟨hr, htwin, hlay⟩
    refine ⟨fs, _, hr.trans root_mk.symm, mk_ne_nil, hlay, htwin, Nat.le_succ _, hfs, ?_⟩
    exact fun t'' h => .redUncle hf hred h
  · have hblack : g.sibling.rootColor = .black := by
      cases h : g.sibling.rootColor with
      | red => exact absurd h hred
      | black => rfl
    -- the frame the loop ends below is black, so nothing happens there
    have hend : ∀ {e : VlPoolIdx × α} {u t' t'' : ColorTree (VlPoolIdx × α)},
        InsertFix (⟨g.side, .black, e, u⟩ :: fs) t' t'' →
        t'' = plug (⟨g.side, .black, e, u⟩ :: fs) t' := by
      intro e u t' t'' h
      exact h.eq_of_black rfl
    have htop : ∀ {e : VlPoolIdx × α} {u : ColorTree (VlPoolIdx × α)},
        ctxRootColor (⟨g.side, .black, e, u⟩ :: fs) = .black := by
      intro e u
      cases fs with
      | nil => rfl
      | cons k fs => exact hfs
    obtain ⟨df, cf, ef, sf⟩ := f
    obtain ⟨d, c, e, s⟩ := g
    obtain rfl : cf = .red := hf
    rcases Side.eq_or_eq_other d df with rfl | rfl
    · rw [vlSetInsertStraighten_outer hset ht, ok_bind]
      rw [plug_cons] at hset
      refine (vlSetInsertRotate_spec hset).bind ?_
      rintro s' ⟨h', htwin⟩
      refine returns_ok ⟨⟨df, .black, ef, _⟩ :: fs, t, rfl, ht, h', htwin, le_rfl, htop, fun t'' h => ?_⟩
      obtain rfl := hend h
      exact .outer hblack
    · rcases eq_nil_or_mk d t with rfl | ⟨ct, n, et, r, rfl⟩
      · exact absurd rfl ht
      · rw [root_mk]
        refine (vlSetInsertStraighten_inner hset).bind ?_
        rintro ⟨x, p, g, s'⟩ ⟨rfl, rfl, rfl, htwin', h'⟩
        refine (vlSetInsertRotate_spec h').bind ?_
        rintro s'' ⟨h'', htwin''⟩
        refine returns_ok ⟨⟨d, .black, et, _⟩ :: fs, .mk d .red sf ef n, root_mk.symm, mk_ne_nil, h'',
          htwin''.trans htwin', le_rfl, htop, fun t'' h => ?_⟩
        obtain rfl := hend h
        exact .inner hblack

/-- **The fixup loop of `vlSetInsert`** returns, with the nodes linked as `InsertFix` says. -/
theorem vlSetInsertFixup_spec (fuel : ℕ) (hset : set.Layout (plug fs t)) (ht : t ≠ .nil)
    (hroot : ctxRootColor fs = .black) (hfuel : fs.length < fuel) :
    Returns (vlSetInsertFixup fuel set t.root) fun s' =>
      ∃ t', InsertFix fs t t' ∧ s'.Layout t' ∧ s'.Twin set := by
  induction fuel generalizing set fs t with
  | zero => exact absurd hfuel (Nat.not_lt_zero _)
  | succ fuel ih =>
    rw [vlSetInsertFixup]
    cases fs with
    | nil =>
      have htop : t.root = set.root := hset.root_eq.symm
      rw [if_pos htop]
      exact returns_ok ⟨t, .root t, hset, .refl set⟩
    | cons f fs =>
      rw [if_neg (hset.root_ne_top ht)]
      have hf := hset.heap_frame
      obtain ⟨c, l, e, r, rfl⟩ : ∃ c l e r, t = .mk .left c l e r := by
        rcases eq_nil_or_mk .left t with rfl | h
        · exact absurd rfl ht
        · exact h
      rw [root_mk, VlSet.node_some hset.heap_focus, ok_bind, LinkNode.parent_of, ctxParent_cons,
        VlSet.node_some hf, ok_bind, LinkNode.color_of]
      cases hc : f.color with
      | black => exact returns_ok ⟨_, .blackParent hc, hset, .refl set⟩
      | red =>
        rw [if_neg (by simp), LinkNode.parent_of]
        cases fs with
        | nil => rw [ctxRootColor, hc] at hroot; cases hroot
        | cons g fs =>
          have hg : set.heap g.iter = some (.of g.side g.color (ctxParent fs) (some f.iter)
              g.sibling.root g.entry.2) := by
            rw [plug_cons] at hset
            rw [hset.heap_frame, Frame.fill, root_mk]
            rfl
          have hne : g.sibling.root ≠ some f.iter := by
            rw [plug_cons] at hset
            simpa [Frame.fill, Frame.iter] using (hset.root_ne_sibling (mk_ne_nil)).symm
          rw [ctxParent_cons, VlSet.node_some hg, ok_bind, LinkNode.side_of hne]
          refine (vlSetInsertFixupRound_spec hset ht hc hroot).bind ?_
          rintro ⟨x, s'⟩ ⟨fs', t', rfl, ht', hlay', htwin', hlen, hroot', hfix⟩
          have hrounds : fs'.length < fuel := by
            simp only [List.length_cons] at hfuel
            omega
          refine (ih hlay' ht' hroot' hrounds).mono ?_
          rintro s'' ⟨t'', hfix'', hlay'', htwin''⟩
          exact ⟨t'', hfix t'' hfix'', hlay'', htwin''.trans htwin'⟩

end VeritableLasagna
