import Mathlib

/-!
# Coloured binary trees with a focus

A `ColorTree` is a binary tree with a colour at every node. A position in a tree is a list of
`Frame`s, innermost first: each frame is an ancestor together with the subtree the path leaves
aside, and `plug` closes the frames around a focused subtree. Algorithms on trees with parent
pointers walk such positions, and their left and right cases are mirror images; `ColorTree.mk`
builds a node from its child on a given `Side` and its child on the other, so that one statement
serves both.

The second half is the red-black discipline. `RedBlackAt t n` says that `t` has no red node with
a red child and that every path to a missing child crosses `n` black nodes; `CtxRedBlack` is the
same for the frames around a focus, and `redBlackAt_plug` puts the two together.
-/

namespace VeritableLasagna

inductive Color
  | red
  | black
  deriving DecidableEq, Repr

inductive Side
  | left
  | right
  deriving DecidableEq, Repr

/-- The opposite side. -/
def Side.other : Side → Side
  | .left => .right
  | .right => .left

@[simp] theorem Side.other_other (d : Side) : d.other.other = d := by cases d <;> rfl

@[simp] theorem Side.other_ne (d : Side) : d.other ≠ d := by cases d <;> decide

@[simp] theorem Side.ne_other (d : Side) : d ≠ d.other := by cases d <;> decide

theorem Side.eq_or_eq_other (d e : Side) : e = d ∨ e = d.other := by
  cases d <;> cases e <;> decide

inductive ColorTree (ε : Type*)
  | nil
  | node (color : Color) (left : ColorTree ε) (entry : ε) (right : ColorTree ε)
  deriving DecidableEq, Repr

namespace ColorTree

variable {ε : Type*}

/-- A node given by its subtree on side `d`, its entry and its subtree on the other side. -/
def mk (d : Side) (c : Color) (near : ColorTree ε) (e : ε) (far : ColorTree ε) : ColorTree ε :=
  match d with
  | .left => .node c near e far
  | .right => .node c far e near

theorem mk_other (d : Side) (c : Color) (n : ColorTree ε) (e : ε) (f : ColorTree ε) :
    mk d.other c n e f = mk d c f e n := by cases d <;> rfl

@[simp] theorem mk_ne_nil {d : Side} {c : Color} {n : ColorTree ε} {e : ε} {f : ColorTree ε} :
    mk d c n e f ≠ .nil := by cases d <;> simp [mk]

/-- Every tree is missing or a node, seen from either side. -/
theorem eq_nil_or_mk (d : Side) (t : ColorTree ε) :
    t = .nil ∨ ∃ c n e f, t = mk d c n e f := by
  cases t with
  | nil => exact Or.inl rfl
  | node c l e r =>
    cases d with
    | left => exact Or.inr ⟨c, l, e, r, rfl⟩
    | right => exact Or.inr ⟨c, r, e, l, rfl⟩

/-- The entries from left to right. -/
def inorder : ColorTree ε → List ε
  | .nil => []
  | .node _ l e r => l.inorder ++ e :: r.inorder

@[simp] theorem inorder_nil : (nil : ColorTree ε).inorder = [] := rfl

@[simp] theorem inorder_node (c : Color) (l : ColorTree ε) (e : ε) (r : ColorTree ε) :
    (node c l e r).inorder = l.inorder ++ e :: r.inorder := rfl

/-- The entries of a node only depend on those of its children. -/
theorem inorder_mk_congr {d : Side} {c c' : Color} {n n' : ColorTree ε} {e : ε}
    {f f' : ColorTree ε} (hn : n'.inorder = n.inorder) (hf : f'.inorder = f.inorder) :
    (mk d c' n' e f').inorder = (mk d c n e f).inorder := by
  cases d <;> simp [mk, hn, hf]

theorem inorder_near_sublist (d : Side) (c : Color) (n : ColorTree ε) (e : ε) (f : ColorTree ε) :
    n.inorder.Sublist (mk d c n e f).inorder := by
  cases d <;> simp [mk]

/-- A rotation keeps the entries. -/
theorem inorder_rotate (d : Side) (cx cy cx' cy' : Color) (a : ColorTree ε) (x : ε)
    (b : ColorTree ε) (y : ε) (c : ColorTree ε) :
    (mk d cy' (mk d cx' a x b) y c).inorder = (mk d cx a x (mk d cy b y c)).inorder := by
  cases d <;> simp [mk]

/-- The entries in the order that starts on side `d`. -/
def along (d : Side) (t : ColorTree ε) : List ε :=
  match d with
  | .left => t.inorder
  | .right => t.inorder.reverse

@[simp] theorem along_nil (d : Side) : (nil : ColorTree ε).along d = [] := by cases d <;> rfl

theorem along_mk (d : Side) (c : Color) (n : ColorTree ε) (e : ε) (f : ColorTree ε) :
    (mk d c n e f).along d = n.along d ++ e :: f.along d := by
  cases d <;> simp [mk, along]

theorem mem_along {d : Side} {t : ColorTree ε} {e : ε} : e ∈ t.along d ↔ e ∈ t.inorder := by
  cases d <;> simp [along]

/-- The number of nodes. -/
def size (t : ColorTree ε) : ℕ := t.inorder.length

@[simp] theorem size_nil : (nil : ColorTree ε).size = 0 := rfl

theorem size_mk (d : Side) (c : Color) (n : ColorTree ε) (e : ε) (f : ColorTree ε) :
    (mk d c n e f).size = n.size + f.size + 1 := by
  cases d <;> simp only [mk, size, inorder_node, List.length_append, List.length_cons] <;> omega

/-- The number of nodes on the longest path from the root. -/
def height : ColorTree ε → ℕ
  | .nil => 0
  | .node _ l _ r => max l.height r.height + 1

/-- The colour of the root; a missing node counts as black. -/
def rootColor : ColorTree ε → Color
  | .nil => .black
  | .node c _ _ _ => c

@[simp] theorem rootColor_mk (d : Side) (c : Color) (n : ColorTree ε) (e : ε) (f : ColorTree ε) :
    (mk d c n e f).rootColor = c := by cases d <;> rfl

/-- Recolour the root. -/
def paint (c : Color) : ColorTree ε → ColorTree ε
  | .nil => .nil
  | .node _ l e r => .node c l e r

@[simp] theorem paint_nil (c : Color) : (nil : ColorTree ε).paint c = .nil := rfl

@[simp] theorem paint_mk (d : Side) (c c' : Color) (n : ColorTree ε) (e : ε) (f : ColorTree ε) :
    (mk d c n e f).paint c' = mk d c' n e f := by cases d <;> rfl

@[simp] theorem inorder_paint (c : Color) (t : ColorTree ε) :
    (t.paint c).inorder = t.inorder := by cases t <;> rfl

end ColorTree

open ColorTree

/-! ### Positions -/

/-- An ancestor of a focus: the side on which the focus hangs, the ancestor's colour and entry,
and its subtree on the other side. -/
structure Frame (ε : Type*) where
  side : Side
  color : Color
  entry : ε
  sibling : ColorTree ε

variable {ε : Type*}

/-- The node of a frame, with the focus put in its place. -/
def Frame.fill (f : Frame ε) (t : ColorTree ε) : ColorTree ε :=
  ColorTree.mk f.side f.color t f.entry f.sibling

/-- Close the frames around a focus, innermost frame first. -/
def plug : List (Frame ε) → ColorTree ε → ColorTree ε
  | [], t => t
  | f :: fs, t => plug fs (f.fill t)

@[simp] theorem plug_nil (t : ColorTree ε) : plug [] t = t := rfl

@[simp] theorem plug_cons (f : Frame ε) (fs : List (Frame ε)) (t : ColorTree ε) :
    plug (f :: fs) t = plug fs (f.fill t) := rfl

/-- The frame of the sibling, with the focus `t` left aside instead. -/
def Frame.turn (f : Frame ε) (t : ColorTree ε) : Frame ε := ⟨f.side.other, f.color, f.entry, t⟩

/-- Moving the focus to the sibling. -/
theorem plug_turn (f : Frame ε) (fs : List (Frame ε)) (t : ColorTree ε) :
    plug (f.turn t :: fs) f.sibling = plug (f :: fs) t := by
  simp only [plug_cons, Frame.fill, Frame.turn, mk_other]

theorem plug_append (fs gs : List (Frame ε)) (t : ColorTree ε) :
    plug (fs ++ gs) t = plug gs (plug fs t) := by
  induction fs generalizing t with
  | nil => rfl
  | cons f fs ih => exact ih _

/-- What a frame puts before the focus, in the order that starts on side `d`. -/
def Frame.before (d : Side) (f : Frame ε) : List ε :=
  if f.side = d then [] else f.sibling.along d ++ [f.entry]

/-- What a frame puts after the focus, in the order that starts on side `d`. -/
def Frame.after (d : Side) (f : Frame ε) : List ε :=
  if f.side = d then f.entry :: f.sibling.along d else []

/-- The entries before the focus. -/
def entriesBefore (d : Side) : List (Frame ε) → List ε
  | [] => []
  | f :: fs => entriesBefore d fs ++ f.before d

/-- The entries after the focus. -/
def entriesAfter (d : Side) : List (Frame ε) → List ε
  | [] => []
  | f :: fs => f.after d ++ entriesAfter d fs

theorem entriesBefore_append (d : Side) (fs gs : List (Frame ε)) :
    entriesBefore d (fs ++ gs) = entriesBefore d gs ++ entriesBefore d fs := by
  induction fs with
  | nil => simp [entriesBefore]
  | cons f fs ih => rw [List.cons_append, entriesBefore, entriesBefore, ih, List.append_assoc]

/-- The first entry of a tree, at a focus. -/
theorem exists_plug_first (d : Side) {t : ColorTree ε} (ht : t ≠ .nil) :
    ∃ fs c e f, t = plug fs (.mk d c .nil e f) ∧ entriesBefore d fs = [] := by
  induction t with
  | nil => exact absurd rfl ht
  | node c l e r ihl ihr =>
    cases d with
    | left =>
      by_cases hl : l = .nil
      · exact ⟨[], c, e, r, by rw [hl]; rfl, rfl⟩
      · obtain ⟨fs, c', e', f, rfl, hfs⟩ := ihl hl
        refine ⟨fs ++ [⟨.left, c, e, r⟩], c', e', f, by rw [plug_append]; rfl, ?_⟩
        rw [entriesBefore_append, hfs]
        rfl
    | right =>
      by_cases hr : r = .nil
      · exact ⟨[], c, e, l, by rw [hr]; rfl, rfl⟩
      · obtain ⟨fs, c', e', f, rfl, hfs⟩ := ihr hr
        refine ⟨fs ++ [⟨.right, c, e, l⟩], c', e', f, by rw [plug_append]; rfl, ?_⟩
        rw [entriesBefore_append, hfs]
        rfl

theorem along_fill (d : Side) (f : Frame ε) (t : ColorTree ε) :
    (f.fill t).along d = f.before d ++ (t.along d ++ f.after d) := by
  obtain ⟨d', c, e, s⟩ := f
  rcases Side.eq_or_eq_other d d' with rfl | rfl
  · rw [Frame.fill, along_mk, Frame.before, Frame.after, if_pos rfl, if_pos rfl, List.nil_append]
  · simp [Frame.fill, mk_other, along_mk, Frame.before, Frame.after]

/-- A tree split at a focus, read from side `d`. -/
theorem along_plug (d : Side) (fs : List (Frame ε)) (t : ColorTree ε) :
    (plug fs t).along d = entriesBefore d fs ++ (t.along d ++ entriesAfter d fs) := by
  induction fs generalizing t with
  | nil => simp [entriesBefore, entriesAfter]
  | cons f fs ih =>
    rw [plug_cons, ih, along_fill, entriesBefore, entriesAfter]
    simp only [List.append_assoc]

theorem inorder_plug (fs : List (Frame ε)) (t : ColorTree ε) :
    (plug fs t).inorder = entriesBefore .left fs ++ (t.inorder ++ entriesAfter .left fs) :=
  along_plug .left fs t

/-- Replacing the focus by a subtree with the same entries keeps the entries. -/
theorem inorder_plug_congr {fs : List (Frame ε)} {t t' : ColorTree ε}
    (h : t'.inorder = t.inorder) : (plug fs t').inorder = (plug fs t).inorder := by
  rw [inorder_plug, inorder_plug, h]

/-- Every node of a tree is the root of a focus. -/
theorem exists_plug_of_mem (d : Side) {t : ColorTree ε} {e : ε} (h : e ∈ t.inorder) :
    ∃ fs c n f, t = plug fs (.mk d c n e f) := by
  induction t with
  | nil => cases h
  | node c l e' r ihl ihr =>
    simp only [inorder_node, List.mem_append, List.mem_cons] at h
    rcases h with h | rfl | h
    · obtain ⟨fs, c₁, n, f, rfl⟩ := ihl h
      exact ⟨fs ++ [⟨.left, c, e', r⟩], c₁, n, f, by rw [plug_append]; rfl⟩
    · cases d with
      | left => exact ⟨[], c, l, r, rfl⟩
      | right => exact ⟨[], c, r, l, rfl⟩
    · obtain ⟨fs, c₁, n, f, rfl⟩ := ihr h
      exact ⟨fs ++ [⟨.right, c, e', l⟩], c₁, n, f, by rw [plug_append]; rfl⟩

theorem length_add_size_le (fs : List (Frame ε)) (t : ColorTree ε) :
    fs.length + t.size ≤ (plug fs t).size := by
  induction fs generalizing t with
  | nil => simp
  | cons f fs ih =>
    have hfill : t.size + 1 ≤ (f.fill t).size := by
      obtain ⟨d, c, e, s⟩ := f
      cases d <;> simp [Frame.fill, ColorTree.mk, size]
    have := ih (f.fill t)
    simp only [plug_cons, List.length_cons]
    omega

/-! ### The red-black discipline -/

/-- No red node with a red child, and `n` black nodes on every path to a missing child. -/
inductive RedBlackAt : ColorTree ε → ℕ → Prop
  | nil : RedBlackAt .nil 0
  | red {l r : ColorTree ε} {e : ε} {n : ℕ} : RedBlackAt l n → RedBlackAt r n →
      l.rootColor = .black → r.rootColor = .black → RedBlackAt (.node .red l e r) n
  | black {l r : ColorTree ε} {e : ε} {n : ℕ} : RedBlackAt l n → RedBlackAt r n →
      RedBlackAt (.node .black l e r) (n + 1)

/-- A **red-black tree**: black at the root, and red-black below. -/
def RedBlack (t : ColorTree ε) : Prop := t.rootColor = .black ∧ ∃ n, RedBlackAt t n

theorem redBlackAt_mk_red {d : Side} {near far : ColorTree ε} {e : ε} {n : ℕ} :
    RedBlackAt (mk d .red near e far) n ↔ RedBlackAt near n ∧ RedBlackAt far n ∧
      near.rootColor = .black ∧ far.rootColor = .black := by
  cases d
  · exact ⟨fun | .red h₁ h₂ h₃ h₄ => ⟨h₁, h₂, h₃, h₄⟩, fun ⟨h₁, h₂, h₃, h₄⟩ => .red h₁ h₂ h₃ h₄⟩
  · exact ⟨fun | .red h₁ h₂ h₃ h₄ => ⟨h₂, h₁, h₄, h₃⟩, fun ⟨h₁, h₂, h₃, h₄⟩ => .red h₂ h₁ h₄ h₃⟩

theorem redBlackAt_mk_black {d : Side} {near far : ColorTree ε} {e : ε} {n : ℕ} :
    RedBlackAt (mk d .black near e far) n ↔
      ∃ m, n = m + 1 ∧ RedBlackAt near m ∧ RedBlackAt far m := by
  cases d
  · exact ⟨fun | .black h₁ h₂ => ⟨_, rfl, h₁, h₂⟩, fun ⟨m, hn, h₁, h₂⟩ => hn ▸ .black h₁ h₂⟩
  · exact ⟨fun | .black h₁ h₂ => ⟨_, rfl, h₂, h₁⟩, fun ⟨m, hn, h₁, h₂⟩ => hn ▸ .black h₂ h₁⟩

/-- The black height of a red-black tree, `none` where the rules are broken. -/
def ColorTree.blackHeight? : ColorTree ε → Option ℕ
  | .nil => some 0
  | .node .red l _ r =>
    if l.blackHeight? = r.blackHeight? ∧ l.rootColor = .black ∧ r.rootColor = .black then
      l.blackHeight?
    else none
  | .node .black l _ r =>
    if l.blackHeight? = r.blackHeight? then l.blackHeight?.map (· + 1) else none

theorem redBlackAt_iff {t : ColorTree ε} {n : ℕ} : RedBlackAt t n ↔ t.blackHeight? = some n := by
  constructor
  · intro h
    induction h with
    | nil => rfl
    | red _ _ hl hr ihl ihr => rw [blackHeight?, ihl, ihr, if_pos ⟨rfl, hl, hr⟩]
    | black _ _ ihl ihr => rw [blackHeight?, ihl, ihr, if_pos rfl, Option.map_some]
  · intro h
    induction t generalizing n with
    | nil =>
      obtain rfl := Option.some.inj h
      exact .nil
    | node c l e r ihl ihr =>
      cases c with
      | red =>
        rw [blackHeight?] at h
        split_ifs at h with hcond
        exact .red (ihl h) (ihr (hcond.1 ▸ h)) hcond.2.1 hcond.2.2
      | black =>
        rw [blackHeight?] at h
        split_ifs at h with hcond
        obtain ⟨m, hm, rfl⟩ := Option.map_eq_some_iff.mp h
        exact .black (ihl hm) (ihr (hcond ▸ hm))

instance (t : ColorTree ε) : Decidable (RedBlack t) :=
  decidable_of_iff (t.rootColor = .black ∧ t.blackHeight?.isSome = true) <| by
    simp only [RedBlack, redBlackAt_iff, Option.isSome_iff_exists]

/-- The black height of a tree is unique. -/
theorem RedBlackAt.unique {t : ColorTree ε} {n m : ℕ} (hn : RedBlackAt t n)
    (hm : RedBlackAt t m) : n = m := by
  induction hn generalizing m with
  | nil => cases hm; rfl
  | red _ _ _ _ ih _ =>
    cases hm with
    | red hl => exact ih hl
  | black _ _ ih _ =>
    cases hm with
    | black hl => rw [ih hl]

/-- Painting a red root black adds one black node to every path. -/
theorem RedBlackAt.paint_red {t : ColorTree ε} {n : ℕ} (h : RedBlackAt t n)
    (hred : t.rootColor = .red) : RedBlackAt (t.paint .black) (n + 1) := by
  cases h with
  | nil => cases hred
  | red hl hr => exact .black hl hr
  | black => cases hred

/-- A tree that is red-black below its root is a red-black tree once its root is painted. -/
theorem RedBlackAt.paint_black {t : ColorTree ε} {n : ℕ} (h : RedBlackAt t n) :
    RedBlack (t.paint .black) := by
  cases h with
  | nil => exact ⟨rfl, 0, .nil⟩
  | red hl hr => exact ⟨rfl, n + 1, .black hl hr⟩
  | black hl hr => exact ⟨rfl, _, .black hl hr⟩

/-- **Height bound**: a tree of black height `n` has at least `2 ^ n - 1` nodes and height at
most `2 * n`, one more below a red root. -/
theorem RedBlackAt.bounds {t : ColorTree ε} {n : ℕ} (h : RedBlackAt t n) :
    2 ^ n ≤ t.size + 1 ∧ t.height ≤ 2 * n + 1 ∧ (t.rootColor = .black → t.height ≤ 2 * n) := by
  induction h with
  | nil => simp [size, height]
  | red _ _ hl hr ihl ihr =>
    have hheightl := ihl.2.2 hl
    have hheightr := ihr.2.2 hr
    simp only [size, inorder_node, List.length_append, List.length_cons, height, rootColor,
      reduceCtorEq, false_implies, and_true] at ihl ⊢
    omega
  | black _ _ ihl ihr =>
    simp only [size, inorder_node, List.length_append, List.length_cons, height, rootColor,
      true_implies, pow_succ] at ihl ihr ⊢
    omega

/-- The worst case of a red-black tree: a height of at most `2 * log2 (size + 1)`. -/
theorem RedBlack.height_le {t : ColorTree ε} (h : RedBlack t) :
    t.height ≤ 2 * Nat.log 2 (t.size + 1) := by
  obtain ⟨hroot, n, hn⟩ := h
  obtain ⟨hsize, -, hheight⟩ := hn.bounds
  have hlog : n ≤ Nat.log 2 (t.size + 1) := Nat.le_log_of_pow_le (by decide) hsize
  have := hheight hroot
  omega

/-- The colour of the parent of a focus; above the root it counts as black. -/
def ctxColor : List (Frame ε) → Color
  | [] => .black
  | f :: _ => f.color

/-- The colour of the root of a context; a context without frames counts as black. -/
def ctxRootColor : List (Frame ε) → Color
  | [] => .black
  | [f] => f.color
  | _ :: g :: fs => ctxRootColor (g :: fs)

theorem rootColor_plug_cons (f : Frame ε) (fs : List (Frame ε)) (t : ColorTree ε) :
    (plug (f :: fs) t).rootColor = ctxRootColor (f :: fs) := by
  induction fs generalizing f t with
  | nil => exact rootColor_mk ..
  | cons g fs ih => exact ih g _

/-- The frames around a focus are red-black when the focus is black, of black height `n`. -/
inductive CtxRedBlack : List (Frame ε) → ℕ → Prop
  | top (n : ℕ) : CtxRedBlack [] n
  | red {f : Frame ε} {fs : List (Frame ε)} {n : ℕ} : f.color = .red →
      RedBlackAt f.sibling n → f.sibling.rootColor = .black → ctxColor fs = .black →
      CtxRedBlack fs n → CtxRedBlack (f :: fs) n
  | black {f : Frame ε} {fs : List (Frame ε)} {n : ℕ} : f.color = .black →
      RedBlackAt f.sibling n → CtxRedBlack fs (n + 1) → CtxRedBlack (f :: fs) n

/-- The red-black rules do not read the entries of the frames. -/
theorem CtxRedBlack.rename {gs fs : List (Frame ε)} {d : Side} {c : Color} {e e' : ε}
    {s : ColorTree ε} {n : ℕ} (h : CtxRedBlack (gs ++ ⟨d, c, e, s⟩ :: fs) n) :
    CtxRedBlack (gs ++ ⟨d, c, e', s⟩ :: fs) n := by
  induction gs generalizing n with
  | nil =>
    cases h with
    | red hc hs hsb hfs h => exact .red hc hs hsb hfs h
    | black hc hs h => exact .black hc hs h
  | cons g gs ih =>
    cases h with
    | red hc hs hsb hfs h =>
      refine .red hc hs hsb ?_ (ih h)
      cases gs with
      | nil => exact hfs
      | cons k gs => exact hfs
    | black hc hs h => exact .black hc hs (ih h)

/-- A tree is red-black when the focus and the frames around it are, and no red node of the
focus meets a red parent. -/
theorem redBlackAt_plug {fs : List (Frame ε)} {t : ColorTree ε} :
    (∃ n, RedBlackAt (plug fs t) n) ↔
      ∃ n, RedBlackAt t n ∧ CtxRedBlack fs n ∧ (t.rootColor = .red → ctxColor fs = .black) := by
  induction fs generalizing t with
  | nil =>
    constructor
    · rintro ⟨n, hn⟩
      exact ⟨n, hn, .top n, fun _ => rfl⟩
    · rintro ⟨n, hn, -⟩
      exact ⟨n, hn⟩
  | cons f fs ih =>
    obtain ⟨d, c, e, s⟩ := f
    rw [plug_cons, ih]
    cases c with
    | red =>
      constructor
      · rintro ⟨n, hn, hctx, hred⟩
        obtain ⟨ht, hs, htb, hsb⟩ := redBlackAt_mk_red.mp hn
        refine ⟨n, ht, .red rfl hs hsb (hred (rootColor_mk ..)) hctx, fun h => ?_⟩
        rw [htb] at h
        cases h
      · rintro ⟨n, ht, hctx, hred⟩
        cases hctx with
        | red _ hs hsb hc hctx =>
          have htb : t.rootColor = .black := by
            cases h : t.rootColor with
            | black => rfl
            | red => exact absurd (hred h) (by simp [ctxColor])
          exact ⟨n, redBlackAt_mk_red.mpr ⟨ht, hs, htb, hsb⟩, hctx, fun _ => hc⟩
        | black hf => cases hf
    | black =>
      constructor
      · rintro ⟨n, hn, hctx, -⟩
        obtain ⟨m, rfl, ht, hs⟩ := redBlackAt_mk_black.mp hn
        exact ⟨m, ht, .black rfl hs hctx, fun _ => rfl⟩
      · rintro ⟨n, ht, hctx, -⟩
        cases hctx with
        | red hf => cases hf
        | black _ hs hctx =>
          refine ⟨n + 1, redBlackAt_mk_black.mpr ⟨n, rfl, ht, hs⟩, hctx, fun h => ?_⟩
          rw [Frame.fill, rootColor_mk] at h
          cases h

end VeritableLasagna
