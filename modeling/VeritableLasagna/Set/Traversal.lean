import VeritableLasagna.Set.Layout
import VeritableLasagna.Lib.Comparator

/-!
# Traversal and search

On a set laid out as a tree, `vlSetFront` and `vlSetBack` find the ends of the list of entries,
`vlSetNext` and `vlSetPrev` the neighbours of an entry, and `vlSetFind` the entry the comparator
does not distinguish from an element. All of them are read off the tree at a focus: going down
follows the frames of one side (`vlSetDescend_spec`), going up leaves the frames of the other side
behind (`vlSetClimb_spec`).
-/

namespace VeritableLasagna

open ColorTree

variable {α : Type} {set : VlSet α} {fs : List (Frame (VlPoolIdx × α))}
  {f : Frame (VlPoolIdx × α)} {t : ColorTree (VlPoolIdx × α)} {d : Side}

/-- The iterator of the first entry of a list. -/
def firstIter (l : List (VlPoolIdx × α)) : Option VlPoolIdx := l.head?.map Prod.fst

@[simp] theorem firstIter_nil : firstIter ([] : List (VlPoolIdx × α)) = none := rfl

@[simp] theorem firstIter_cons (e : VlPoolIdx × α) (l : List (VlPoolIdx × α)) :
    firstIter (e :: l) = some e.1 := rfl

theorem firstIter_append {l₁ l₂ : List (VlPoolIdx × α)} (h : l₁ ≠ []) :
    firstIter (l₁ ++ l₂) = firstIter l₁ := by
  cases l₁ with
  | nil => exact absurd rfl h
  | cons e l => rfl

theorem along_ne_nil (ht : t ≠ .nil) : t.along d ≠ [] := by
  rcases eq_nil_or_mk d t with rfl | ⟨c, n, e, r, rfl⟩
  · exact absurd rfl ht
  · simp [along_mk]

theorem root_isSome (ht : t ≠ .nil) : t.root.isSome = true := by
  cases t with
  | nil => exact absurd rfl ht
  | node => rfl

/-- The frame below which the child on side `d` of a focus hangs. -/
private theorem layout_child {c : Color} {n r : ColorTree (VlPoolIdx × α)} {e : VlPoolIdx × α}
    (h : set.Layout (plug fs (.mk d c n e r))) :
    set.Layout (plug (⟨d, c, e, r⟩ :: fs) n) := h

/-- Going down on side `d` finds the first entry of a subtree. -/
theorem vlSetDescend_spec (fuel : ℕ) (h : set.Layout (plug fs t)) (ht : t ≠ .nil)
    (hfuel : t.size ≤ fuel) :
    vlSetDescend d set fuel t.root = .ok (firstIter (t.along d)) := by
  induction fuel generalizing fs t with
  | zero =>
    rcases eq_nil_or_mk .left t with rfl | ⟨c, n, e, r, rfl⟩
    · exact absurd rfl ht
    · simp [mk, size] at hfuel
  | succ fuel ih =>
    rcases eq_nil_or_mk d t with rfl | ⟨c, n, e, r, rfl⟩
    · exact absurd rfl ht
    · rw [size_mk] at hfuel
      rw [vlSetDescend, root_mk, VlSet.node_some h.heap_focus, ok_bind, LinkNode.child_of, along_mk]
      by_cases hn : n = .nil
      · rw [hn, along_nil]
        rfl
      · rw [if_pos (root_isSome hn), ih (layout_child h) hn (by omega),
          firstIter_append (along_ne_nil hn)]

/-- Where every node is there, the two loops that go down agree. -/
private theorem vlSetEdgeLoop_eq (fuel : ℕ) {cur r : Option VlPoolIdx}
    (h : vlSetDescend d set fuel cur = .ok r) : vlSetEdgeLoop d set fuel cur = .ok r := by
  induction fuel generalizing cur with
  | zero => cases h
  | succ fuel ih =>
    rw [vlSetDescend, VlSet.node] at h
    rw [vlSetEdgeLoop]
    cases hcur : vlSetGetNodeAt set cur with
    | none => rw [hcur] at h; cases h
    | some node =>
      rw [hcur, deref_some, ok_bind] at h
      dsimp only
      split_ifs at h ⊢ with hchild
      · exact ih h
      · exact h

/-- **`vlSetFront`** and **`vlSetBack`** find the ends. -/
theorem vlSetEdge_spec (h : set.Layout t) (htotal : set.totalElements = t.size) :
    vlSetEdge d set = .ok (firstIter (t.along d)) := by
  rw [vlSetEdge, h.root_eq]
  by_cases ht : t = .nil
  · rw [ht, along_nil]
    rfl
  · rw [if_neg (by simpa [root_eq_none] using ht)]
    have htop : set.Layout (plug [] t) := h
    exact vlSetEdgeLoop_eq _ (vlSetDescend_spec _ htop ht (by omega))

/-- Going up from a focus finds the first entry after it. -/
theorem vlSetClimb_spec (fuel : ℕ) (h : set.Layout (plug (f :: fs) t)) (ht : t ≠ .nil)
    (hfuel : fs.length < fuel) :
    vlSetClimb d set fuel t.root (some f.iter) = .ok (firstIter (entriesAfter d (f :: fs))) := by
  induction fuel generalizing f fs t with
  | zero => exact absurd hfuel (Nat.not_lt_zero _)
  | succ fuel ih =>
    have hne := h.root_ne_sibling ht
    have hf := h.heap_frame
    rw [vlSetClimb, VlSet.node_some hf, ok_bind, entriesAfter, Frame.after]
    rcases Side.eq_or_eq_other d f.side with hd | hd
    · rw [hd] at hf ⊢
      rw [LinkNode.child_other_of, if_neg (Ne.symm hne), if_pos rfl]
      rfl
    · rw [hd, LinkNode.of_other, LinkNode.child_other_of, if_pos rfl, LinkNode.parent_of,
        if_neg (Side.other_ne d), List.nil_append]
      cases fs with
      | nil => rfl
      | cons g fs =>
        rw [plug_cons] at h
        have hup := ih h mk_ne_nil (by simpa using hfuel)
        rw [Frame.fill, root_mk] at hup
        rw [ctxParent_cons, if_neg (by simp)]
        exact hup

/-- **`vlSetNext`** and **`vlSetPrev`** find the entry after a focus. -/
theorem vlSetAdvance_spec {c : Color} {n r : ColorTree (VlPoolIdx × α)} {e : VlPoolIdx × α}
    (h : set.Layout (plug fs (.mk d c n e r)))
    (htotal : set.totalElements = (plug fs (.mk d c n e r)).size) :
    vlSetAdvance d set (some e.1) = .ok (firstIter (r.along d ++ entriesAfter d fs)) := by
  have hsize := length_add_size_le fs (.mk d c n e r)
  rw [size_mk] at hsize
  have hfar : set.Layout (plug (⟨d.other, c, e, n⟩ :: fs) r) := by
    simpa only [plug_cons, Frame.fill, mk_other] using h
  rw [vlSetAdvance, vlSetGetNodeAt_some, h.heap_focus]
  dsimp only
  rw [LinkNode.child_other_of, LinkNode.parent_of]
  by_cases hr : r = .nil
  · rw [hr, root_nil, if_neg (by simp), along_nil, List.nil_append]
    cases fs with
    | nil => rfl
    | cons f fs =>
      have hne := h.root_ne_sibling mk_ne_nil
      have hclimb := vlSetClimb_spec (d := d) (set.totalElements + 1) h mk_ne_nil
        (by simp only [List.length_cons] at hsize; omega)
      rw [root_mk] at hne hclimb
      rw [ctxParent_cons, if_neg (by simp), VlSet.node_some h.heap_frame, ok_bind, root_mk]
      rcases Side.eq_or_eq_other d f.side with hd | hd
      · rw [hd, LinkNode.child_of, if_pos rfl, entriesAfter, Frame.after, if_pos hd]
        rfl
      · rw [hd, LinkNode.of_other, LinkNode.child_of, if_neg (Ne.symm hne)]
        exact hclimb
  · rw [if_pos (root_isSome hr), vlSetDescend_spec _ hfar hr (by omega),
      firstIter_append (along_ne_nil hr)]

/-- The entry after a given one, wherever the tree puts it. -/
theorem vlSetAdvance_mem (h : set.Layout t) (htotal : set.totalElements = t.size)
    {l₁ l₂ : List (VlPoolIdx × α)} {e : VlPoolIdx × α} (hsplit : t.along d = l₁ ++ e :: l₂) :
    vlSetAdvance d set (some e.1) = .ok (firstIter l₂) := by
  have he : e ∈ t.along d := by
    rw [hsplit]
    exact List.mem_append_right _ List.mem_cons_self
  obtain ⟨fs, c, n, r, rfl⟩ := exists_plug_of_mem d (mem_along.mp he)
  rw [vlSetAdvance_spec h htotal]
  -- an entry occurs once, so the two splits of the entries agree
  have hnd : ((plug fs (.mk d c n e r)).along d).Nodup := by
    have hinorder := List.Nodup.of_map _ h.nodup
    cases d with
    | left => exact hinorder
    | right => exact List.nodup_reverse.mpr hinorder
  rw [along_plug, along_mk, List.append_assoc, List.cons_append, ← List.append_assoc] at hsplit
  rw [along_plug, along_mk, List.append_assoc, List.cons_append, ← List.append_assoc,
    List.nodup_middle, List.nodup_cons, List.mem_append, not_or] at hnd
  obtain ⟨-, -, rfl⟩ := (List.append_cons_inj_of_notMem hnd.1.1 hnd.1.2).mp hsplit
  rfl

/-- **`VL_SET_FOREACH`** visits every entry once, in order, and ends. -/
theorem vlSetForeach_spec (h : set.Layout t) (htotal : set.totalElements = t.size) :
    vlSetForeach d set = .ok ((t.along d).map Prod.fst) := by
  have hloop : ∀ (l₂ l₁ : List (VlPoolIdx × α)) (fuel : ℕ), t.along d = l₁ ++ l₂ →
      l₂.length ≤ fuel → vlSetForeachLoop d set fuel (firstIter l₂) = .ok (l₂.map Prod.fst) := by
    intro l₂
    induction l₂ with
    | nil =>
      intro l₁ fuel _ _
      cases fuel <;> rfl
    | cons e l₂ ih =>
      intro l₁ fuel hsplit hfuel
      obtain ⟨fuel, rfl⟩ : ∃ k, fuel = k + 1 := ⟨fuel - 1, by rw [List.length_cons] at hfuel; omega⟩
      have hrest : t.along d = (l₁ ++ [e]) ++ l₂ := by rw [hsplit, List.append_cons]
      rw [firstIter_cons, vlSetForeachLoop, vlSetAdvance_mem h htotal hsplit, ok_bind,
        ih (l₁ ++ [e]) fuel hrest (Nat.le_of_succ_le_succ hfuel)]
      rfl
  have hlen : (t.along d).length = t.size := by
    cases d with
    | left => rfl
    | right => exact List.length_reverse
  rw [vlSetForeach, vlSetEdge_spec h htotal, ok_bind]
  exact hloop _ [] _ rfl (by omega)

/-- The loop of `vlSetFind` below any frames. -/
private theorem vlSetFindLoop_spec {elem : α} (hlaw : LawfulComparator set.comparator) (fuel : ℕ)
    (h : set.Layout (plug fs t)) (hfuel : t.size ≤ fuel)
    (hsorted : StrictSorted (fun e e' => set.comparator e.2 e'.2) t.inorder) :
    vlSetFindLoop set elem fuel t.root =
      .ok ((t.inorder.find? fun e => set.comparator e.2 elem = 0).map Prod.fst) := by
  induction fuel generalizing fs t with
  | zero =>
    cases t with
    | nil => rfl
    | node c l x r => simp [size] at hfuel
  | succ fuel ih =>
    cases t with
    | nil => rfl
    | node c l x r =>
      have hx := VlSet.Layout.heap_focus (d := .left) h
      have hl : set.Layout (plug (⟨.left, c, x, r⟩ :: fs) l) := h
      have hr : set.Layout (plug (⟨.right, c, x, l⟩ :: fs) r) := h
      obtain ⟨hsl, hsr, hcross⟩ := List.pairwise_append.mp hsorted
      obtain ⟨hxr, hsr⟩ := List.pairwise_cons.mp hsr
      have hsize : l.size + r.size ≤ fuel := by
        simp only [size, inorder_node, List.length_append, List.length_cons] at hfuel ⊢
        omega
      -- entries on the far side of `x` cannot be the one looked for
      have hleft : 0 ≥ set.comparator x.2 elem →
          l.inorder.find? (fun e => set.comparator e.2 elem = 0) = none := by
        intro hcmp
        refine List.find?_eq_none.mpr fun a ha => ?_
        have := hlaw.below (hcross a ha x List.mem_cons_self) hcmp
        simp only [decide_eq_true_eq]
        omega
      have hright : 0 ≤ set.comparator x.2 elem →
          r.inorder.find? (fun e => set.comparator e.2 elem = 0) = none := by
        intro hcmp
        refine List.find?_eq_none.mpr fun a ha => ?_
        have := hlaw.above (hxr a ha) hcmp
        simp only [decide_eq_true_eq]
        omega
      change vlSetFindLoop set elem (fuel + 1) (some x.1) = _
      rw [vlSetFindLoop, vlSetGetNodeAt_some, hx, inorder_node, List.find?_append, List.find?_cons]
      change (if set.comparator x.2 elem = 0 then _ else _) = _
      split_ifs with heq hgt
      · rw [hleft heq.le]
        simp [heq]
      · change vlSetFindLoop set elem fuel l.root = _
        rw [ih hl (by omega) hsl, hright hgt.le]
        simp [heq]
      · change vlSetFindLoop set elem fuel r.root = _
        rw [ih hr (by omega) hsr, hleft (Int.not_lt.mp hgt)]
        simp [heq]

/-- **`vlSetFind`** finds the entry the comparator does not distinguish from an element. -/
theorem vlSetFind_spec {elem : α} (hlaw : LawfulComparator set.comparator) (h : set.Layout t)
    (htotal : set.totalElements = t.size)
    (hsorted : StrictSorted (fun e e' => set.comparator e.2 e'.2) t.inorder) :
    vlSetFind set elem =
      .ok ((t.inorder.find? fun e => set.comparator e.2 elem = 0).map Prod.fst) := by
  rw [vlSetFind, h.root_eq]
  have htop : set.Layout (plug [] t) := h
  exact vlSetFindLoop_spec hlaw _ htop htotal.ge hsorted

end VeritableLasagna
