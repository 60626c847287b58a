import VeritableLasagna.Set.InsertFixup
import VeritableLasagna.Set.Traversal

/-!
# The set invariant, and insertion

`VlSet.Inv set t` is the **set invariant**: the live indices of the pool are the iterators of the
tree `t`, the nodes are linked as `t`, the root is black, and the entries are strictly sorted by
the comparator. It does not ask for balance.

`vlSetInsert_spec` says that insertion returns, finds an equal element or adds one entry at its
place, and keeps the invariant; it keeps a red-black tree red-black.
-/

namespace VeritableLasagna

open ColorTree

variable {α : Type} {set set' : VlSet α} {fs : List (Frame (VlPoolIdx × α))}
  {g : Frame (VlPoolIdx × α)} {t : ColorTree (VlPoolIdx × α)} {i : VlPoolIdx} {elem : α}

/-- Comparing entries by their elements. -/
def entryCompare (cmp : α → α → ℤ) (e e' : VlPoolIdx × α) : ℤ := cmp e.2 e'.2

/-- The **set invariant**. -/
structure VlSet.Inv (set : VlSet α) (t : ColorTree (VlPoolIdx × α)) : Prop where
  pool : set.nodePool.Inv t.iters
  stride : 0 < set.nodePool.elementSize
  linked : Linked set.heap none t
  root_eq : set.root = t.root
  total : set.totalElements = t.size
  rootBlack : t.rootColor = .black
  sorted : StrictSorted (entryCompare set.comparator) t.inorder

/-- The pool of a set, whatever the nodes, gives distinct slots. -/
theorem VlPool.Inv.apart {pool : VlPool} {live : List VlPoolIdx} (h : pool.Inv live)
    (hstride : 0 < pool.elementSize) (hset : set.nodePool = pool) : set.Apart := by
  subst hset
  exact fun _ _ _ => h.sample_inj hstride

theorem VlSet.Inv.layout (h : set.Inv t) : set.Layout t :=
  ⟨h.pool.apart h.stride rfl, h.linked, h.root_eq, h.pool.live_nodup⟩

/-- A layout survives changes of the pool that drop no slot. -/
theorem VlSet.Layout.changePool {pool' : VlPool} (h : set.Layout t)
    (hext : pool'.Extends set.nodePool)
    (hap : VlSet.Apart { set with nodePool := pool' }) (n : ℕ) :
    VlSet.Layout { set with nodePool := pool', totalElements := n } t := by
  refine ⟨hap, h.linked.congr fun i hi => ?_, h.root_eq, h.nodup⟩
  obtain ⟨m, hm⟩ := h.exists_node hi
  obtain ⟨p, hp, hmem⟩ := Option.bind_eq_some_iff.mp hm
  rw [hm]
  exact Option.bind_eq_some_iff.mpr ⟨p, hext i p hp, hmem⟩

/-- A live index has a slot. -/
theorem VlPool.Inv.exists_slot {pool : VlPool} {live : List VlPoolIdx} (h : pool.Inv live)
    (hi : i ∈ live) : ∃ p, vlPoolSample pool i = some p := by
  obtain ⟨node, hnode, -⟩ := h.exists_block hi
  exact ⟨_, by rw [vlPoolSample, hnode]; rfl⟩

theorem VlSet.store_spec {p : Slot} (hap : set.Apart) (hp : vlPoolSample set.nodePool i = some p)
    (n : VlSetNode α) :
    Returns (set.store i n) fun set' => set'.heap = Function.update set.heap i (some n) ∧
      set'.root = set.root ∧ set'.Twin set :=
  ⟨{ set with mem := Function.update set.mem p (some n) }, by rw [VlSet.store, hp]; rfl,
    VlSet.heap_update hap hp n, rfl, ⟨rfl, rfl, rfl, rfl⟩⟩

/-- Two sets of the same kind: with elements and nodes of the same size, and the same comparator. -/
structure VlSet.SameKind (set' set : VlSet α) : Prop where
  nodeSize : set'.nodePool.elementSize = set.nodePool.elementSize
  elementSize : set'.elementSize = set.elementSize
  comparator : set'.comparator = set.comparator

theorem VlSet.SameKind.refl (set : VlSet α) : set.SameKind set := ⟨rfl, rfl, rfl⟩

theorem VlSet.SameKind.trans {s₁ s₂ s₃ : VlSet α} (h : s₃.SameKind s₂) (h' : s₂.SameKind s₁) :
    s₃.SameKind s₁ :=
  ⟨h.nodeSize.trans h'.nodeSize, h.elementSize.trans h'.elementSize,
    h.comparator.trans h'.comparator⟩

/-- What adding a node for an element does to the pool and the counter. -/
structure VlSet.Grown (set' set : VlSet α) (live : List VlPoolIdx) (i : VlPoolIdx) : Prop where
  fresh : i ∉ live
  pool : set'.nodePool.Inv (i :: live)
  stride : set'.nodePool.elementSize = set.nodePool.elementSize
  total : set'.totalElements = set.totalElements + 1
  elementSize : set'.elementSize = set.elementSize
  comparator : set'.comparator = set.comparator

/-- A write to nodes keeps what was grown. -/
theorem VlSet.Grown.twin {live : List VlPoolIdx} {s : VlSet α} (h : set'.Grown set live i)
    (ht : s.Twin set') : s.Grown set live i :=
  ⟨h.fresh, ht.nodePool ▸ h.pool, (congrArg _ ht.nodePool).trans h.stride,
    ht.totalElements.trans h.total, ht.elementSize.trans h.elementSize,
    ht.comparator.trans h.comparator⟩

/-- Taking a node and writing it, with a red node for the element. -/
private theorem take_store_spec {live : List VlPoolIdx} (hpool : set.nodePool.Inv live)
    (hstride : 0 < set.nodePool.elementSize) (n : VlSetNode α) (h : set.Layout t)
    (hlive : live = t.iters) :
    ∃ i pool s, vlPoolTake set.nodePool = .ok (i, pool) ∧
      VlSet.store { set with nodePool := pool } i n = .ok s ∧
      VlSet.Grown { s with totalElements := s.totalElements + 1 } set live i ∧
      s.Layout t ∧ s.heap i = some n := by
  obtain ⟨i, pool, htake, hinv, hext, hsize⟩ := vlPoolTake_spec hpool
  have hfresh : i ∉ live := (List.nodup_cons.mp hinv.live_nodup).1
  have hap : VlSet.Apart { set with nodePool := pool } :=
    hinv.apart (hsize ▸ hstride) rfl
  obtain ⟨p, hp⟩ := hinv.exists_slot List.mem_cons_self
  obtain ⟨s, hstore, hheap, hroot, htwin⟩ := VlSet.store_spec hap hp n
  have hlay := h.changePool hext hap set.totalElements
  refine ⟨i, pool, s, htake, hstore, ⟨hfresh, ?_, ?_, ?_, ?_, ?_⟩, ⟨htwin.apart hap, ?_, ?_, ?_⟩, ?_⟩
  · exact htwin.nodePool ▸ hinv
  · exact (congrArg _ htwin.nodePool).trans hsize
  · exact congrArg (· + 1) htwin.totalElements
  · exact htwin.elementSize
  · exact htwin.comparator
  · refine hlay.linked.congr fun j hj => ?_
    rw [hheap, Function.update_of_ne]
    rintro rfl
    exact hfresh (hlive ▸ hj)
  · exact hroot.trans hlay.root_eq
  · exact h.nodup
  · rw [hheap, Function.update_self]

/-- A new leaf. -/
private theorem vlSetInsertLeaf_spec (hpool : set.nodePool.Inv (plug (g :: fs) .nil).iters)
    (hstride : 0 < set.nodePool.elementSize) (h : set.Layout (plug (g :: fs) .nil)) :
    Returns (vlSetInsertLeaf elem set (some g.iter) g.side) fun r =>
      r.2.Grown set (plug (g :: fs) .nil).iters r.1 ∧
      r.2.Layout (plug (g :: fs) (.mk .left .red .nil (r.1, elem) .nil)) := by
  obtain ⟨i, pool, s, htake, hstore, hgrown, hlay, hnode⟩ := take_store_spec hpool hstride
    ⟨.red, some g.iter, none, none, elem⟩ h rfl
  rw [vlSetInsertLeaf, htake, ok_bind]
  dsimp only
  rw [hstore, ok_bind]
  have hleaf := hlay.linked.leaf h.nodup hgrown.fresh hnode
  have hg := hlay.heap_frame
  have hlay' : VlSet.Layout { s with totalElements := s.totalElements + 1 } (plug (g :: fs) .nil) :=
    ⟨hlay.apart, hlay.linked, hlay.root_eq, hlay.nodup⟩
  refine (VlSet.modify_spec hlay'.apart hg _).bind fun s' m => returns_ok ?_
  refine ⟨hgrown.twin m.twin, m.twin.apart hlay'.apart, ?_, ?_, ?_⟩
  · rw [m.heap]
    exact hleaf
  · rw [m.root, hlay'.root_eq]
    exact root_plug_cons ..
  · have hnd := h.nodup
    have hfresh := hgrown.fresh
    rw [(iters_plug_perm _ _).mem_iff] at hfresh
    simp only [iters_nil, List.nil_append] at hfresh
    rw [nodup_plug] at hnd ⊢
    refine ⟨by simp [mk, iters], hnd.2.1, fun j hj => ?_⟩
    obtain rfl : j = i := by simpa [mk, iters] using hj
    exact hfresh

/-- A missing child where a new element belongs: everything before it is below the element,
everything after it above. -/
structure GapFor (cmp : α → α → ℤ) (elem : α) (fs : List (Frame (VlPoolIdx × α))) : Prop where
  below : ∀ x ∈ entriesBefore .left fs, cmp x.2 elem < 0
  above : ∀ x ∈ entriesAfter .left fs, 0 < cmp x.2 elem

/-- Going down to one side of an entry narrows the gap. -/
private theorem GapFor.child {d : Side} {c : Color} {n r : ColorTree (VlPoolIdx × α)}
    {x : VlPoolIdx × α} (hlaw : LawfulComparator set.comparator)
    (h : GapFor set.comparator elem fs)
    (hsorted : StrictSorted (entryCompare set.comparator) (ColorTree.mk d c n x r).inorder)
    (hx : set.comparator x.2 elem ≠ 0)
    (hd : d = if set.comparator x.2 elem > 0 then Side.left else Side.right) :
    GapFor set.comparator elem (⟨d, c, x, r⟩ :: fs) := by
  split_ifs at hd with hgt
  · subst hd
    have hxr := (List.pairwise_cons.mp (List.pairwise_append.mp hsorted).2.1).1
    refine ⟨?_, fun y hy => ?_⟩
    · simpa [entriesBefore, Frame.before] using h.below
    · simp only [entriesAfter, Frame.after, if_true, List.cons_append, List.mem_cons,
        List.mem_append] at hy
      rcases hy with rfl | hy | hy
      · exact hgt
      · exact hlaw.above (hxr y hy) hgt.le
      · exact h.above y hy
  · subst hd
    have hlt : set.comparator x.2 elem < 0 := by omega
    have hrx := (List.pairwise_append.mp hsorted).2.2
    refine ⟨fun y hy => ?_, ?_⟩
    · simp only [entriesBefore, Frame.before, reduceCtorEq, if_false, List.mem_append,
        List.mem_singleton] at hy
      rcases hy with hy | hy | rfl
      · exact h.below y hy
      · exact hlaw.below (hrx y hy x List.mem_cons_self) hlt.le
      · exact hlt
    · simpa [entriesAfter, Frame.after] using h.above

/-- **The descent of `vlSetInsert`** finds an equal element, or hangs a new leaf in the gap the
element belongs to. -/
private theorem vlSetInsertDescend_spec (hlaw : LawfulComparator set.comparator) (fuel : ℕ)
    (h : set.Layout (plug fs t)) (hpool : set.nodePool.Inv (plug fs t).iters)
    (hstride : 0 < set.nodePool.elementSize) (ht : t ≠ .nil) (hfuel : t.size ≤ fuel)
    (hsorted : StrictSorted (entryCompare set.comparator) t.inorder)
    (hgap : GapFor set.comparator elem fs) :
    Returns (vlSetInsertDescend elem fuel set t.root) fun r =>
      (∃ a, (r.1, a) ∈ t.inorder ∧ set.comparator a elem = 0 ∧ r.2.1 = false ∧ r.2.2 = set) ∨
      (∃ g fs', plug (g :: fs') .nil = plug fs t ∧ GapFor set.comparator elem (g :: fs') ∧
        r.2.1 = true ∧ r.2.2.Grown set (plug fs t).iters r.1 ∧
        r.2.2.Layout (plug (g :: fs') (.mk .left .red .nil (r.1, elem) .nil))) := by
  induction fuel generalizing fs t with
  | zero =>
    rcases eq_nil_or_mk .left t with rfl | ⟨c, n, e, r, rfl⟩
    · exact absurd rfl ht
    · rw [size_mk] at hfuel
      omega
  | succ fuel ih =>
    obtain ⟨c₀, n₀, x, r₀, ht₀⟩ := (eq_nil_or_mk .left t).resolve_left ht
    have hx : set.comparator x.2 elem = 0 ∨ ∃ d, set.comparator x.2 elem ≠ 0 ∧
        d = if set.comparator x.2 elem > 0 then Side.left else Side.right := by
      by_cases h0 : set.comparator x.2 elem = 0
      · exact Or.inl h0
      · exact Or.inr ⟨_, h0, rfl⟩
    rcases hx with h0 | ⟨d, h0, hd⟩
    · subst ht₀
      have hx := h.heap_focus
      rw [vlSetInsertDescend, root_mk, VlSet.node_some hx, ok_bind, deref_some, ok_bind,
        LinkNode.elem_of, if_pos h0]
      exact returns_ok (Or.inl ⟨x.2, by simp [mk], h0, rfl, rfl⟩)
    · -- the node, seen from the side the descent takes
      obtain ⟨n, r, rfl⟩ : ∃ n r, t = .mk d c₀ n x r := by
        cases d with
        | left => exact ⟨n₀, r₀, ht₀⟩
        | right => exact ⟨r₀, n₀, ht₀⟩
      have hx := h.heap_focus
      rw [size_mk] at hfuel
      have hchild := hgap.child hlaw hsorted h0 hd
      rw [vlSetInsertDescend, root_mk, VlSet.node_some hx, ok_bind, deref_some, ok_bind,
        LinkNode.elem_of, if_neg h0]
      dsimp only
      rw [← hd, LinkNode.child_of]
      by_cases hn : n = .nil
      · subst hn
        have hleaf : set.Layout (plug (⟨d, c₀, x, r⟩ :: fs) .nil) := h
        refine (vlSetInsertLeaf_spec hpool hstride hleaf).bind ?_
        rintro ⟨i, s⟩ ⟨hgrown, hlay⟩
        exact returns_ok (Or.inr ⟨_, fs, rfl, hchild, rfl, hgrown, hlay⟩)
      · rw [if_pos (root_isSome hn)]
        have hsub : StrictSorted (entryCompare set.comparator) n.inorder :=
          hsorted.sublist (inorder_near_sublist ..)
        have hnear : set.Layout (plug (⟨d, c₀, x, r⟩ :: fs) n) := h
        refine (ih hnear hpool hn (by omega) hsub hchild).mono ?_
        rintro q (⟨a, ha, hrest⟩ | hnew)
        · refine Or.inl ⟨a, ?_, hrest⟩
          exact (inorder_near_sublist ..).subset ha
        · exact Or.inr hnew

/-- The result of an insertion: an equal entry found, or one entry added. -/
structure VlSet.Inserted (set' set : VlSet α) (t : ColorTree (VlPoolIdx × α)) (elem : α)
    (i : VlPoolIdx) (t' : ColorTree (VlPoolIdx × α)) (l₁ l₂ : List (VlPoolIdx × α)) : Prop where
  before : t.inorder = l₁ ++ l₂
  after : t'.inorder = l₁ ++ (i, elem) :: l₂
  absent : ∀ x ∈ t.inorder, set.comparator x.2 elem ≠ 0
  fresh : i ∉ t.iters
  inv : set'.Inv t'
  redBlack : RedBlack t → RedBlack t'
  kind : set'.SameKind set

/-- A new entry in a gap, once the nodes are linked as a tree with a black root. -/
private theorem inserted_of_grown {t' : ColorTree (VlPoolIdx × α)}
    {fs : List (Frame (VlPoolIdx × α))} (hlaw : LawfulComparator set.comparator)
    (h : set.Inv t) (hplug : plug fs .nil = t) (hgap : GapFor set.comparator elem fs)
    (hgrown : set'.Grown set t.iters i) (hlay : set'.Layout t')
    (horder : t'.inorder = (plug fs (.mk .left .black .nil (i, elem) .nil)).inorder)
    (hblack : t'.rootColor = .black) (hrb : RedBlack t → RedBlack t') :
    set'.Inserted set t elem i t' (entriesBefore .left fs) (entriesAfter .left fs) := by
  have hbefore : t.inorder = entriesBefore .left fs ++ entriesAfter .left fs := by
    rw [← hplug, inorder_plug, inorder_nil, List.nil_append]
  have hafter : t'.inorder = entriesBefore .left fs ++ (i, elem) :: entriesAfter .left fs := by
    rw [horder, inorder_plug]
    simp [mk]
  refine ⟨hbefore, hafter, fun x hx => ?_, hgrown.fresh, ⟨?_, ?_, hlay.linked, hlay.root_eq, ?_,
    hblack, ?_⟩, hrb, ⟨hgrown.stride, hgrown.elementSize, hgrown.comparator⟩⟩
  · rw [hbefore, List.mem_append] at hx
    rcases hx with hx | hx
    · exact (hgap.below x hx).ne
    · exact (hgap.above x hx).ne'
  · refine hgrown.pool.perm ?_
    rw [iters, iters, hafter, hbefore, List.map_append, List.map_append, List.map_cons]
    exact List.perm_middle
  · exact hgrown.stride ▸ h.stride
  · rw [hgrown.total, h.total, size, size, hafter, hbefore]
    simp only [List.length_append, List.length_cons]
    omega
  · have hsorted := h.sorted
    rw [hafter, hgrown.comparator]
    rw [hbefore] at hsorted
    exact hsorted.insert (hlaw.comap Prod.snd) hgap.below hgap.above

/-- **`vlSetInsert`** returns the iterator of an equal element and changes nothing, or adds the
element at its place. -/
theorem vlSetInsert_spec (hlaw : LawfulComparator set.comparator) (h : set.Inv t) (elem : α) :
    Returns (vlSetInsert set elem) fun r => r.2.comparator = set.comparator ∧
      ((∃ a, (r.1, a) ∈ t.inorder ∧ set.comparator a elem = 0 ∧ r.2 = set) ∨
        ∃ t' l₁ l₂, r.2.Inserted set t elem r.1 t' l₁ l₂) := by
  rw [vlSetInsert]
  by_cases ht : t = .nil
  · subst ht
    obtain ⟨i, pool, s, htake, hstore, hgrown, hlay, hnode⟩ := take_store_spec h.pool h.stride
      ⟨.black, none, none, none, elem⟩ h.layout rfl
    have hroot : set.root.isNone = true := by
      rw [h.root_eq]
      rfl
    have hgap : GapFor set.comparator elem [] := ⟨by simp [entriesBefore], by simp [entriesAfter]⟩
    rw [if_pos hroot, htake, ok_bind]
    dsimp only
    rw [hstore, ok_bind]
    refine returns_ok ⟨hgrown.comparator, Or.inr ⟨.mk .left .black .nil (i, elem) .nil, _, _,
      inserted_of_grown hlaw h (plug_nil _) hgap
        ⟨hgrown.fresh, hgrown.pool, hgrown.stride, hgrown.total, hgrown.elementSize,
          hgrown.comparator⟩
        ⟨hlay.apart, ⟨hnode, trivial, trivial⟩, rfl, by simp [mk, iters]⟩ rfl rfl
        fun _ => ⟨rfl, 1, .black .nil .nil⟩⟩⟩
  · have hroot : ¬ set.root.isNone = true := by
      rw [h.root_eq]
      simpa [root_eq_none] using ht
    have hgap : GapFor set.comparator elem [] := ⟨by simp [entriesBefore], by simp [entriesAfter]⟩
    have htop : set.Layout (plug [] t) := h.layout
    rw [if_neg hroot, h.root_eq]
    refine (vlSetInsertDescend_spec hlaw _ htop h.pool h.stride ht (h.total ▸ Nat.le_succ _)
      h.sorted hgap).bind ?_
    rintro ⟨i, isNew, s⟩ (⟨a, ha, hcmp, hnew, rfl⟩ | ⟨g, fs, hplug, hgap, hnew, hgrown, hlay⟩)
    · obtain rfl : isNew = false := hnew
      exact returns_ok ⟨rfl, Or.inl ⟨a, ha, hcmp, rfl⟩⟩
    · obtain rfl : isNew = true := hnew
      rw [plug_nil] at hplug hgrown
      have hroot : ctxRootColor (g :: fs) = .black := by
        rw [← rootColor_plug_cons g fs .nil, hplug]
        exact h.rootBlack
      have hlen := length_add_size_le (g :: fs) (.nil : ColorTree (VlPoolIdx × α))
      rw [hplug, size_nil] at hlen
      have hfuel : (g :: fs).length < s.totalElements + 1 := by
        have := h.total
        have htotal : s.totalElements = set.totalElements + 1 := hgrown.total
        omega
      have hfix := vlSetInsertFixup_spec _ hlay mk_ne_nil hroot hfuel
      rw [root_mk] at hfix
      dsimp only
      rw [if_pos rfl]
      refine hfix.bind ?_
      rintro s₁ ⟨t₁, hfix, hlay₁, htwin₁⟩
      have horder₁ := hfix.inorder_eq
      obtain ⟨c, l, e, r, rfl⟩ := (eq_nil_or_mk .left t₁).resolve_left (by
        rintro rfl
        rw [inorder_plug] at horder₁
        simp [mk] at horder₁)
      rw [hlay₁.root_eq, root_mk]
      have htop₁ : s₁.Layout (plug [] (.mk .left c l e r)) := hlay₁
      refine (VlSet.setColor_spec htop₁ .black).bind ?_
      rintro s₂ ⟨hlay₂, htwin₂⟩
      have hgrown₂ := (hgrown.twin htwin₁).twin htwin₂
      refine returns_ok ⟨hgrown₂.comparator, Or.inr ⟨_, _, _,
        inserted_of_grown hlaw h hplug hgap hgrown₂ hlay₂ ?_ (rootColor_mk ..) fun hrb => ?_⟩⟩
      · rw [plug_nil]
        refine Eq.trans ?_ (horder₁.trans ?_)
        · exact inorder_mk_congr rfl rfl
        · exact inorder_plug_congr (inorder_mk_congr rfl rfl)
      · -- a red leaf in a red-black tree is what the fixup starts from
        rw [← hplug] at hrb
        obtain ⟨n, hnil, hctx, -⟩ := redBlackAt_plug.mp hrb.2
        obtain rfl : 0 = n := RedBlackAt.nil.unique hnil
        have hleaf : RedBlackAt (.mk .left .red .nil (i, elem) .nil) 0 :=
          redBlackAt_mk_red.mpr ⟨.nil, .nil, rfl, rfl⟩
        have hpaint := hfix.redBlack (rootColor_mk ..) hleaf hctx
        rwa [paint_mk] at hpaint

end VeritableLasagna
