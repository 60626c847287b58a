import VeritableLasagna.Set.Runs

/-!
# The set as a sorted list of entries

A client of `vl_set` sees neither the tree nor the pool: it sees the entries, in order. The
predicate `set.Holds cmp l` says that `set` keeps exactly the entries `l` under the comparator
`cmp`; every operation a client uses is specified by what it does to that list.

Besides the operations of `vl_set`, a client may write through the pointer `vlSetSample` returns.
That keeps the set intact as long as the list stays sorted (`VlSet.Holds.write`).
-/

namespace VeritableLasagna

open ColorTree

variable {α : Type} {set : VlSet α} {cmp : α → α → ℤ} {l l₁ l₂ : List (VlPoolIdx × α)}
  {e : VlPoolIdx × α}

/-- The set keeps the entries `l`, in this order. -/
def VlSet.Holds (set : VlSet α) (cmp : α → α → ℤ) (l : List (VlPoolIdx × α)) : Prop :=
  set.comparator = cmp ∧ ∃ t, set.Inv t ∧ t.inorder = l

namespace VlSet.Holds

theorem sorted (h : set.Holds cmp l) : StrictSorted (entryCompare cmp) l := by
  obtain ⟨rfl, t, ht, rfl⟩ := h
  exact ht.sorted

theorem nodup (h : set.Holds cmp l) : (l.map Prod.fst).Nodup := by
  obtain ⟨rfl, t, ht, rfl⟩ := h
  exact ht.pool.live_nodup

theorem totalElements (h : set.Holds cmp l) : set.totalElements = l.length := by
  obtain ⟨rfl, t, ht, rfl⟩ := h
  exact ht.total

/-- An entry splits the list in one way only. -/
theorem split_unique (h : set.Holds cmp (l₁ ++ e :: l₂)) {m₁ m₂ : List (VlPoolIdx × α)}
    {e' : VlPoolIdx × α} (hsplit : l₁ ++ e :: l₂ = m₁ ++ e' :: m₂) (hiter : e'.1 = e.1) :
    m₁ = l₁ ∧ e' = e ∧ m₂ = l₂ := by
  have hnd := h.nodup
  obtain rfl : e' = e := by
    have he : e ∈ l₁ ++ e :: l₂ := List.mem_append_right _ List.mem_cons_self
    have he' : e' ∈ l₁ ++ e :: l₂ := hsplit ▸ List.mem_append_right _ List.mem_cons_self
    exact List.inj_on_of_nodup_map hnd he' he hiter
  have hnd' : (l₁ ++ e' :: l₂).Nodup := List.Nodup.of_map _ hnd
  rw [List.nodup_middle, List.nodup_cons, List.mem_append, not_or] at hnd'
  obtain ⟨hm₁, -, hm₂⟩ := (List.append_cons_inj_of_notMem hnd'.1.1 hnd'.1.2).mp hsplit
  exact ⟨hm₁.symm, rfl, hm₂.symm⟩

theorem sample (h : set.Holds cmp l) (he : e ∈ l) : vlSetSample set (some e.1) = some e.2 := by
  obtain ⟨rfl, t, ht, rfl⟩ := h
  obtain ⟨fs, c, n, r, rfl⟩ := exists_plug_of_mem .left he
  rw [vlSetSample, vlSetGetNodeAt_some, ht.layout.heap_focus]
  rfl

theorem front (h : set.Holds cmp l) : vlSetFront set = .ok (firstIter l) := by
  obtain ⟨rfl, t, ht, rfl⟩ := h
  exact vlSetEdge_spec ht.layout ht.total

theorem next (h : set.Holds cmp (l₁ ++ e :: l₂)) :
    vlSetNext set (some e.1) = .ok (firstIter l₂) := by
  obtain ⟨rfl, t, ht, hl⟩ := h
  exact vlSetAdvance_mem (d := .left) ht.layout ht.total hl

theorem prev (h : set.Holds cmp (l₁ ++ e :: l₂)) :
    vlSetPrev set (some e.1) = .ok (firstIter l₁.reverse) := by
  obtain ⟨rfl, t, ht, hl⟩ := h
  refine vlSetAdvance_mem (d := .right) ht.layout ht.total (?_ : t.along .right = l₂.reverse ++ e :: l₁.reverse)
  change t.inorder.reverse = _
  rw [hl]
  simp

theorem foreach (h : set.Holds cmp l) : vlSetForeach .left set = .ok (l.map Prod.fst) := by
  obtain ⟨rfl, t, ht, rfl⟩ := h
  exact vlSetForeach_spec ht.layout ht.total

/-- A set has one list of entries. -/
theorem unique {l' : List (VlPoolIdx × α)} (h : set.Holds cmp l) (h' : set.Holds cmp l') :
    l = l' := by
  have hiters : l.map Prod.fst = l'.map Prod.fst := Except.ok.inj (h.foreach.symm.trans h'.foreach)
  have hsamples : ∀ k : List (VlPoolIdx × α), set.Holds cmp k →
      (k.map Prod.fst).map (fun i => (i, vlSetSample set (some i))) = k.map (Prod.map id some) := by
    intro k hk
    rw [List.map_map]
    refine List.map_congr_left fun e he => ?_
    rw [Function.comp_apply, hk.sample he]
    rfl
  have hpairs := (hsamples l h).symm.trans (hiters ▸ hsamples l' h')
  exact List.map_injective_iff.mpr
    (Function.injective_id.prodMap (Option.some_injective α)) hpairs

theorem find (hlaw : LawfulComparator cmp) (h : set.Holds cmp l) (elem : α) :
    vlSetFind set elem = .ok ((l.find? fun e => cmp e.2 elem = 0).map Prod.fst) := by
  obtain ⟨rfl, t, ht, rfl⟩ := h
  exact vlSetFind_spec hlaw ht.layout ht.total ht.sorted

/-- **Insertion of a new element** adds one entry at its place. -/
theorem insert (hlaw : LawfulComparator cmp) (h : set.Holds cmp l) {elem : α}
    (hnew : ∀ e ∈ l, cmp e.2 elem ≠ 0) :
    Returns (vlSetInsert set elem) fun r => ∃ l₁ l₂, l = l₁ ++ l₂ ∧
      r.2.Holds cmp (l₁ ++ (r.1, elem) :: l₂) := by
  obtain ⟨rfl, t, ht, rfl⟩ := h
  refine (vlSetInsert_spec hlaw ht elem).mono ?_
  rintro r ⟨hcmp, ⟨a, ha, heq, -⟩ | ⟨t', l₁, l₂, hins⟩⟩
  · exact absurd heq (hnew _ ha)
  · exact ⟨l₁, l₂, hins.before, hcmp, t', hins.inv, hins.after⟩

/-- **Removal** drops one entry. -/
theorem remove (h : set.Holds cmp (l₁ ++ e :: l₂)) :
    Returns (vlSetRemove set (some e.1)) (·.Holds cmp (l₁ ++ l₂)) := by
  have hholds := h
  obtain ⟨rfl, t, ht, hl⟩ := h
  have he : (e.1, e.2) ∈ t.inorder := hl ▸ List.mem_append_right _ List.mem_cons_self
  refine (vlSetRemove_spec ht he).mono ?_
  rintro s ⟨hcmp, t', m₁, m₂, hrem⟩
  obtain ⟨rfl, -, rfl⟩ := hholds.split_unique (hl.symm.trans hrem.before) rfl
  exact ⟨hcmp, t', hrem.inv, hrem.after⟩

/-- **A write through a sampled pointer** changes one element in its place. -/
theorem write {i : VlPoolIdx} {a a' : α} (h : set.Holds cmp (l₁ ++ (i, a) :: l₂))
    (hsorted : StrictSorted (entryCompare cmp) (l₁ ++ (i, a') :: l₂)) :
    Returns (set.write (some i) a') (·.Holds cmp (l₁ ++ (i, a') :: l₂)) := by
  have hholds := h
  obtain ⟨rfl, t, ht, hl⟩ := h
  have he : (i, a) ∈ t.inorder := hl ▸ List.mem_append_right _ List.mem_cons_self
  obtain ⟨fs, c, n, r, rfl⟩ := exists_plug_of_mem .left he
  have hsplit : l₁ ++ (i, a) :: l₂ = (entriesBefore .left fs ++ n.inorder) ++
      (i, a) :: (r.inorder ++ entriesAfter .left fs) := by
    rw [← hl, inorder_plug]
    simp [ColorTree.mk]
  obtain ⟨rfl, -, rfl⟩ := hholds.split_unique hsplit rfl
  have hset : (LinkNode.of .left c (ctxParent fs) n.root r.root a).setElem a' =
      .of .left c (ctxParent fs) n.root r.root a' := rfl
  refine (VlSet.modify_focus_spec ht.layout hset).mono ?_
  rintro s ⟨hlay, htwin, _⟩
  have hafter : (plug fs (.mk .left c n (i, a') r)).inorder =
      (entriesBefore .left fs ++ n.inorder) ++ (i, a') :: (r.inorder ++ entriesAfter .left fs) := by
    rw [inorder_plug]
    simp [ColorTree.mk]
  have hiters : (plug fs (.mk .left c n (i, a') r)).iters =
      (plug fs (.mk .left c n (i, a) r)).iters := by
    rw [iters, iters, hafter, hl]
    simp
  refine ⟨htwin.comparator, _, ⟨?_, ?_, hlay.linked, hlay.root_eq, ?_, ?_, ?_⟩, hafter⟩
  · rw [htwin.nodePool, hiters]
    exact ht.pool
  · rw [htwin.nodePool]
    exact ht.stride
  · rw [htwin.totalElements, ht.total, size, size, hafter, hl]
    simp
  · have hblack := ht.rootBlack
    cases fs with
    | nil => exact hblack
    | cons f fs => rwa [rootColor_plug_cons] at hblack ⊢
  · rw [htwin.comparator, hafter]
    exact hsorted

/-- **`vlSetClear`** leaves no entry. -/
theorem clear (h : set.Holds cmp l) : Returns (vlSetClear set) (·.Holds cmp []) := by
  obtain ⟨rfl, t, ht, rfl⟩ := h
  exact (vlSetClear_spec ht).mono fun s ⟨hinv, hkind⟩ => ⟨hkind.comparator, .nil, hinv, rfl⟩

end VlSet.Holds

/-- **`vlSetInit`** starts without entries. -/
theorem vlSetInit_holds {elementSize : ℕ} (compFunc : α → α → ℤ)
    (hsize : vlMemoryPadUp (vlSetNodeSize + elementSize) vlDefaultMemoryAlign < 2 ^ 16) :
    (vlSetInit elementSize compFunc).Holds compFunc [] :=
  ⟨rfl, .nil, vlSetInit_inv compFunc (vlSetInit_stride compFunc hsize), rfl⟩

end VeritableLasagna
