import VeritableLasagna.Dom.Child

/-!
# Removing a child

`vlMsgPackRemove` frees what is below a node and takes the node out of the list of a map, or makes it
a `NIL` of an array. Either way the node itself stays in the table under its key: a map no longer knows
it (`vlMsgPackRemove_map`), and an array keeps it (`vlMsgPackRemove_array`).
-/

namespace VeritableLasagna

/-! ### What is below, and the value -/

/-- The node of `c` is as it was, and nothing is left of what is below it. -/
structure VlMsgPack.Stripped (pack pack' : VlMsgPack) (c : DomEntry) (k : Forest DomEntry) : Prop where
  node : pack'.node c.iter = pack.node c.iter
  becomes : pack.Becomes pack' (.cons c k .nil) (.bare c.iter)
  /-- the value of a leaf is freed twice -/
  broken : ¬ c.node.value.type.IsLeaf →
    pack'.values.broken = (pack.values.broken || k.erase.hollow)

section Strip

variable {pack : VlMsgPack} {c : DomEntry} {k : Forest DomEntry} {parent prev next : ℕ}
  {hash : UInt64} {e : VlMsgPackElement}

/-- The block of the node may be freed in addition, even when it is free. -/
theorem VlMsgPack.Freed.stripped {pack₁ : VlMsgPack} (h : pack.Freed pack₁ k.iters (.cons c k .nil) [])
    (hnot : c.iter ∉ k.iters)
    (htable : c.ptr ≠ 0 → ¬ c.node.value.type.IsLeaf → c.node.value.type = .array) :
    pack.Stripped (if c.ptr ≠ 0 then pack₁.free c.ptr else pack₁) c k := by
  have hnode : ∀ i, (if c.ptr ≠ 0 then pack₁.free c.ptr else pack₁).node i = pack₁.node i :=
    fun i => by split_ifs <;> rfl
  have hblock : ∀ r, r ∉ (Forest.cons c k .nil).blocks →
      (if c.ptr ≠ 0 then pack₁.free c.ptr else pack₁).block r = pack.block r := by
    intro r hr
    rw [← h.block r hr List.not_mem_nil]
    split_ifs with hne
    · refine VlMsgPack.block_free_of_ne ?_
      rintro rfl
      exact hr (Forest.mem_blocks_cons.mpr (Or.inl ⟨rfl, hne⟩))
    · rfl
  have hmem : ∀ i, i ∈ (Forest.cons c k .nil).iters ↔ i = c.iter ∨ i ∈ k.iters := by simp
  refine ⟨(hnode _).trans (h.kept _ hnot), ⟨⟨fun i n hi hn => ?_, fun i hi hne => ?_,
    fun r b hr hb => (hblock r hr).trans hb, fun r hr => absurd hr List.not_mem_nil⟩,
    fun i n hi hn => ?_⟩, fun hleaf => ?_⟩
  · rw [hmem, not_or] at hi
    rw [hnode, h.kept i hi.2, hn]
  · rw [hmem, not_or] at hne
    exact absurd (by simpa using hi) hne.1
  · rw [hnode] at hn
    have hk : i ∉ k.iters := fun hk => Option.some_ne_none _ (hn.symm.trans (h.gone i hk))
    rw [h.kept i hk] at hn
    refine ⟨?_, hn⟩
    rw [hmem, not_or]
    exact ⟨by simpa using hi, hk⟩
  · have hhollow : c.node.hollow = false := by simp [DomNode.hollow, hleaf]
    have hbroken : (if c.ptr ≠ 0 then pack₁.free c.ptr else pack₁).values.broken =
        pack₁.values.broken := by
      split_ifs with hne
      · refine VlMsgPack.broken_free ((h.freed _ ?_).mpr ?_)
        · exact Forest.mem_blocks_cons.mpr (Or.inl ⟨rfl, hne⟩)
        · exact Forest.mem_tables_cons.mpr (Or.inl ⟨rfl, hne, htable hne hleaf⟩)
      · rfl
    rw [hbroken, h.broken]
    simp [hhollow]

/-- A node that is no leaf has a block only if it is an array. -/
theorem DomEntry.Fits.table (h : c.Fits pack k e) (hne : c.ptr ≠ 0)
    (hleaf : ¬ c.node.value.type.IsLeaf) : c.node.value.type = .array := by
  cases h with
  | nil type payload ptr => exact absurd ptr hne
  | leaf type => exact absurd type hleaf
  | map type payload ptr => exact absurd ptr hne
  | array type => exact type

/-- The handle that `vlMsgPackRemove` frees. A `NIL` may have one that is stale. -/
theorem DomEntry.Stored.valuePtr (he : c.Stored pack parent hash prev next k e)
    (hnil : c.node.value.type = .nil → e.first = 0) :
    (if e.type = .map then 0 else e.first) = c.ptr := by
  rw [he.type]
  cases he.fits with
  | nil type payload ptr => rw [if_neg (by rw [type]; decide), hnil type, ptr]
  | leaf type first => rw [if_neg type.2.1, first]
  | map type payload ptr => rw [if_pos type, ptr]
  | array type payload first => rw [if_neg (by rw [type]; decide), first]

/-- The first part of `vlMsgPackRemove`, up to what it does to the parent. -/
theorem vlMsgPackRemove_strip (h : DomLinked pack parent hash prev next (.cons c k .nil))
    (hproper : (Forest.cons c k .nil).Proper)
    (hnil : ∀ n, pack.node c.iter = some n → c.node.value.type = .nil → n.element.first = 0)
    (hparent : parent ≠ 0) : ∃ pack₁ e, pack.Stripped pack₁ c k ∧
      pack.node c.iter = some ⟨hierarchicalKey hash c.node.key, e⟩ ∧
      e.prevSibling = prev ∧ e.nextSibling = next ∧ e.parent = parent ∧
      e.extType = c.node.value.extType ∧
      vlMsgPackRemove pack c.iter = do
        let parentElement ← pack₁.sample parent
        match parentElement.type with
        | .map => do
          let totalChildren := (parentElement.totalChildren + (2 ^ 32 - 1)) % 2 ^ 32
          if totalChildren = 0 then
            pack₁.modify parent fun parentElement =>
              { parentElement with totalChildren, first := 0, second := 0 }
          else do
            let pack ← pack₁.modify parent fun parentElement =>
              { parentElement with
                totalChildren
                first := if parentElement.first = c.iter then next else parentElement.first
                second := if parentElement.second = c.iter then prev else parentElement.second }
            let pack ← (if prev ≠ 0 then
                pack.modify prev fun leftElem => { leftElem with nextSibling := next }
              else .ok pack)
            if next ≠ 0 then
              pack.modify next fun rightElem => { rightElem with prevSibling := prev }
            else return pack
        | .array => pack₁.modify c.iter fun element => { element with type := .nil }
        | _ => return pack₁ := by
  obtain ⟨⟨e, he⟩, hk, -⟩ := domLinked_cons.mp h
  obtain ⟨-, -, hnot, -⟩ := Forest.proper_single.mp hproper
  obtain ⟨pack₁, hrun, hfreed⟩ := vlMsgPackFreeChildren_spec he hk hproper
  have hget : pack₁.node c.iter = _ := (hfreed.kept _ hnot).trans he.get
  refine ⟨if c.ptr ≠ 0 then pack₁.free c.ptr else pack₁, e, hfreed.stripped hnot he.fits.table, he.get,
    he.prev, he.next, he.parent, he.extType, ?_⟩
  rw [vlMsgPackRemove, hrun, ok_bind, VlMsgPack.sample_eq hget, ok_bind]
  simp only [he.parent, he.prev, he.next, he.valuePtr (hnil _ he.get), if_neg hparent]
  rfl

end Strip

/-! ### A child of a map -/

section Map

variable {pack pack' : VlMsgPack} {p c : DomEntry} {k f₁ f₂ : Forest DomEntry}
  {parent prev next : ℕ} {hash : UInt64} {e e' : VlMsgPackElement}

/-- A map with one child less. -/
theorem DomEntry.Fits.remove (h : p.Fits pack (f₁ ++ .cons c k f₂) e)
    (htype : p.node.value.type = .map) (hfirst : e'.first = (f₁ ++ f₂).firstIter 0)
    (hsecond : e'.second = (f₁ ++ f₂).lastIter 0)
    (htotal : e'.totalChildren = (e.totalChildren + (2 ^ 32 - 1)) % 2 ^ 32) :
    p.Fits pack' (f₁ ++ f₂) e' := by
  cases h with
  | nil type => exact absurd (type.symm.trans htype) (by decide)
  | leaf type => exact absurd htype type.2.1
  | array type => exact absurd (type.symm.trans htype) (by decide)
  | map type payload ptr first second length totalChildren keys =>
    have hlen : (f₁ ++ Forest.cons c k f₂).length = (f₁ ++ f₂).length + 1 := by
      rw [Forest.length_append, Forest.length_append, Forest.length_cons, Nat.add_assoc]
    refine .map type payload ptr hfirst hsecond (by omega) (by omega) ?_
    rw [Forest.roots_append, Forest.roots_cons, List.map_append, List.map_cons] at keys
    rw [Forest.roots_append, List.map_append]
    exact keys.sublist ((List.Sublist.refl _).append (List.sublist_cons_self _ _))

/-- The number of children that are left. -/
theorem DomEntry.Fits.left (h : p.Fits pack (f₁ ++ .cons c k f₂) e)
    (htype : p.node.value.type = .map) :
    (e.totalChildren + (2 ^ 32 - 1)) % 2 ^ 32 = (f₁ ++ f₂).length := by
  cases h with
  | nil type => exact absurd (type.symm.trans htype) (by decide)
  | leaf type => exact absurd htype type.2.1
  | array type => exact absurd (type.symm.trans htype) (by decide)
  | map type payload ptr first second length totalChildren keys =>
    have hlen : (f₁ ++ Forest.cons c k f₂).length = (f₁ ++ f₂).length + 1 := by
      rw [Forest.length_append, Forest.length_append, Forest.length_cons, Nat.add_assoc]
    omega

/-- **A child of a map is removed**: its siblings are linked around it. -/
theorem vlMsgPackRemove_map
    (h : DomLinked pack parent hash prev next (.cons p (f₁ ++ .cons c k f₂) .nil))
    (hproper : (Forest.cons p (f₁ ++ .cons c k f₂) .nil).Proper) (htype : p.node.value.type = .map)
    (hnil : ∀ n, pack.node c.iter = some n → c.node.value.type = .nil → n.element.first = 0) :
    Returns (vlMsgPackRemove pack c.iter) fun pack' =>
      DomLinked pack' parent hash prev next (.cons p (f₁ ++ f₂) .nil) ∧
        (Forest.cons p (f₁ ++ f₂) .nil).Proper ∧
        pack.Evolves pack' (.cons p (f₁ ++ .cons c k f₂) .nil) (.cons p (f₁ ++ f₂) .nil) ∧
        ∃ e, pack'.node c.iter = some ⟨hierarchicalKey (p.node.hash hash) c.node.key, e⟩ := by
  obtain ⟨⟨ep, hp⟩, hkids, -⟩ := domLinked_cons.mp h
  have hparent : p.iter ≠ 0 := Store.ne_zero_of_get hp.get
  obtain ⟨pack₁, e, hstrip, hget, hprev, hnext, -, -, hrun⟩ :=
    vlMsgPackRemove_strip h.child hproper.child hnil hparent
  obtain ⟨hproperk, hne, hnot, hptr⟩ := Forest.proper_single.mp hproper
  rw [Forest.append_cons] at hkids hproperk hnot hptr
  obtain ⟨h₁, h₂⟩ := domLinked_append.mp hkids
  have h₁ := (domLinked_append.mp h₁).1
  obtain ⟨hproper₁, hproper₂, hdisj₂, hblocks₂⟩ := Forest.proper_append.mp hproperk
  obtain ⟨hproper₁, -, hdisj₁, hblocks₁⟩ := Forest.proper_append.mp hproper₁
  simp only [Forest.iters_append, List.disjoint_append_left, List.mem_append, not_or] at hdisj₂ hnot
  simp only [Forest.blocks_append, List.disjoint_append_left, List.mem_append, not_or] at hblocks₂ hptr
  simp only [Forest.lastIter_append, Forest.lastIter_cons, Forest.lastIter_nil] at h₂
  rw [Forest.firstIter_cons] at h₁
  have hev := hstrip.becomes.toEvolves
  have h₁ := h₁.evolves hev hdisj₁ hblocks₁
  have h₂ := h₂.evolves hev hdisj₂.2.symm hblocks₂.2.symm
  have hp₁ : pack₁.node p.iter = _ := hev.node _ _ hnot.1.2 hp.get
  have hc : c.iter ∉ f₁.iters ∧ c.iter ∉ f₂.iters ∧ c.iter ≠ p.iter :=
    ⟨fun hmem => hdisj₁ hmem (by simp), fun hmem => hdisj₂.2 (by simp) hmem,
      fun heq => hnot.1.2 (heq ▸ by simp)⟩
  have hproper' : (Forest.cons p (f₁ ++ f₂) .nil).Proper := by
    refine Forest.proper_single.mpr ⟨Forest.proper_append.mpr ⟨hproper₁, hproper₂, hdisj₂.1, hblocks₂.1⟩,
      hne, ?_, ?_⟩
    · rw [Forest.iters_append, List.mem_append, not_or]
      exact ⟨hnot.1.1, hnot.2⟩
    · rw [Forest.blocks_append, List.mem_append, not_or]
      exact ⟨hptr.1.1, hptr.2⟩
  have hmem : ∀ i, i ∈ (Forest.cons p (f₁ ++ f₂) .nil).iters ↔
      i = p.iter ∨ i ∈ f₁.iters ∨ i ∈ f₂.iters := by simp
  suffices hrun : Returns (vlMsgPackRemove pack c.iter) fun pack' =>
      DomLinked pack' parent hash prev next (.cons p (f₁ ++ f₂) .nil) ∧
        pack₁.Relinks pack' (Forest.cons p (f₁ ++ f₂) .nil).iters by
    refine hrun.mono fun pack' ⟨hlinked, hr⟩ => ⟨hlinked, hproper', ?_, e, ?_⟩
    · exact (hev.forget.around around_remove).trans (hr.becomes (List.Subset.refl _)).toEvolves
    · rw [hr.node _ fun hi => ?_, hstrip.node, hget]
      rcases (hmem _).mp hi with hi | hi | hi
      · exact hc.2.2 hi
      · exact hc.1 hi
      · exact hc.2.1 hi
  obtain ⟨hfirst, hsecond⟩ := hp.fits.first htype
  have htotal := hp.fits.left htype
  rw [hrun, VlMsgPack.sample_eq hp₁, ok_bind]
  simp only [hp.type, htype]
  by_cases hzero : (ep.totalChildren + (2 ^ 32 - 1)) % 2 ^ 32 = 0
  · -- the last one
    obtain ⟨rfl, rfl⟩ : f₁ = .nil ∧ f₂ = .nil := by
      rw [htotal, Forest.length_append] at hzero
      cases f₁ <;> cases f₂ <;> simp_all
    rw [if_pos hzero, VlMsgPack.modify_eq hp₁]
    refine returns_ok ⟨⟨⟨_, VlMsgPack.node_edit_self hp₁, hp.parent, hp.prev, hp.next, hp.type,
      hp.extType, ?_⟩, domLinked_nil, domLinked_nil⟩, VlMsgPack.relinks_edit (by simp)⟩
    exact hp.fits.remove htype rfl rfl rfl
  · let ψ : VlMsgPackElement → VlMsgPackElement := fun parentElement =>
      { parentElement with
        totalChildren := (ep.totalChildren + (2 ^ 32 - 1)) % 2 ^ 32
        first := if parentElement.first = c.iter then f₂.firstIter 0 else parentElement.first
        second := if parentElement.second = c.iter then f₁.lastIter 0 else parentElement.second }
    have hr₂ : pack₁.Relinks (pack₁.edit p.iter ψ) [p.iter] :=
      VlMsgPack.relinks_edit (List.mem_singleton_self _)
    obtain ⟨pack₃, hleft, hlinked₁, hr₃⟩ := relink_last (x := f₂.firstIter 0)
      (h₁.relinks hr₂ (List.disjoint_singleton.mpr hnot.1.1)) hproper₁
    have h₂' := (h₂.relinks hr₂ (List.disjoint_singleton.mpr hnot.2)).relinks hr₃ hdisj₂.1.symm
    obtain ⟨pack₄, hright, hlinked₂, hr₄⟩ := relink_first (x := f₁.lastIter 0) h₂' hproper₂
    rw [if_neg hzero, VlMsgPack.modify_eq hp₁, ok_bind, hleft, ok_bind]
    refine Returns.mono ⟨pack₄, hright, rfl⟩ ?_
    rintro _ rfl
    have hr := hr₂.trans (hr₃.trans hr₄)
    have hp₄ : pack₄.node p.iter = _ := (hr₄.node _ hnot.2).trans
      ((hr₃.node _ hnot.1.1).trans (VlMsgPack.node_edit_self hp₁))
    refine ⟨⟨⟨ψ ep, hp₄, hp.parent, hp.prev, hp.next, hp.type, hp.extType, ?_⟩, ?_,
      domLinked_nil⟩, fun i hi => hr.node i fun hi' => hi ?_, hr.key, hr.values⟩
    · refine hp.fits.remove htype ?_ ?_ rfl
      · change (if ep.first = c.iter then f₂.firstIter 0 else ep.first) = _
        rw [hfirst, Forest.firstIter_append, Forest.firstIter_append]
        cases f₁ with
        | nil => exact if_pos rfl
        | cons b kb rest =>
          exact if_neg fun heq => hc.1 (by rw [← heq]; simp)
      · change (if ep.second = c.iter then f₁.lastIter 0 else ep.second) = _
        rw [hsecond, Forest.lastIter_append, Forest.lastIter_append, Forest.lastIter_cons]
        rcases Forest.eq_nil_or_append (f := f₂) with rfl | ⟨g, b, kb, rfl⟩
        · exact if_pos rfl
        · rw [Forest.lastIter_append, Forest.lastIter_append]
          exact if_neg fun heq => hc.2.1 (by rw [← heq]; simp)
    · exact domLinked_append.mpr ⟨hlinked₁.relinks hr₄ hdisj₂.1, hlinked₂⟩
    · rw [hmem]
      simpa only [List.mem_append, List.mem_singleton] using hi'

end Map

/-! ### A child of an array -/

/-- A slot whose node has been removed. -/
def DomEntry.nulled (c : DomEntry) : DomEntry :=
  ⟨c.iter, 0, c.node.key, .nil, c.node.value.extType, []⟩

section Array

variable {pack : VlMsgPack} {p c : DomEntry} {k f₁ f₂ : Forest DomEntry} {parent prev next : ℕ}
  {hash : UInt64}

/-- **The slot of a child of an array** gets a `NIL`, whatever is below the child. -/
theorem vlMsgPackRemove_slot
    (hlinked : DomLinked pack parent hash prev next (.cons p (f₁ ++ .cons c k f₂) .nil))
    (hproper : (Forest.cons p (f₁ ++ .cons c k f₂) .nil).Proper) (htype : p.node.value.type = .array)
    (hnil : ∀ n, pack.node c.iter = some n → c.node.value.type = .nil → n.element.first = 0) :
    Returns (vlMsgPackRemove pack c.iter) fun pack' =>
      DomLinked pack' parent hash prev next (.cons p (f₁ ++ .cons c.nulled .nil f₂) .nil) ∧
        (Forest.cons p (f₁ ++ .cons c.nulled .nil f₂) .nil).Proper ∧
        pack.Becomes pack' (.cons c k .nil) (.cons c.nulled .nil .nil) ∧
        (∃ e, pack'.node c.iter = some ⟨hierarchicalKey (p.node.hash hash) c.node.key, e⟩) ∧
        (¬ c.node.value.type.IsLeaf → pack'.values.broken = (pack.values.broken || k.erase.hollow)) := by
  obtain ⟨⟨ep, hp⟩, -, -⟩ := domLinked_cons.mp hlinked
  obtain ⟨pack₁, e, hstrip, hget, hprev, hnext, hparent, hext, hrun⟩ :=
    vlMsgPackRemove_strip hlinked.child hproper.child hnil (Store.ne_zero_of_get hp.get)
  obtain ⟨-, -, hnot, -⟩ := Forest.proper_single.mp hproper
  have hbare : pack.Becomes pack₁ (.cons c k .nil) (.cons c.nulled .nil .nil) :=
    ⟨⟨hstrip.becomes.node, hstrip.becomes.fresh, hstrip.becomes.block, hstrip.becomes.freshBlock⟩,
      hstrip.becomes.known⟩
  have hp₁ : pack₁.node p.iter = _ := hbare.node _ _ (fun hmem => hnot (by
    simp only [Forest.iters_append, Forest.iters_cons, Forest.iters_nil, List.append_nil, List.mem_append,
      List.mem_cons] at hmem ⊢
    tauto)) hp.get
  have hc₁ : pack₁.node c.iter = _ := hstrip.node.trans hget
  let φ : VlMsgPackElement → VlMsgPackElement := fun element => { element with type := .nil }
  have hr : pack₁.Relinks (pack₁.edit c.iter φ) [c.iter] :=
    VlMsgPack.relinks_edit (List.mem_singleton_self _)
  have hsub : [c.iter] ⊆ (Forest.cons c.nulled .nil .nil).iters := List.Subset.refl _
  have hbecomes : pack.Becomes (pack₁.edit c.iter φ) (.cons c k .nil) (.cons c.nulled .nil .nil) :=
    hbare.trans (hr.becomes hsub)
  have hproperc : (Forest.cons c.nulled .nil .nil).Proper :=
    Forest.proper_single.mpr ⟨⟨List.nodup_nil, List.not_mem_nil, List.nodup_nil⟩,
      Store.ne_zero_of_get hget, List.not_mem_nil, List.not_mem_nil⟩
  have hnode : (pack₁.edit c.iter φ).node c.iter = _ := VlMsgPack.node_edit_self hc₁
  obtain ⟨hlinked', hproper'⟩ := hlinked.replace hproper hbecomes.toEvolves
    ⟨⟨φ e, hnode, hparent, hprev, hnext, rfl, hext, .nil rfl rfl rfl rfl⟩, domLinked_nil, domLinked_nil⟩
    hproperc rfl rfl
  rw [hrun, VlMsgPack.sample_eq hp₁, ok_bind]
  simp only [hp.type, htype]
  rw [VlMsgPack.modify_eq hc₁]
  exact returns_ok ⟨hlinked', hproper', hbecomes, ⟨_, hnode⟩, hstrip.broken⟩

/-- **A child of an array is removed**: it is a `NIL` in its place. -/
theorem vlMsgPackRemove_array (h : pack.Sound parent hash prev next (.cons p (f₁ ++ .cons c k f₂) .nil))
    (htype : p.node.value.type = .array)
    (hnil : ∀ n, pack.node c.iter = some n → c.node.value.type = .nil → n.element.first = 0)
    (hleaf : ¬ c.node.value.type.IsLeaf) (hhollow : k.erase.hollow = false) :
    Returns (vlMsgPackRemove pack c.iter) fun pack' =>
      pack'.Sound parent hash prev next (.cons p (f₁ ++ .cons c.nulled .nil f₂) .nil) ∧
        pack.Becomes pack' (.cons p (f₁ ++ .cons c k f₂) .nil)
          (.cons p (f₁ ++ .cons c.nulled .nil f₂) .nil) ∧
        pack.KeepsKeys pack' (.cons c k .nil) (.cons c.nulled .nil .nil) := by
  refine (vlMsgPackRemove_slot h.linked h.proper htype hnil).mono ?_
  rintro pack' ⟨hlinked, hproper, hbecomes, -, hbroken⟩
  have hunbroken : pack'.values.broken = false := by
    rw [hbroken hleaf, h.unbroken, hhollow, Bool.or_false]
  refine ⟨⟨hlinked, hproper, hunbroken⟩, hbecomes.around around_replace, fun i n hi hn => ?_⟩
  obtain ⟨hold, hn⟩ := hbecomes.known i n hi hn
  exact ⟨hold, n, hn, rfl⟩

end Array

end VeritableLasagna
