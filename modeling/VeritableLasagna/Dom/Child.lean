import VeritableLasagna.Dom.Array

/-!
# Inserting a child

`vlMsgPackInsertExt` at the place of a node in its tree. A key that the parent has is overwritten: the
child keeps its node and its place among its siblings (`vlMsgPackInsertExt_replace`). A new key of a map
gets a new node behind the others (`vlMsgPackInsertExt_append`).
-/

namespace VeritableLasagna

/-- Where the nodes of `old` give way to those of `new`, no other node gets another key. -/
def VlMsgPack.KeepsKeys (pack pack' : VlMsgPack) (old new : Forest DomEntry) : Prop :=
  ∀ i n, i ∉ new.iters → pack'.node i = some n →
    i ∉ old.iters ∧ ∃ m, pack.node i = some m ∧ m.key = n.key

/-- **The document has the forest**, and its arena is in order. -/
structure VlMsgPack.Sound (pack : VlMsgPack) (parent : ℕ) (hash : UInt64) (prev next : ℕ)
    (f : Forest DomEntry) : Prop where
  linked : DomLinked pack parent hash prev next f
  proper : f.Proper
  unbroken : pack.values.broken = false

/-! ### Initialising any node -/

/-- The keys of the slots of a new array belong to no node outside of `is`. -/
def VlMsgPack.SlotsFree (pack : VlMsgPack) (type : VlMsgPackType) (data : Option (List UInt8))
    (hash : UInt64) (is : List ℕ) : Prop :=
  type = .array → ∀ idx, idx < arrayLength data → ∀ i n, pack.node i = some n →
    n.stored = slotKey hash idx → i ∈ is

/-- The number of slots that `vl_MsgPackInitNode` makes. -/
def slotCount (type : VlMsgPackType) (data : Option (List UInt8)) : ℕ :=
  if type = .array then arrayLength data else 0

section Init

variable {pack : VlMsgPack} {type : VlMsgPackType} {extType : ℤ} {parent dataLen iter : ℕ}
  {data : Option (List UInt8)} {hash : UInt64} {key : List UInt8} {e₀ : VlMsgPackElement}

/-- **`vl_MsgPackInitNode`** makes a tree of the node. -/
theorem vlMsgPackInitNode_spec (hn : pack.node iter = some ⟨hierarchicalKey hash key, e₀⟩)
    (hb : pack.values.broken = false) (hdata : DataFits type data dataLen)
    (hslots : pack.SlotsFree type data (vlHashMsgPackKey (hierarchicalKey hash key)) [])
    (hroom : pack.total + slotCount type data ≤ VlNodeTable.limit) :
    Returns (vlMsgPackInitNode type extType parent data dataLen pack iter) fun pack' =>
      ∃ a kids, a.iter = iter ∧ a.node.key = key ∧
        a.node.value.Made type extType data dataLen kids.erase ∧
        pack.Initialised pack' parent hash e₀ a kids := by
  by_cases htype : type = .array
  · subst htype
    obtain ⟨src, rfl⟩ := Option.ne_none_iff_exists'.mp (hdata.2 rfl)
    refine vlMsgPackInitArray_spec hn hb (fun idx hidx i n hi hkey => ?_) hroom
    exact absurd (hslots rfl idx hidx i n hi hkey) List.not_mem_nil
  · have hplain : vlMsgPackInitNode type extType parent data dataLen pack iter =
        vlMsgPackInitPlain type extType parent data dataLen pack iter := by
      cases type with
      | array => exact absurd rfl htype
      | _ => rfl
    rw [hplain]
    refine (vlMsgPackInitPlain_spec htype hn hb hdata).mono ?_
    rintro pack' ⟨a, hiter, hkey, hmade, hinit⟩
    exact ⟨a, .nil, hiter, hkey, hmade, hinit⟩

end Init

/-! ### Cleaning -/

/-- What is below `c` is gone, and so are its own block and those of the leaves below it. -/
structure VlMsgPack.Cleaned (pack pack' : VlMsgPack) (c : DomEntry) (k : Forest DomEntry) : Prop where
  gone : ∀ i ∈ k.iters, pack'.node i = none
  kept : ∀ i ∉ k.iters, pack'.node i = pack.node i
  block : ∀ q ∉ (Forest.cons c k .nil).blocks, pack'.block q = pack.block q
  freed : ∀ q ∈ (Forest.cons c k .nil).blocks, pack'.block q ≠ none ↔ q ∈ k.tables
  broken : pack'.values.broken = (pack.values.broken || k.erase.hollow)

section Clean

variable {pack pack₁ : VlMsgPack} {c : DomEntry} {k : Forest DomEntry} {parent prev next : ℕ}
  {hash : UInt64} {e : VlMsgPackElement}

/-- Freeing the block of a node whose children are gone. -/
theorem VlMsgPack.Freed.free (h : pack.Freed pack₁ k.iters (.cons c k .nil) [])
    (hptr : c.ptr ∉ k.blocks) (hne : c.ptr ≠ 0) (htable : c.node.value.type = .array) :
    pack.Cleaned (pack₁.free c.ptr) c k := by
  have hlive : pack₁.block c.ptr ≠ none :=
    (h.freed _ (Forest.mem_blocks_cons.mpr (Or.inl ⟨rfl, hne⟩))).mpr
      (Forest.mem_tables_cons.mpr (Or.inl ⟨rfl, hne, htable⟩))
  have hhollow : c.node.hollow = false := by
    simp [DomNode.hollow, VlMsgPackType.IsLeaf, htable]
  refine ⟨h.gone, h.kept, fun q hq => ?_, fun q hq => ?_, ?_⟩
  · have hq' : q ≠ c.ptr := by
      rintro rfl
      exact hq (Forest.mem_blocks_cons.mpr (Or.inl ⟨rfl, hne⟩))
    rw [VlMsgPack.block_free_of_ne hq', h.block q hq List.not_mem_nil]
  · rcases eq_or_ne q c.ptr with rfl | hq'
    · rw [VlMsgPack.block_free_self]
      exact iff_of_false (fun h => h rfl) fun h => hptr (Forest.mem_blocks_of_mem_tables h)
    · rw [VlMsgPack.block_free_of_ne hq', h.freed q hq, Forest.mem_tables_cons]
      simp [hq']
  · rw [VlMsgPack.broken_free hlive, h.broken]
    simp [hhollow]

/-- The cleaning of a node with nothing of its own to free. -/
theorem VlMsgPack.Freed.cleaned (h : pack.Freed pack₁ k.iters (.cons c k .nil) [])
    (hptr : c.ptr = 0) (hleaf : ¬ c.node.value.type.IsLeaf) : pack.Cleaned pack₁ c k := by
  refine ⟨h.gone, h.kept, fun q hq => h.block q hq List.not_mem_nil, fun q hq => ?_, ?_⟩
  · rw [h.freed q hq, Forest.mem_tables_cons]
    simp [hptr]
  · have hhollow : c.node.hollow = false := by simp [DomNode.hollow, hleaf]
    rw [h.broken]
    simp [hhollow]

/-- **`vlMsgPackClean`**, by the type of the node. -/
theorem vlMsgPackClean_spec (he : c.Stored pack parent hash prev next k e)
    (hk : DomLinked pack c.iter (c.node.hash hash) 0 0 k) (hproper : (Forest.cons c k .nil).Proper) :
    Returns (vlMsgPackClean pack c.iter) fun pack' => pack.Cleaned pack' c k := by
  have hptr := (Forest.proper_single.mp hproper).2.2.2
  obtain ⟨pack₁, hrun, hfreed⟩ := vlMsgPackFreeChildren_spec he hk hproper
  rw [vlMsgPackClean, VlMsgPack.sample_eq he.get, ok_bind]
  simp only [he.type]
  cases he.fits with
  | nil type payload ptr hnil =>
    rw [type, hnil]
    refine returns_ok ⟨fun _ h => absurd h List.not_mem_nil, fun _ _ => rfl, fun _ _ => rfl,
      fun q hq => ?_, (Bool.or_false _).symm⟩
    simp [ptr] at hq
  | leaf type first hnil ptr block =>
    suffices hcase : pack.Cleaned (if c.ptr ≠ 0 then pack.free c.ptr else pack) c k by
      obtain ⟨hnil, hmap, harray⟩ := type
      rw [first]
      split <;> first | contradiction | exact returns_ok hcase
    rw [hnil]
    refine ⟨fun _ h => absurd h List.not_mem_nil, fun i _ => ?_, fun q hq => ?_, fun q hq => ?_, ?_⟩
    · split_ifs <;> rfl
    · split_ifs with hne
      · refine VlMsgPack.block_free_of_ne ?_
        rintro rfl
        exact hq (Forest.mem_blocks_cons.mpr (Or.inl ⟨rfl, hne⟩))
      · rfl
    · obtain ⟨rfl, hne⟩ : q = c.ptr ∧ c.ptr ≠ 0 := by simpa using hq
      rw [if_pos hne, VlMsgPack.block_free_self]
      simp
    · have hbroken : (if c.ptr ≠ 0 then pack.free c.ptr else pack).values.broken =
          pack.values.broken := by
        split_ifs with hne
        · refine VlMsgPack.broken_free ?_
          rw [block hne]
          exact Option.some_ne_none _
        · rfl
      rw [hbroken]
      exact (Bool.or_false _).symm
  | map type payload ptr first second length totalChildren keys =>
    rw [type]
    exact ⟨pack₁, hrun, hfreed.cleaned ptr fun h => h.2.1 type⟩
  | array type payload first second length keys ptr block =>
    rw [type]
    simp only [hrun, first, ok_bind]
    split_ifs with hne
    · exact returns_ok (hfreed.free hptr hne type)
    · exact returns_ok (hfreed.cleaned (not_not.mp hne) fun h => h.2.2 type)

/-- The nodes that are gone make room. -/
theorem VlMsgPack.Cleaned.total (h : pack.Cleaned pack₁ c k) (hnodup : k.iters.Nodup)
    (hlive : ∀ i ∈ k.iters, pack.node i ≠ none) :
    pack₁.total + k.iters.length ≤ pack.total := by
  have hdisj : pack₁.nodes.store.live.Disjoint k.iters := fun i hi hk =>
    Store.not_mem_live.mpr (h.gone i hk) hi
  have happend : (pack₁.nodes.store.live ++ k.iters).Nodup :=
    List.nodup_append'.mpr ⟨pack₁.nodes.store.nodup, hnodup, hdisj⟩
  have hle := pack.length_le_total happend fun i hi => ?_
  · rwa [List.length_append] at hle
  · by_cases hk : i ∈ k.iters
    · exact hlive i hk
    · have hmem := (List.mem_append.mp hi).resolve_right hk
      rw [← h.kept i hk]
      exact fun hnone => Store.not_mem_live.mpr hnone hmem

/-- A cleaned node is bare. -/
theorem VlMsgPack.Cleaned.becomes (h : pack.Cleaned pack₁ c k) :
    pack.Becomes pack₁ (.cons c k .nil) (.bare c.iter) := by
  have hmem : ∀ i, i ∈ (Forest.cons c k .nil).iters ↔ i = c.iter ∨ i ∈ k.iters := by simp
  refine ⟨⟨fun i n hi hn => ?_, fun i hi hne => ?_, fun q b hq hb => ?_,
    fun q hq => absurd hq List.not_mem_nil⟩, fun i n hi hn => ?_⟩
  · rw [hmem, not_or] at hi
    rwa [h.kept i hi.2]
  · rw [hmem, not_or] at hne
    exact absurd (by simpa using hi) hne.1
  · rwa [h.block q hq]
  · have hk : i ∉ k.iters := fun hk => Option.some_ne_none _ (hn.symm.trans (h.gone i hk))
    rw [h.kept i hk] at hn
    refine ⟨?_, hn⟩
    rw [hmem, not_or]
    exact ⟨by simpa using hi, hk⟩

end Clean

/-! ### A child among its siblings -/

section Siblings

variable {pack : VlMsgPack} {parent prev next : ℕ} {hash : UInt64} {p c : DomEntry}
  {k f₁ f₂ : Forest DomEntry}

/-- A child is linked between its siblings. -/
theorem DomLinked.child (h : DomLinked pack parent hash prev next (.cons p (f₁ ++ .cons c k f₂) .nil)) :
    DomLinked pack p.iter (p.node.hash hash) (f₁.lastIter 0) (f₂.firstIter 0) (.cons c k .nil) := by
  obtain ⟨-, hkids, -⟩ := domLinked_cons.mp h
  obtain ⟨-, hchild⟩ := domLinked_append.mp hkids
  exact ⟨hchild.1, hchild.2.1, domLinked_nil⟩

theorem Forest.Proper.child (h : (Forest.cons p (f₁ ++ .cons c k f₂) .nil).Proper) :
    (Forest.cons c k .nil).Proper := by
  obtain ⟨hkids, -, -, -⟩ := Forest.proper_single.mp h
  obtain ⟨-, hchild, -, -⟩ := Forest.proper_append.mp hkids
  exact (Forest.proper_cons.mp hchild).1

/-- What is below the root of a tree. -/
theorem DomLinked.kids (h : DomLinked pack parent hash prev next (.cons p k .nil)) :
    DomLinked pack p.iter (p.node.hash hash) 0 0 k := h.2.1

theorem Forest.Proper.kids (h : (Forest.cons p k .nil).Proper) : k.Proper :=
  (Forest.proper_single.mp h).1

end Siblings

/-! ### An existing key -/

section Replace

variable {pack : VlMsgPack} {type : VlMsgPackType} {extType : ℤ} {parent prev next dataLen : ℕ}
  {data : Option (List UInt8)} {hash : UInt64} {p c : DomEntry} {k f₁ f₂ : Forest DomEntry}

/-- `vlMsgPackInsertExt` takes all but the one `EXT` type it knows. -/
def Accepted (type : VlMsgPackType) (extType : ℤ) : Prop := ¬(type = .ext ∧ extType = vlMsgPackExtNone)

instance : Decidable (Accepted type extType) := inferInstanceAs (Decidable (¬_))

/-- **A child is overwritten in its place.** -/
theorem vlMsgPackInsertExt_replace
    (h : pack.Sound parent hash prev next (.cons p (f₁ ++ .cons c k f₂) .nil))
    (hfind : pack.nodes.find (hierarchicalKey (p.node.hash hash) c.node.key) = c.iter)
    (hhollow : k.erase.hollow = false) (hext : Accepted type extType)
    (hdata : DataFits type data dataLen)
    (hslots : pack.SlotsFree type data (c.node.hash (p.node.hash hash)) k.iters)
    (hroom : pack.total + slotCount type data ≤ VlNodeTable.limit + k.iters.length) :
    Returns (vlMsgPackInsertExt pack type extType p.iter c.node.key data dataLen) fun r =>
      r.1 = c.iter ∧ ∃ a kids, a.iter = c.iter ∧ a.node.key = c.node.key ∧
        a.node.value.Made type extType data dataLen kids.erase ∧
        r.2.Sound parent hash prev next (.cons p (f₁ ++ .cons a kids f₂) .nil) ∧
        pack.Becomes r.2 (.cons p (f₁ ++ .cons c k f₂) .nil)
          (.cons p (f₁ ++ .cons a kids f₂) .nil) ∧
        pack.KeepsKeys r.2 (.cons c k .nil) (.cons a kids .nil) := by
  obtain ⟨hlinked, hproper, hb⟩ := h
  obtain ⟨⟨ep, hp⟩, -, -⟩ := domLinked_cons.mp hlinked
  obtain ⟨⟨e, he⟩, hk, -⟩ := domLinked_cons.mp hlinked.child
  obtain ⟨hproperk, -, hnot, -⟩ := Forest.proper_single.mp hproper.child
  obtain ⟨n, hrun⟩ := vlMsgPackInsertWith_old hb hp.get hfind (Store.ne_zero_of_get he.get)
  have hcount : DomLinked (pack.count n) _ _ _ _ (.cons c k .nil) :=
    hlinked.child.congr (fun _ _ => rfl) fun _ _ => rfl
  obtain ⟨⟨e', he'⟩, hk', -⟩ := domLinked_cons.mp hcount
  obtain ⟨pack₁, hclean, hcleaned⟩ := vlMsgPackClean_spec he' hk' hproper.child
  have hget : pack₁.node c.iter = some ⟨hierarchicalKey (p.node.hash hash) c.node.key, e'⟩ :=
    (hcleaned.kept _ hnot).trans he'.get
  have hb₁ : pack₁.values.broken = false := by
    rw [hcleaned.broken, hhollow, Bool.or_false]
    exact hb
  have hslots₁ : pack₁.SlotsFree type data
      (vlHashMsgPackKey (hierarchicalKey (p.node.hash hash) c.node.key)) [] := by
    intro htype idx hidx i m hm hkey
    by_cases hi : i ∈ k.iters
    · exact absurd (hm.symm.trans (hcleaned.gone i hi)) (Option.some_ne_none _)
    · exact absurd (hslots htype idx hidx i m ((hcleaned.kept i hi).symm.trans hm) hkey) hi
  have htotal : pack₁.total + k.iters.length ≤ pack.total :=
    hcleaned.total hproperk.nodup fun i hi => hk.node_ne_none hi
  rw [vlMsgPackInsertExt, if_neg hext, hrun, hclean, ok_bind]
  refine (vlMsgPackInitNode_spec hget hb₁ hdata hslots₁ (by omega)).bind ?_
  rintro pack₂ ⟨a, kids, hiter, hkey, hmade, hinit⟩
  have hcleaned' : pack.Cleaned pack₁ c k :=
    ⟨hcleaned.gone, hcleaned.kept, hcleaned.block, hcleaned.freed, hcleaned.broken⟩
  have hbecomes : pack.Becomes pack₂ (.cons c k .nil) (.cons a kids .nil) :=
    hcleaned'.becomes.trans (hiter ▸ hinit.becomes)
  have hprev : e'.prevSibling = f₁.lastIter 0 := he'.prev
  have hnext : e'.nextSibling = f₂.firstIter 0 := he'.next
  obtain ⟨hlinked', hproper'⟩ := hlinked.replace hproper hbecomes.toEvolves
    (hprev ▸ hnext ▸ hinit.linked) hinit.proper hiter hkey
  refine returns_ok ⟨rfl, a, kids, hiter, hkey, hmade, ⟨hlinked', hproper', hinit.broken⟩,
    hbecomes.around around_replace, fun i n hi hn => ?_⟩
  obtain ⟨hold, hn⟩ := hbecomes.known i n hi hn
  exact ⟨hold, n, hn, rfl⟩

end Replace

/-! ### A new key -/

section Append

variable {pack : VlMsgPack} {type : VlMsgPackType} {extType : ℤ}
  {parent prev next dataLen iter x y : ℕ} {data : Option (List UInt8)} {hash hash' : UInt64}
  {key : List UInt8} {p a : DomEntry} {f g kids k : Forest DomEntry}

/-- A map with one child more. -/
theorem DomEntry.Fits.append {pack' : VlMsgPack} {e e' : VlMsgPackElement} (h : p.Fits pack f e)
    (htype : p.node.value.type = .map) (hkey : a.node.key ∉ f.roots.map (·.node.key))
    (hlen : f.length + 1 < 2 ^ 32) (hfirst : e'.first = (f ++ .cons a k .nil).firstIter 0)
    (hsecond : e'.second = a.iter)
    (htotal : e'.totalChildren = (e.totalChildren + 1) % 2 ^ 32) :
    p.Fits pack' (f ++ .cons a k .nil) e' := by
  cases h with
  | nil type => exact absurd (type.symm.trans htype) (by decide)
  | leaf type => exact absurd htype type.2.1
  | array type => exact absurd (type.symm.trans htype) (by decide)
  | map type payload ptr first second length totalChildren keys =>
    refine .map type payload ptr hfirst (by simpa using hsecond) (by simpa using hlen) ?_ ?_
    · rw [htotal, totalChildren, Nat.mod_eq_of_lt hlen, Forest.length_append, Forest.length_cons,
        Forest.length_nil]
    · rw [Forest.roots_append, List.map_append, Forest.roots_cons, Forest.roots_nil, List.map_cons,
        List.map_nil]
      exact List.nodup_append'.mpr ⟨keys, List.nodup_singleton _, List.disjoint_singleton.mpr hkey⟩

/-- The first child of a map is its first child, if it has any. -/
theorem DomEntry.Fits.first {e : VlMsgPackElement} (h : p.Fits pack f e)
    (htype : p.node.value.type = .map) : e.first = f.firstIter 0 ∧ e.second = f.lastIter 0 := by
  cases h with
  | nil type => exact absurd (type.symm.trans htype) (by decide)
  | leaf type => exact absurd htype type.2.1
  | array type => exact absurd (type.symm.trans htype) (by decide)
  | map type payload ptr first second length totalChildren keys => exact ⟨first, second⟩

theorem Forest.Proper.firstIter_eq_zero (h : f.Proper) (hzero : f.firstIter 0 = 0) : f = .nil := by
  cases f with
  | nil => rfl
  | cons a k rest =>
    have hmem : a.iter ∈ (Forest.cons a k rest).iters := by simp
    exact absurd (hzero ▸ hmem) h.ne_zero

/-- **A node becomes the last child of a map.** -/
theorem vlMsgPackLinkChild_spec (h : DomLinked pack parent hash prev next (.cons p f .nil))
    (hproper : (Forest.cons p (f ++ .cons a k .nil) .nil).Proper)
    (htype : p.node.value.type = .map) (hkey : a.node.key ∉ f.roots.map (·.node.key))
    (hlen : f.length + 1 < 2 ^ 32)
    (ha : DomLinked pack p.iter (p.node.hash hash) x y (.cons a k .nil)) :
    Returns (vlMsgPackLinkChild pack p.iter key a.iter) fun pack' =>
      DomLinked pack' parent hash prev next (.cons p (f ++ .cons a k .nil) .nil) ∧
        pack.Relinks pack' (Forest.cons p (f ++ .cons a .nil .nil) .nil).iters := by
  obtain ⟨⟨e, hp⟩, hf, -⟩ := h
  obtain ⟨⟨e', he⟩, hk, -⟩ := ha
  obtain ⟨hkids, -, hnot, -⟩ := Forest.proper_single.mp hproper
  obtain ⟨hproperf, hpropera, hdisj, -⟩ := Forest.proper_append.mp hkids
  obtain ⟨hproperk, -, hnota, -⟩ := Forest.proper_single.mp hpropera
  obtain ⟨hfirst, hsecond⟩ := hp.fits.first htype
  have hmem : ∀ i, i ∈ (Forest.cons a k .nil).iters ↔ i = a.iter ∨ i ∈ k.iters := by simp
  simp only [Forest.iters_append, List.mem_append, hmem, not_or] at hnot
  -- the node itself
  let φ : VlMsgPackElement → VlMsgPackElement := fun element =>
    { element with prevSibling := f.lastIter 0, nextSibling := 0 }
  have hf₁ : DomLinked (pack.edit a.iter φ) p.iter (p.node.hash hash) 0 0 f :=
    hf.congr (fun i hi => VlMsgPack.node_edit_of_ne fun heq => hdisj hi (heq ▸ by simp)) fun _ _ => rfl
  have hp₁ : (pack.edit a.iter φ).node p.iter = _ := (VlMsgPack.node_edit_of_ne hnot.2.1).trans hp.get
  have hr₁ : pack.Relinks (pack.edit a.iter φ) [a.iter] :=
    VlMsgPack.relinks_edit (List.mem_singleton_self _)
  -- the child before it
  obtain ⟨pack₂, hlast, hf₂, hr₂⟩ := relink_last (x := a.iter) hf₁ hproperf
  have ha₂ : pack₂.node a.iter = _ :=
    (hr₂.node _ fun hi => hdisj hi (by simp)).trans (VlMsgPack.node_edit_self he.get)
  have hp₂ : pack₂.node p.iter = _ := (hr₂.node _ hnot.1).trans hp₁
  -- the map
  let ψ : VlMsgPackElement → VlMsgPackElement := fun parentElement =>
    { parentElement with
      totalChildren := (parentElement.totalChildren + 1) % 2 ^ 32
      second := a.iter
      first := if parentElement.first = 0 then a.iter else parentElement.first }
  have hr₃ : pack₂.Relinks (pack₂.edit p.iter ψ) [p.iter] :=
    VlMsgPack.relinks_edit (List.mem_singleton_self _)
  have hrun : vlMsgPackLinkChild pack p.iter key a.iter = .ok (pack₂.edit p.iter ψ) := by
    rw [vlMsgPackLinkChild, VlMsgPack.sample_eq hp.get, ok_bind]
    simp only [hp.type, htype, hsecond]
    rw [VlMsgPack.modify_eq he.get, ok_bind, hlast, ok_bind, VlMsgPack.modify_eq hp₂]
  have hr := hr₁.trans (hr₂.trans hr₃)
  refine ⟨_, hrun, ⟨⟨ψ e, ?_⟩, ?_, domLinked_nil⟩, fun i hi => hr.node i ?_, hr.key, hr.values⟩
  · refine ⟨VlMsgPack.node_edit_self hp₂, hp.parent, hp.prev, hp.next, hp.type, hp.extType, ?_⟩
    refine hp.fits.append htype hkey hlen ?_ rfl rfl
    rw [Forest.firstIter_append, Forest.firstIter_cons]
    by_cases hzero : f.firstIter 0 = 0
    · obtain rfl := hproperf.firstIter_eq_zero hzero
      exact if_pos hfirst
    · have hne : e.first ≠ 0 := hfirst ▸ hzero
      refine (if_neg hne).trans (hfirst.trans ?_)
      cases f with
      | nil => exact absurd rfl hzero
      | cons b kb rest => rfl
  · refine domLinked_append.mpr ⟨?_, ⟨φ e', ?_⟩, ?_, domLinked_nil⟩
    · exact hf₂.relinks hr₃ (List.disjoint_singleton.mpr hnot.1)
    · refine ⟨(VlMsgPack.node_edit_of_ne (Ne.symm hnot.2.1)).trans ha₂, he.parent, rfl, rfl, he.type,
        he.extType, ?_⟩
      refine he.fits.relink (fun _ => ?_) rfl rfl rfl
      rw [VlMsgPack.block, hr.values]
    · refine hk.relinks hr fun i hi hi' => ?_
      rw [List.mem_append, List.mem_append, List.mem_singleton, List.mem_singleton] at hi'
      rcases hi' with rfl | hi' | rfl
      · exact hnota hi
      · exact hdisj hi' ((hmem i).mpr (Or.inr hi))
      · exact hnot.2.2 hi
  · simp only [Forest.iters_cons, Forest.iters_append, Forest.iters_nil, List.append_nil, List.mem_cons,
      List.mem_append, List.not_mem_nil, or_false, not_or] at hi ⊢
    exact ⟨hi.2.2, hi.2.1, hi.1⟩

/-- A new tree comes out of nothing. -/
theorem VlMsgPack.Added.becomes {pack₁ pack₂ : VlMsgPack} {hk : List UInt8}
    (hadd : pack.Added pack₁ iter hk) (h : pack₁.Becomes pack₂ (.bare iter) g) :
    pack.Becomes pack₂ .nil g := by
  have hnew : ∀ i, pack₁.node i = none → i ≠ iter := fun i hnone heq =>
    Option.some_ne_none _ (hadd.node.symm.trans (heq ▸ hnone))
  refine ⟨⟨fun i n _ hn => ?_, fun i hi _ => ?_, fun q b _ hb => ?_, fun q hq _ => ?_⟩,
    fun i n hi hn => ⟨List.not_mem_nil, ?_⟩⟩
  · have hne : i ≠ iter := fun heq => Option.some_ne_none _ (hn.symm.trans (heq ▸ hadd.fresh))
    exact h.node i n (by simpa using hne) ((hadd.others i hne).trans hn)
  · by_cases hbare : i = iter
    · exact hbare ▸ hadd.fresh
    · rw [← hadd.others i hbare]
      exact h.fresh i hi (by simpa using hbare)
  · exact h.block q b List.not_mem_nil ((hadd.block q).trans hb)
  · rw [← hadd.block q]
    exact h.freshBlock q hq List.not_mem_nil
  · obtain ⟨hbare, hn⟩ := h.known i n hi hn
    rwa [hadd.others i (by simpa using hbare)] at hn

/-- A map and a new node, side by side. -/
theorem VlMsgPack.Added.apart {pack₁ pack₂ : VlMsgPack} {e₀ : VlMsgPackElement} {hk : List UInt8}
    (hadd : pack.Added pack₁ a.iter hk) (h : DomLinked pack parent hash prev next (.cons p f .nil))
    (hproper : (Forest.cons p f .nil).Proper)
    (hinit : pack₁.Initialised pack₂ x hash' e₀ a k) :
    DomLinked pack₂ parent hash prev next (.cons p f .nil) ∧
      (Forest.cons p (f ++ .cons a k .nil) .nil).Proper := by
  have hnew : a.iter ∉ (Forest.cons p f .nil).iters := fun hmem => h.node_ne_none hmem hadd.fresh
  have h₁ : DomLinked pack₁ parent hash prev next (.cons p f .nil) :=
    h.congr (fun i hi => hadd.others i fun heq => hnew (heq ▸ hi)) fun q _ => hadd.block q
  have hiters : (Forest.cons p f .nil).iters.Disjoint (Forest.bare a.iter).iters := by
    rw [Forest.iters_bare]
    exact List.disjoint_singleton.mpr hnew
  have hblocks : (Forest.cons p f .nil).blocks.Disjoint (Forest.bare a.iter).blocks :=
    List.disjoint_nil_right _
  obtain ⟨hi, hq⟩ := h₁.disjoint_of_evolves hinit.becomes.toEvolves hiters hblocks
  refine ⟨h₁.evolves hinit.becomes.toEvolves hiters hblocks, ?_⟩
  obtain ⟨hf, hne, hnot, hptr⟩ := Forest.proper_single.mp hproper
  rw [Forest.iters_cons, Forest.iters_nil, List.append_nil, List.disjoint_cons_left] at hi
  have hq' : ∀ q ∈ f.blocks, q ∉ (Forest.cons a k .nil).blocks := fun q hmem =>
    hq (Forest.mem_blocks_cons.mpr (Or.inr (Or.inl hmem)))
  refine Forest.proper_single.mpr ⟨Forest.proper_append.mpr ⟨hf, hinit.proper, hi.2, hq'⟩, hne, ?_, ?_⟩
  · rw [Forest.iters_append, List.mem_append, not_or]
    exact ⟨hnot, hi.1⟩
  · rw [Forest.blocks_append, List.mem_append, not_or]
    refine ⟨hptr, fun hmem => ?_⟩
    have hne : p.ptr ≠ 0 := fun hzero => Forest.zero_not_mem_blocks (hzero ▸ hmem)
    exact hq (Forest.mem_blocks_cons.mpr (Or.inl ⟨rfl, hne⟩)) hmem

/-- **A new key of a map** gets a node behind the others. -/
theorem vlMsgPackInsertExt_append (h : pack.Sound parent hash prev next (.cons p f .nil))
    (htype : p.node.value.type = .map) (hkey : key ∉ f.roots.map (·.node.key))
    (hfind : pack.nodes.find (hierarchicalKey (p.node.hash hash) key) = 0)
    (hext : Accepted type extType)
    (hdata : DataFits type data dataLen)
    (hslots : pack.SlotsFree type data
      (vlHashMsgPackKey (hierarchicalKey (p.node.hash hash) key)) [])
    (hself : type = .array → ∀ idx, idx < arrayLength data →
      VlMsgPackNode.stored ⟨hierarchicalKey (p.node.hash hash) key, default⟩ ≠
        slotKey (vlHashMsgPackKey (hierarchicalKey (p.node.hash hash) key)) idx)
    (hroom : pack.total + 1 + slotCount type data ≤ VlNodeTable.limit) :
    Returns (vlMsgPackInsertExt pack type extType p.iter key data dataLen) fun r =>
      ∃ a kids, r.1 = a.iter ∧ a.node.key = key ∧
        a.node.value.Made type extType data dataLen kids.erase ∧
        r.2.Sound parent hash prev next (.cons p (f ++ .cons a kids .nil) .nil) ∧
        pack.Becomes r.2 (.cons p f .nil) (.cons p (f ++ .cons a kids .nil) .nil) ∧
        pack.KeepsKeys r.2 .nil (.cons a kids .nil) := by
  obtain ⟨hlinked, hproper, hb⟩ := h
  obtain ⟨⟨ep, hp⟩, -, -⟩ := domLinked_cons.mp hlinked
  rw [vlMsgPackInsertExt, if_neg hext]
  obtain ⟨iter, pack₁, hadd, hrun⟩ := vlMsgPackInsertWith_new hb hp.get hfind (by omega)
  rw [hrun]
  have hcount : f.length + 1 < 2 ^ 32 := by
    have hcount : f.iters.length ≤ pack.total :=
      VlMsgPack.length_le_total hproper.kids.nodup fun i hi => hlinked.kids.node_ne_none hi
    have hle : f.length ≤ f.iters.length := Forest.length_le_length_iters
    rw [VlNodeTable.limit] at hroom
    omega
  have hb₁ : pack₁.values.broken = false := hadd.broken.trans hb
  have hslots₁ : pack₁.SlotsFree type data
      (vlHashMsgPackKey (hierarchicalKey (p.node.hash hash) key)) [] := by
    intro harray idx hidx i n hn hnkey
    rcases eq_or_ne i iter with rfl | hne
    · rw [hadd.node] at hn
      obtain rfl := Option.some_injective _ hn
      exact absurd hnkey (hself harray idx hidx)
    · exact hslots harray idx hidx i n ((hadd.others i hne).symm.trans hn) hnkey
  refine (vlMsgPackInitNode_spec hadd.node hb₁ hdata hslots₁ (by rw [hadd.total]; omega)).bind ?_
  rintro pack₂ ⟨a, kids, rfl, rfl, hmade, hinit⟩
  obtain ⟨hlinked₂, hproper₂⟩ := hadd.apart hlinked hproper hinit
  refine (vlMsgPackLinkChild_spec hlinked₂ hproper₂ htype hkey hcount hinit.linked).bind ?_
  rintro pack₃ ⟨hlinked₃, hr⟩
  refine returns_ok ⟨a, kids, rfl, rfl, hmade, ⟨hlinked₃, hproper₂, ?_⟩, ?_, fun i n hi hn => ?_⟩
  · rw [hr.values]
    exact hinit.broken
  · refine ((hadd.becomes hinit.becomes).around around_append).trans (hr.becomes fun i hi => ?_)
    simp only [Forest.iters_cons, Forest.iters_append, Forest.iters_nil, List.append_nil, List.mem_cons,
      List.mem_append, List.not_mem_nil, or_false] at hi ⊢
    tauto
  · obtain ⟨m, hm, hkey⟩ := hr.key i n hn
    obtain ⟨hold, hm⟩ := (hadd.becomes hinit.becomes).known i m hi hm
    exact ⟨hold, m, hm, hkey⟩

end Append

end VeritableLasagna
