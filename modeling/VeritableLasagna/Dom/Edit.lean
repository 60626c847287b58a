import VeritableLasagna.Dom.Free

/-!
# Changing a tree in place

An operation on a document works on the tree below one node. `Evolves` is what the rest of the document
sees of it: the nodes and blocks outside the old tree stay, and the new tree is made of the old one and
of what was free. So a tree can be changed inside a larger one (`DomLinked.replace`). `Becomes` says in
addition that nothing else is left behind.
-/

namespace VeritableLasagna

/-- The nodes and blocks outside of `f` stay, and those of `g` are from `f` or new. -/
structure VlMsgPack.Evolves (pack pack' : VlMsgPack) (f g : Forest DomEntry) : Prop where
  node : ∀ i n, i ∉ f.iters → pack.node i = some n → pack'.node i = some n
  fresh : ∀ i ∈ g.iters, i ∉ f.iters → pack.node i = none
  block : ∀ q b, q ∉ f.blocks → pack.block q = some b → pack'.block q = some b
  freshBlock : ∀ q ∈ g.blocks, q ∉ f.blocks → pack.block q = none

/-- The nodes of `f` are replaced by those of `g`, and there are no others. -/
structure VlMsgPack.Becomes (pack pack' : VlMsgPack) (f g : Forest DomEntry) : Prop
    extends pack.Evolves pack' f g where
  known : ∀ i n, i ∉ g.iters → pack'.node i = some n → i ∉ f.iters ∧ pack.node i = some n

namespace VlMsgPack

variable {pack pack₁ pack₂ : VlMsgPack} {f g h F G : Forest DomEntry}

theorem Evolves.trans (h₁ : pack.Evolves pack₁ f g) (h₂ : pack₁.Evolves pack₂ g h) :
    pack.Evolves pack₂ f h := by
  refine ⟨fun i n hi hn => ?_, fun i hi hf => ?_, fun q b hq hb => ?_, fun q hq hf => ?_⟩
  · refine h₂.node i n (fun hg => ?_) (h₁.node i n hi hn)
    rw [h₁.fresh i hg hi] at hn
    cases hn
  · by_cases hg : i ∈ g.iters
    · exact h₁.fresh i hg hf
    · by_contra hne
      obtain ⟨n, hn⟩ := Option.ne_none_iff_exists'.mp hne
      have hsome := h₁.node i n hf hn
      rw [h₂.fresh i hi hg] at hsome
      cases hsome
  · refine h₂.block q b (fun hg => ?_) (h₁.block q b hq hb)
    rw [h₁.freshBlock q hg hq] at hb
    cases hb
  · by_cases hg : q ∈ g.blocks
    · exact h₁.freshBlock q hg hf
    · by_contra hne
      obtain ⟨b, hb⟩ := Option.ne_none_iff_exists'.mp hne
      have hsome := h₁.block q b hf hb
      rw [h₂.freshBlock q hq hg] at hsome
      cases hsome

/-- Nothing need be said of the new tree. -/
theorem Evolves.forget (h : pack.Evolves pack₁ f g) : pack.Evolves pack₁ f .nil :=
  ⟨h.node, fun _ hi => absurd hi List.not_mem_nil, h.block, fun _ hq => absurd hq List.not_mem_nil⟩

theorem Becomes.trans (h₁ : pack.Becomes pack₁ f g) (h₂ : pack₁.Becomes pack₂ g h) :
    pack.Becomes pack₂ f h := by
  refine ⟨h₁.toEvolves.trans h₂.toEvolves, fun i n hi hn => ?_⟩
  obtain ⟨hg, hn⟩ := h₂.known i n hi hn
  exact h₁.known i n hg hn

theorem Becomes.refl : pack.Becomes pack f f :=
  ⟨⟨fun _ _ _ h => h, fun _ h h' => absurd h h', fun _ _ _ h => h, fun _ h h' => absurd h h'⟩,
    fun _ _ h h' => ⟨h, h'⟩⟩

/-- `F` and `G` are `f` and `g` in the same surroundings. -/
structure Around (f g F G : Forest DomEntry) : Prop where
  iters : ∀ i, (i ∈ F.iters ↔ i ∈ f.iters ∨ i ∈ F.iters ∧ i ∈ G.iters) ∧
    (i ∈ G.iters ↔ i ∈ g.iters ∨ i ∈ F.iters ∧ i ∈ G.iters)
  blocks : ∀ q, (q ∈ F.blocks ↔ q ∈ f.blocks ∨ q ∈ F.blocks ∧ q ∈ G.blocks) ∧
    (q ∈ G.blocks ↔ q ∈ g.blocks ∨ q ∈ F.blocks ∧ q ∈ G.blocks)

/-- What happens to a part happens to the whole. -/
theorem Evolves.around (h : pack.Evolves pack₁ f g) (ha : Around f g F G) :
    pack.Evolves pack₁ F G := by
  refine ⟨fun i n hi hn => ?_, fun i hi hF => ?_, fun q b hq hb => ?_, fun q hq hF => ?_⟩
  · exact h.node i n (fun hf => hi ((ha.iters i).1.mpr (Or.inl hf))) hn
  · have hg := ((ha.iters i).2.mp hi).resolve_right fun hboth => hF hboth.1
    exact h.fresh i hg fun hf => hF ((ha.iters i).1.mpr (Or.inl hf))
  · exact h.block q b (fun hf => hq ((ha.blocks q).1.mpr (Or.inl hf))) hb
  · have hg := ((ha.blocks q).2.mp hq).resolve_right fun hboth => hF hboth.1
    exact h.freshBlock q hg fun hf => hF ((ha.blocks q).1.mpr (Or.inl hf))

theorem Becomes.around (h : pack.Becomes pack₁ f g) (ha : Around f g F G) :
    pack.Becomes pack₁ F G := by
  refine ⟨h.toEvolves.around ha, fun i n hi hn => ?_⟩
  obtain ⟨hf, hn⟩ := h.known i n (fun hg => hi ((ha.iters i).2.mpr (Or.inl hg))) hn
  exact ⟨fun hF => ((ha.iters i).1.mp hF).elim hf fun hboth => hi hboth.2, hn⟩

end VlMsgPack

/-! ### The surroundings of a tree -/

section Replace

variable {pack pack' : VlMsgPack} {parent prev next x : ℕ} {hash : UInt64} {p a c c' : DomEntry}
  {f g f₁ f₂ k k' : Forest DomEntry} {e : VlMsgPackElement}

/-- What is outside of the part that changes stays linked. -/
theorem DomLinked.evolves (h : DomLinked pack parent hash prev next f) (hev : pack.Evolves pack' g g')
    (hiters : f.iters.Disjoint g.iters) (hblocks : f.blocks.Disjoint g.blocks) :
    DomLinked pack' parent hash prev next f := by
  refine h.congr (fun i hi => ?_) fun q hq => ?_
  · obtain ⟨n, hn⟩ := Option.ne_none_iff_exists'.mp (h.node_ne_none hi)
    rw [hn]
    exact hev.node i n (hiters hi) hn
  · obtain ⟨b, hb⟩ := Option.ne_none_iff_exists'.mp (h.block_ne_none hq)
    rw [hb]
    exact hev.block q b (hblocks hq) hb

/-- The parts of a new tree are not used by what is outside of the old one. -/
theorem DomLinked.disjoint_of_evolves (h : DomLinked pack parent hash prev next f)
    (hev : pack.Evolves pack' g g') (hiters : f.iters.Disjoint g.iters)
    (hblocks : f.blocks.Disjoint g.blocks) :
    f.iters.Disjoint g'.iters ∧ f.blocks.Disjoint g'.blocks := by
  refine ⟨fun i hi hg' => ?_, fun q hq hg' => ?_⟩
  · exact h.node_ne_none hi (hev.fresh i hg' (hiters hi))
  · exact h.block_ne_none hq (hev.freshBlock q hg' (hblocks hq))

theorem around_replace : VlMsgPack.Around (.cons c k .nil) (.cons c' k' .nil)
    (.cons p (f₁ ++ .cons c k f₂) .nil) (.cons p (f₁ ++ .cons c' k' f₂) .nil) := by
  constructor <;> intro i <;> constructor <;> simp <;> tauto

theorem around_append : VlMsgPack.Around .nil (.cons c k .nil) (.cons p f .nil)
    (.cons p (f ++ .cons c k .nil) .nil) := by
  constructor <;> intro i <;> constructor <;> simp <;> tauto

theorem around_remove : VlMsgPack.Around (.cons c k .nil) .nil (.cons p (f₁ ++ .cons c k f₂) .nil)
    (.cons p (f₁ ++ f₂) .nil) := by
  constructor <;> intro i <;> constructor <;> simp <;> tauto

/-- A child that keeps its iterator and its key fits in its place. -/
theorem DomEntry.Fits.replace (h : p.Fits pack (f₁ ++ .cons c k f₂) e) (hiter : c'.iter = c.iter)
    (hkey : c'.node.key = c.node.key) : p.Fits pack (f₁ ++ .cons c' k' f₂) e := by
  cases h with
  | nil type payload ptr hnil => cases f₁ <;> cases hnil
  | leaf type first hnil ptr block => cases f₁ <;> cases hnil
  | map type payload ptr first second length totalChildren keys =>
    have hlength : (f₁ ++ Forest.cons c' k' f₂).length = (f₁ ++ Forest.cons c k f₂).length := by
      rw [Forest.length_append, Forest.length_append, Forest.length_cons, Forest.length_cons]
    refine .map type payload ptr ?_ ?_ (by rwa [hlength]) (by rwa [hlength]) ?_
    · rw [first, Forest.firstIter_append, Forest.firstIter_append, Forest.firstIter_cons,
        Forest.firstIter_cons, hiter]
    · rw [second, Forest.lastIter_append, Forest.lastIter_append, Forest.lastIter_cons,
        Forest.lastIter_cons, hiter]
    · rw [Forest.roots_append, Forest.roots_cons, List.map_append, List.map_cons] at keys ⊢
      rwa [hkey]
  | array type payload first second length keys ptr block =>
    have hlength : (f₁ ++ Forest.cons c' k' f₂).length = (f₁ ++ Forest.cons c k f₂).length := by
      rw [Forest.length_append, Forest.length_append, Forest.length_cons, Forest.length_cons]
    refine .array type payload first (by rw [second, hlength]) (by rwa [hlength]) ?_
      (by rwa [hlength]) fun hne => ?_
    · rw [hlength, ← keys, Forest.roots_append, Forest.roots_append, Forest.roots_cons,
        Forest.roots_cons, List.map_append, List.map_append, List.map_cons, List.map_cons, hkey]
    · rw [block hne, Forest.roots_append, Forest.roots_append, Forest.roots_cons,
        Forest.roots_cons, List.map_append, List.map_append, List.map_cons, List.map_cons, hiter]

/-- What an entry asks for does not depend on its links. -/
theorem DomEntry.Fits.relink {e' : VlMsgPackElement} (h : a.Fits pack k e)
    (hblock : a.ptr ≠ 0 → pack'.block a.ptr = pack.block a.ptr) (hfirst : e'.first = e.first)
    (hsecond : e'.second = e.second) (htotal : e'.totalChildren = e.totalChildren) :
    a.Fits pack' k e' := by
  cases h.congr hblock with
  | nil type payload ptr hnil => exact .nil type payload ptr hnil
  | leaf type first hnil ptr block => exact .leaf type (hfirst.trans first) hnil ptr block
  | map type payload ptr first second length totalChildren keys =>
    exact .map type payload ptr (hfirst.trans first) (hsecond.trans second) length
      (htotal.trans totalChildren) keys
  | array type payload first second length keys ptr block =>
    exact .array type payload (hfirst.trans first) (hsecond.trans second) length keys ptr block

/-- **A child changes below its node.** -/
theorem DomLinked.replace (h : DomLinked pack parent hash prev next (.cons p (f₁ ++ .cons c k f₂) .nil))
    (hproper : (Forest.cons p (f₁ ++ .cons c k f₂) .nil).Proper)
    (hev : pack.Evolves pack' (.cons c k .nil) (.cons c' k' .nil))
    (hchild : DomLinked pack' p.iter (p.node.hash hash) (f₁.lastIter 0) (f₂.firstIter 0)
      (.cons c' k' .nil))
    (hproper' : (Forest.cons c' k' .nil).Proper) (hiter : c'.iter = c.iter)
    (hkey : c'.node.key = c.node.key) :
    DomLinked pack' parent hash prev next (.cons p (f₁ ++ .cons c' k' f₂) .nil) ∧
      (Forest.cons p (f₁ ++ .cons c' k' f₂) .nil).Proper := by
  obtain ⟨⟨e, he⟩, hkids, -⟩ := h
  rw [Forest.append_cons, domLinked_append, domLinked_append] at hkids
  obtain ⟨⟨h₁, hc⟩, h₂⟩ := hkids
  obtain ⟨hp, hne, hnot, hptr⟩ := Forest.proper_single.mp hproper
  rw [Forest.append_cons] at hp hnot hptr
  obtain ⟨hp₁, hp₂, hi₂, hb₂⟩ := Forest.proper_append.mp hp
  obtain ⟨hp₁, hpc, hi₁, hb₁⟩ := Forest.proper_append.mp hp₁
  rw [Forest.iters_append, Forest.iters_append, List.mem_append, List.mem_append, not_or,
    not_or] at hnot
  rw [Forest.blocks_append, Forest.blocks_append, List.mem_append, List.mem_append, not_or,
    not_or] at hptr
  rw [Forest.iters_append, List.disjoint_append_left] at hi₂
  rw [Forest.blocks_append, List.disjoint_append_left] at hb₂
  obtain ⟨hi₁', hb₁'⟩ := h₁.disjoint_of_evolves hev hi₁ hb₁
  obtain ⟨hi₂', hb₂'⟩ := h₂.disjoint_of_evolves hev hi₂.2.symm hb₂.2.symm
  have hnode : pack'.node p.iter = pack.node p.iter := by
    rw [he.get]
    exact hev.node _ _ hnot.1.2 he.get
  have hblock : p.ptr ≠ 0 → pack'.block p.ptr = pack.block p.ptr := by
    intro hne
    obtain ⟨b, hb⟩ := Option.ne_none_iff_exists'.mp (he.fits.block_ne_none hne)
    rw [hb]
    exact hev.block _ _ hptr.1.2 hb
  have he' := he.congr hnode hblock
  refine ⟨⟨⟨e, he'.get, he'.parent, he'.prev, he'.next, he'.type, he'.extType,
    he'.fits.replace hiter hkey⟩, ?_, domLinked_nil⟩, ?_⟩
  · rw [Forest.append_cons, domLinked_append, domLinked_append]
    refine ⟨⟨?_, ?_⟩, ?_⟩
    · rw [Forest.firstIter_cons, hiter]
      exact h₁.evolves hev hi₁ hb₁
    · exact hchild
    · rw [Forest.lastIter_append, Forest.lastIter_cons, hiter]
      rw [Forest.lastIter_append, Forest.lastIter_cons] at h₂
      exact h₂.evolves hev hi₂.2.symm hb₂.2.symm
  · rw [Forest.append_cons, Forest.proper_single]
    refine ⟨?_, hne, ?_, ?_⟩
    · refine Forest.proper_append.mpr ⟨Forest.proper_append.mpr ⟨hp₁, hproper', hi₁', hb₁'⟩, hp₂,
        ?_, ?_⟩
      · rw [Forest.iters_append, List.disjoint_append_left]
        exact ⟨hi₂.1, hi₂'.symm⟩
      · rw [Forest.blocks_append, List.disjoint_append_left]
        exact ⟨hb₂.1, hb₂'.symm⟩
    · rw [Forest.iters_append, Forest.iters_append, List.mem_append, List.mem_append, not_or, not_or]
      refine ⟨⟨hnot.1.1, fun hmem => ?_⟩, hnot.2⟩
      have hnone := he.get.symm.trans (hev.fresh _ hmem hnot.1.2)
      cases hnone
    · rw [Forest.blocks_append, Forest.blocks_append, List.mem_append, List.mem_append, not_or, not_or]
      refine ⟨⟨hptr.1.1, fun hmem => ?_⟩, hptr.2⟩
      have hne : p.ptr ≠ 0 := fun hzero => Forest.zero_not_mem_blocks (hzero ▸ hmem)
      exact he.fits.block_ne_none hne (hev.freshBlock _ hmem hptr.1.2)

/-! ### Links -/

/-- The last tree gets another successor. -/
theorem DomLinked.setNext (h : DomLinked pack parent hash prev next (f ++ .cons a k .nil))
    (hproper : (f ++ .cons a k .nil).Proper) :
    DomLinked (pack.edit a.iter fun e => { e with nextSibling := x }) parent hash prev x
      (f ++ .cons a k .nil) := by
  obtain ⟨hf, ⟨e, he⟩, hk, -⟩ := domLinked_append.mp h
  obtain ⟨-, ha, hdisj, -⟩ := Forest.proper_append.mp hproper
  obtain ⟨-, -, hnot, -⟩ := Forest.proper_single.mp ha
  rw [domLinked_append]
  refine ⟨?_, ⟨{ e with nextSibling := x }, ?_⟩, ?_, domLinked_nil⟩
  · refine hf.congr (fun i hi => VlMsgPack.node_edit_of_ne ?_) fun _ _ => rfl
    rintro rfl
    exact hdisj hi (by simp)
  · refine ⟨VlMsgPack.node_edit_self he.get, he.parent, he.prev, rfl, he.type, he.extType, ?_⟩
    exact he.fits.relink (fun _ => rfl) rfl rfl rfl
  · refine hk.congr (fun i hi => VlMsgPack.node_edit_of_ne ?_) fun _ _ => rfl
    rintro rfl
    exact hnot hi

/-- The first tree gets another predecessor. -/
theorem DomLinked.setPrev (h : DomLinked pack parent hash prev next (.cons a k f))
    (hproper : (Forest.cons a k f).Proper) :
    DomLinked (pack.edit a.iter fun e => { e with prevSibling := x }) parent hash x next
      (.cons a k f) := by
  obtain ⟨⟨e, he⟩, hk, hf⟩ := h
  obtain ⟨ha, -, hdisj, -⟩ := Forest.proper_cons.mp hproper
  obtain ⟨-, -, hnot, -⟩ := Forest.proper_single.mp ha
  refine ⟨⟨{ e with prevSibling := x }, ?_⟩, ?_, ?_⟩
  · refine ⟨VlMsgPack.node_edit_self he.get, he.parent, rfl, he.next, he.type, he.extType, ?_⟩
    exact he.fits.relink (fun _ => rfl) rfl rfl rfl
  · refine hk.congr (fun i hi => VlMsgPack.node_edit_of_ne ?_) fun _ _ => rfl
    rintro rfl
    exact hnot hi
  · refine hf.congr (fun i hi => VlMsgPack.node_edit_of_ne ?_) fun _ _ => rfl
    rintro rfl
    exact hdisj (by simp) hi

/-- `pack'` differs from `pack` in the elements of the nodes `is` at most; no key is changed. -/
structure VlMsgPack.Relinks (pack pack' : VlMsgPack) (is : List ℕ) : Prop where
  node : ∀ i, i ∉ is → pack'.node i = pack.node i
  key : ∀ i n, pack'.node i = some n → ∃ m, pack.node i = some m ∧ m.key = n.key
  values : pack'.values = pack.values

theorem VlMsgPack.Relinks.refl {is : List ℕ} : pack.Relinks pack is :=
  ⟨fun _ _ => rfl, fun _ n hn => ⟨n, hn, rfl⟩, rfl⟩

theorem VlMsgPack.relinks_edit {is : List ℕ} {i : ℕ} {φ : VlMsgPackElement → VlMsgPackElement}
    (hi : i ∈ is) : pack.Relinks (pack.edit i φ) is :=
  ⟨fun _ hj => VlMsgPack.node_edit_of_ne fun heq => hj (heq ▸ hi),
    fun _ _ hn => VlMsgPack.node_of_edit hn, rfl⟩

theorem VlMsgPack.Relinks.trans {pack₂ : VlMsgPack} {is js : List ℕ} (h₁ : pack.Relinks pack' is)
    (h₂ : pack'.Relinks pack₂ js) : pack.Relinks pack₂ (is ++ js) := by
  refine ⟨fun i hi => ?_, fun i n hn => ?_, h₂.values.trans h₁.values⟩
  · rw [List.mem_append, not_or] at hi
    exact (h₂.node i hi.2).trans (h₁.node i hi.1)
  · obtain ⟨m, hm, hkey⟩ := h₂.key i n hn
    obtain ⟨m', hm', hkey'⟩ := h₁.key i m hm
    exact ⟨m', hm', hkey'.trans hkey⟩

/-- Relinking the nodes of a forest leaves everything else alone. -/
theorem VlMsgPack.Relinks.becomes {is : List ℕ} (h : pack.Relinks pack' is) (his : is ⊆ f.iters) :
    pack.Becomes pack' f f := by
  have hblock : ∀ q, pack'.block q = pack.block q := fun q => by rw [VlMsgPack.block, h.values]
  refine ⟨⟨fun i n hi hn => ?_, fun _ hi hne => absurd hi hne, fun q b _ hb => ?_,
    fun _ hq hne => absurd hq hne⟩, fun i n hi hn => ⟨hi, ?_⟩⟩
  · rwa [h.node i fun hmem => hi (his hmem)]
  · rwa [hblock]
  · rwa [← h.node i fun hmem => hi (his hmem)]

/-- The end of a list of siblings, if there is one, gets another successor. -/
theorem relink_last (h : DomLinked pack parent hash 0 next f) (hproper : f.Proper) :
    Returns (if f.lastIter 0 ≠ 0 then
        pack.modify (f.lastIter 0) fun e => { e with nextSibling := x }
      else .ok pack) fun pack' => DomLinked pack' parent hash 0 x f ∧ pack.Relinks pack' f.iters := by
  rcases Forest.eq_nil_or_append (f := f) with rfl | ⟨f, a, k, rfl⟩
  · exact returns_ok ⟨domLinked_nil, .refl⟩
  · obtain ⟨-, ⟨e, he⟩, -, -⟩ := domLinked_append.mp h
    have hmem : a.iter ∈ (f ++ .cons a k .nil).iters := by simp
    have hlast : (f ++ .cons a k .nil).lastIter 0 = a.iter := by simp
    rw [hlast, if_pos (Store.ne_zero_of_get he.get), VlMsgPack.modify_eq he.get]
    exact returns_ok ⟨h.setNext hproper, VlMsgPack.relinks_edit hmem⟩

/-- The head of a list of siblings, if there is one, gets another predecessor. -/
theorem relink_first (h : DomLinked pack parent hash prev 0 f) (hproper : f.Proper) :
    Returns (if f.firstIter 0 ≠ 0 then
        pack.modify (f.firstIter 0) fun e => { e with prevSibling := x }
      else .ok pack) fun pack' => DomLinked pack' parent hash x 0 f ∧ pack.Relinks pack' f.iters := by
  cases f with
  | nil => exact returns_ok ⟨domLinked_nil, .refl⟩
  | cons a k rest =>
    obtain ⟨⟨e, he⟩, -, -⟩ := domLinked_cons.mp h
    have hmem : a.iter ∈ (Forest.cons a k rest).iters := by simp
    rw [Forest.firstIter_cons, if_pos (Store.ne_zero_of_get he.get), VlMsgPack.modify_eq he.get]
    exact returns_ok ⟨h.setPrev hproper, VlMsgPack.relinks_edit hmem⟩

/-- What is not relinked stays linked. -/
theorem DomLinked.relinks {is : List ℕ} (h : DomLinked pack parent hash prev next f)
    (hr : pack.Relinks pack' is) (hdisj : f.iters.Disjoint is) :
    DomLinked pack' parent hash prev next f :=
  h.congr (fun i hi => hr.node i (hdisj hi)) fun q _ => by rw [VlMsgPack.block, hr.values]

end Replace

end VeritableLasagna
