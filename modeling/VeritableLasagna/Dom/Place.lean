import VeritableLasagna.Dom.Remove

/-!
# Places in a document

An operation is specified at the tree of one node; the rest of the document is around it. A node of a
forest is linked where it is, and what changes below it changes in the whole forest
(`DomLinked.change`). Every node but the root is a child of a node whose hash its key starts with
(`DomLinked.owner`).
-/

namespace VeritableLasagna

/-- The iterator of the nearest node above; `0` at the top. -/
def iterAbove (above : List DomEntry) : ℕ := (above.head?.map DomEntry.iter).getD 0

namespace Forest

/-- The forest with `g` below the node `i`. -/
def setKids (f : Forest DomEntry) (i : ℕ) (g : Forest DomEntry) : Forest DomEntry :=
  f.updateAt (fun a => a.iter = i) fun _ => g

variable {f g kids rest : Forest DomEntry} {s : Spot DomEntry} {above : List DomEntry}
  {i : ℕ} {φ : Forest DomEntry → Forest DomEntry}

/-- A node below no such iterator is not changed. -/
theorem updateAt_of_not_mem (h : i ∉ f.iters) : f.updateAt (fun a => a.iter = i) φ = f :=
  updateAt_of_not_mem_map h

theorem iter_mem_of_mem_spots (h : s ∈ f.spots above) : s.label.iter ∈ f.iters :=
  List.mem_map_of_mem (label_mem_of_mem_spots h)

theorem firstIter_congr {d : ℕ} (h : g.roots = f.roots) : g.firstIter d = f.firstIter d := by
  cases f with
  | nil =>
    cases g with
    | nil => rfl
    | cons b kids rest => cases h
  | cons a kids rest =>
    cases g with
    | nil => cases h
    | cons b kids' rest' =>
      obtain rfl : b = a := (List.cons.inj h).1
      rfl

theorem lastIter_congr {d : ℕ} (h : g.roots = f.roots) : g.lastIter d = f.lastIter d := by
  induction f generalizing g d with
  | nil =>
    cases g with
    | nil => rfl
    | cons b kids rest => cases h
  | cons a kids rest _ ih =>
    cases g with
    | nil => cases h
    | cons b kids' rest' =>
      obtain ⟨rfl, hrest⟩ := List.cons.inj h
      rw [lastIter_cons, lastIter_cons, ih hrest]

theorem length_congr (h : g.roots = f.roots) : g.length = f.length := by
  rw [← length_roots, h, length_roots]

theorem eq_nil_congr (h : g.roots = f.roots) (hnil : f = nil) : g = nil := by
  obtain rfl := hnil
  cases g with
  | nil => rfl
  | cons b kids rest => cases h

end Forest

/-- An entry asks for the roots of what is below it only. -/
theorem DomEntry.Fits.congr_roots {pack : VlMsgPack} {a : DomEntry} {kids kids' : Forest DomEntry}
    {e : VlMsgPackElement} (h : a.Fits pack kids e) (hroots : kids'.roots = kids.roots) :
    a.Fits pack kids' e := by
  have hlength := Forest.length_congr hroots
  cases h with
  | nil type payload ptr hnil => exact .nil type payload ptr (Forest.eq_nil_congr hroots hnil)
  | leaf type first hnil ptr block =>
    exact .leaf type first (Forest.eq_nil_congr hroots hnil) ptr block
  | map type payload ptr first second length totalChildren keys =>
    exact .map type payload ptr (first.trans (Forest.firstIter_congr hroots).symm)
      (second.trans (Forest.lastIter_congr hroots).symm) (by rwa [hlength])
      (by rwa [hlength]) (by rwa [hroots])
  | array type payload first second length keys ptr block =>
    exact .array type payload first (by rwa [hlength]) (by rwa [hlength])
      (by rwa [hroots, hlength]) (by rwa [hlength]) (by rwa [hroots])

section Change

variable {pack : VlMsgPack} {parent prev next : ℕ} {hash : UInt64} {a : DomEntry}
  {f g k k' kids rest rest' : Forest DomEntry} {s : Spot DomEntry} {above : List DomEntry}

theorem around_here : VlMsgPack.Around (.cons a k .nil) (.cons a k' .nil) (.cons a k rest)
    (.cons a k' rest) := by
  constructor <;> intro i <;> constructor <;> simp <;> tauto

/-- More surroundings. -/
private theorem around_or {P F G K K' : Prop} (h : (K ↔ F ∨ K ∧ K') ∧ (K' ↔ G ∨ K ∧ K')) :
    (P ∨ K ↔ F ∨ (P ∨ K) ∧ (P ∨ K')) ∧ (P ∨ K' ↔ G ∨ (P ∨ K) ∧ (P ∨ K')) := by
  by_cases hp : P
  · simp [hp]
  · simpa [hp] using h

private theorem or_around {P F G K K' : Prop} (h : (K ↔ F ∨ K ∧ K') ∧ (K' ↔ G ∨ K ∧ K')) :
    (K ∨ P ↔ F ∨ (K ∨ P) ∧ (K' ∨ P)) ∧ (K' ∨ P ↔ G ∨ (K ∨ P) ∧ (K' ∨ P)) := by
  simpa only [or_comm (b := P)] using around_or h

theorem VlMsgPack.Around.below (h : VlMsgPack.Around f g k k') :
    VlMsgPack.Around f g (.cons a k rest) (.cons a k' rest) := by
  refine ⟨fun i => ?_, fun q => ?_⟩
  · simp only [Forest.iters_cons, List.mem_cons, List.mem_append]
    exact around_or (or_around (h.iters i))
  · simp only [Forest.mem_blocks_cons]
    exact around_or (or_around (h.blocks q))

theorem VlMsgPack.Around.behind (h : VlMsgPack.Around f g rest rest') :
    VlMsgPack.Around f g (.cons a k rest) (.cons a k rest') := by
  refine ⟨fun i => ?_, fun q => ?_⟩
  · simp only [Forest.iters_cons, List.mem_cons, List.mem_append]
    exact around_or (around_or (h.iters i))
  · simp only [Forest.mem_blocks_cons]
    exact around_or (around_or (h.blocks q))

/-- A node keeps what it asks for, when the forest below it changes below its roots. -/
theorem DomEntry.Stored.below {pack' : VlMsgPack} {e : VlMsgPackElement}
    (h : a.Stored pack parent hash prev next k e) (hev : pack.Evolves pack' k k')
    (hnot : a.iter ∉ k.iters) (hptr : a.ptr ∉ k.blocks) (hroots : k'.roots = k.roots) :
    a.Stored pack' parent hash prev next k' e ∧ a.iter ∉ k'.iters ∧ a.ptr ∉ k'.blocks := by
  have hblock : a.ptr ≠ 0 → pack.block a.ptr ≠ none := h.fits.block_ne_none
  refine ⟨⟨hev.node _ _ hnot h.get, h.parent, h.prev, h.next, h.type, h.extType, ?_⟩, fun hmem => ?_,
    fun hmem => ?_⟩
  · refine (h.fits.congr fun hne => ?_).congr_roots hroots
    obtain ⟨b, hb⟩ := Option.ne_none_iff_exists'.mp (hblock hne)
    rw [hb]
    exact hev.block _ _ hptr hb
  · exact Option.some_ne_none _ (h.get.symm.trans (hev.fresh _ hmem hnot))
  · have hne : a.ptr ≠ 0 := fun hzero => Forest.zero_not_mem_blocks (hzero ▸ hmem)
    exact hblock hne (hev.freshBlock _ hmem hptr)

/-- **A node is linked where it is**, and a change below it is a change of the whole forest. -/
theorem DomLinked.change (h : DomLinked pack parent hash prev next f) (hproper : f.Proper)
    (hparent : parent = iterAbove above) (hs : s ∈ f.spots above) :
    ∃ hash' prev' next',
      DomLinked pack (iterAbove s.above) hash' prev' next' (.cons s.label s.kids .nil) ∧
      (Forest.cons s.label s.kids .nil).Proper ∧
      ∀ pack' g, pack.Evolves pack' (.cons s.label s.kids .nil) (.cons s.label g .nil) →
        DomLinked pack' (iterAbove s.above) hash' prev' next' (.cons s.label g .nil) →
        (Forest.cons s.label g .nil).Proper →
        DomLinked pack' parent hash prev next (f.setKids s.label.iter g) ∧
          (f.setKids s.label.iter g).Proper ∧
          VlMsgPack.Around (.cons s.label s.kids .nil) (.cons s.label g .nil) f
            (f.setKids s.label.iter g) := by
  induction f generalizing parent hash prev next above with
  | nil => exact absurd hs List.not_mem_nil
  | cons a kids rest ih₁ ih₂ =>
    obtain ⟨⟨e, he⟩, hkids, hrest⟩ := h
    obtain ⟨hproper₁, hproper₂, hiters, hblocks⟩ := Forest.proper_cons.mp hproper
    obtain ⟨hproperk, hne, hnot, hptr⟩ := Forest.proper_single.mp hproper₁
    have hmem : ∀ i, i ∈ (Forest.cons a kids .nil).iters ↔ i = a.iter ∨ i ∈ kids.iters := by simp
    rcases Forest.mem_spots_cons.mp hs with rfl | hs | hs
    · -- the node itself
      subst hparent
      refine ⟨hash, prev, rest.firstIter next, ⟨⟨e, he⟩, hkids, domLinked_nil⟩, hproper₁,
        fun pack' g hev hg hproper' => ?_⟩
      have hself : rest.updateAt (fun b => b.iter = a.iter) (fun _ => g) = rest :=
        Forest.updateAt_of_not_mem (hiters (by simp))
      obtain ⟨hi', hb'⟩ := hrest.disjoint_of_evolves hev hiters.symm hblocks.symm
      rw [Forest.setKids, Forest.updateAt_cons, hself, if_pos (decide_eq_true rfl)]
      obtain ⟨he', hkids', -⟩ := hg
      exact ⟨⟨he', hkids', hrest.evolves hev hiters.symm hblocks.symm⟩,
        Forest.proper_cons.mpr ⟨hproper', hproper₂, hi'.symm, hb'.symm⟩, around_here⟩
    · -- a node below it
      obtain ⟨hash', prev', next', hlinked, hsubtree, hchange⟩ :=
        ih₁ hkids hproperk (show a.iter = iterAbove (a :: above) from rfl) hs
      refine ⟨hash', prev', next', hlinked, hsubtree, fun pack' g hev hg hproper' => ?_⟩
      obtain ⟨hkids', hproperk', haround⟩ := hchange pack' g hev hg hproper'
      have hsk : s.label.iter ∈ kids.iters := Forest.iter_mem_of_mem_spots hs
      have hself : rest.updateAt (fun b => b.iter = s.label.iter) (fun _ => g) = rest :=
        Forest.updateAt_of_not_mem (hiters ((hmem _).mpr (Or.inr hsk)))
      have hne' : ¬ decide (a.iter = s.label.iter) = true := fun heq =>
        hnot (of_decide_eq_true heq ▸ hsk)
      have hevk := hev.around haround
      obtain ⟨he', hnot', hptr'⟩ := he.below hevk hnot hptr Forest.roots_updateAt
      have hik : rest.iters.Disjoint kids.iters := fun i hi hk => hiters ((hmem i).mpr (Or.inr hk)) hi
      have hbk : rest.blocks.Disjoint kids.blocks := fun q hq hk =>
        hblocks (Forest.mem_blocks_cons.mpr (Or.inr (Or.inl hk))) hq
      obtain ⟨hi', hb'⟩ := hrest.disjoint_of_evolves hevk hik hbk
      rw [Forest.setKids, Forest.updateAt_cons, hself, if_neg hne']
      refine ⟨⟨⟨e, he'⟩, hkids', hrest.evolves hevk hik hbk⟩, ?_, haround.below⟩
      refine Forest.proper_cons.mpr ⟨Forest.proper_single.mpr ⟨hproperk', hne, hnot', hptr'⟩, hproper₂,
        fun i hi hr => ?_, fun q hq hr => ?_⟩
      · rw [Forest.iters_cons, Forest.iters_nil, List.append_nil, List.mem_cons] at hi
        rcases hi with rfl | hi
        · exact hiters ((hmem _).mpr (Or.inl rfl)) hr
        · exact hi' hr hi
      · rcases Forest.mem_blocks_cons.mp hq with ⟨rfl, hne⟩ | hq | hq
        · exact hblocks (Forest.mem_blocks_cons.mpr (Or.inl ⟨rfl, hne⟩)) hr
        · exact hb' hr hq
        · exact absurd hq List.not_mem_nil
    · -- a node behind it
      obtain ⟨hash', prev', next', hlinked, hsubtree, hchange⟩ := ih₂ hrest hproper₂ hparent hs
      refine ⟨hash', prev', next', hlinked, hsubtree, fun pack' g hev hg hproper' => ?_⟩
      obtain ⟨hrest', hproper₂', haround⟩ := hchange pack' g hev hg hproper'
      have hsr : s.label.iter ∈ rest.iters := Forest.iter_mem_of_mem_spots hs
      have hself : kids.updateAt (fun b => b.iter = s.label.iter) (fun _ => g) = kids :=
        Forest.updateAt_of_not_mem fun hk => hiters ((hmem _).mpr (Or.inr hk)) hsr
      have hne' : ¬ decide (a.iter = s.label.iter) = true := fun heq =>
        hiters ((hmem _).mpr (Or.inl (of_decide_eq_true heq).symm)) hsr
      have hevr := hev.around haround
      have hroots : (rest.updateAt (fun b => b.iter = s.label.iter) fun _ => g).roots = rest.roots :=
        Forest.roots_updateAt
      have hlinked₁ : DomLinked pack parent hash prev (rest.firstIter next) (.cons a kids .nil) :=
        ⟨⟨e, he⟩, hkids, domLinked_nil⟩
      obtain ⟨he', hkids', -⟩ := hlinked₁.evolves hevr hiters hblocks
      obtain ⟨hi', hb'⟩ := hlinked₁.disjoint_of_evolves hevr hiters hblocks
      rw [Forest.setKids, Forest.updateAt_cons, hself, if_neg hne']
      refine ⟨⟨?_, hkids', hrest'⟩, Forest.proper_cons.mpr ⟨hproper₁, hproper₂', hi', hb'⟩,
        haround.behind⟩
      rwa [Forest.firstIter_congr hroots]

end Change

/-! ### Keys -/

section Keys

variable {pack : VlMsgPack} {parent prev next i : ℕ} {hash : UInt64} {f : Forest DomEntry}
  {n : VlMsgPackNode}

/-- **The key of a node** starts with the hash of the node whose child it is. -/
theorem DomLinked.owner (h : DomLinked pack parent hash prev next f) (above : List DomEntry)
    (hi : i ∈ f.iters) (hn : pack.node i = some n) :
    (∃ a ∈ f.roots, a.iter = i ∧ n.key = hierarchicalKey hash a.node.key) ∨
      ∃ s ∈ f.spots above, ∃ m, pack.node s.label.iter = some m ∧ ∃ c ∈ s.kids.roots, c.iter = i ∧
        n.key = hierarchicalKey (vlHashMsgPackKey m.key) c.node.key := by
  induction f generalizing parent hash prev next above with
  | nil => exact absurd hi List.not_mem_nil
  | cons a kids rest ih₁ ih₂ =>
    obtain ⟨⟨e, he⟩, hkids, hrest⟩ := h
    rw [Forest.iters_cons, List.mem_cons, List.mem_append] at hi
    rcases hi with rfl | hi | hi
    · obtain rfl := Option.some_injective _ (he.get.symm.trans hn)
      exact Or.inl ⟨a, List.mem_cons_self, rfl, rfl⟩
    · rcases ih₁ hkids (a :: above) hi with ⟨c, hc, hiter, hkey⟩ | ⟨s, hs, hown⟩
      · exact Or.inr ⟨⟨above, a, kids⟩, Forest.mem_spots_cons.mpr (Or.inl rfl), _, he.get, c, hc,
          hiter, hkey⟩
      · exact Or.inr ⟨s, Forest.mem_spots_cons.mpr (Or.inr (Or.inl hs)), hown⟩
    · rcases ih₂ hrest above hi with ⟨c, hc, hiter, hkey⟩ | ⟨s, hs, hown⟩
      · exact Or.inl ⟨c, List.mem_cons_of_mem _ hc, hiter, hkey⟩
      · exact Or.inr ⟨s, Forest.mem_spots_cons.mpr (Or.inr (Or.inr hs)), hown⟩

/-- A node with children is a container. -/
theorem DomEntry.Fits.container {a c : DomEntry} {kids : Forest DomEntry} {e : VlMsgPackElement}
    (h : a.Fits pack kids e) (hc : c ∈ kids.roots) :
    a.node.value.type = .map ∨ a.node.value.type = .array := by
  cases h with
  | nil type payload ptr hnil => exact absurd (hnil ▸ hc) List.not_mem_nil
  | leaf type first hnil ptr block => exact absurd (hnil ▸ hc) List.not_mem_nil
  | map type => exact Or.inl type
  | array type => exact Or.inr type

end Keys

end VeritableLasagna
