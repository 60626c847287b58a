import VeritableLasagna.Dom.Edits
import VeritableLasagna.Dom.Indexed

/-!
# Subtrees and collisions

A node is found by the hash of its parent and its own key, and by nothing else. So two containers are kept
apart by their hashes only: as long as these are different, a key finds a child of the node it is looked
up under (`DomState.Isolated`), and an insertion leaves all nodes alone but the one it overwrites and what
is below that one (`DomInsert.Spares`). **`vlMsgPackInsert_isolated`** says so of all documents that
insertions make.

The hash of the repository does not keep all names apart. Its own tests have a pair of names with one hash,
and a child of one of two maps with these names is found below the other (`not_isolated_collision`).
-/

namespace VeritableLasagna

/-! ### Insertions -/

/-- The document under insertions. -/
def insertMachine : Machine DomState DomInsert where
  guard s o := editMachine.guard s (.insert o)
  step s o := editStep s (.insert o)

namespace DomState

/-- The hierarchical keys of the containers in the document. -/
def containers (s : DomState) : List (List UInt8) :=
  s.doc.labels.filterMap fun a =>
    if a.type.IsContainer then (s.pack.node a.iter).map VlMsgPackNode.key else none

/-- The document with its own containers as those that are used. -/
def settled (s : DomState) : DomState := { s with used := s.containers }

/-- **A key finds children only**: nothing, or a node whose parent is the one it is looked up under. -/
def Isolated (s : DomState) : Prop :=
  ∀ t ∈ s.doc.spots [], t.label.type.IsContainer → ∀ key,
    Returns (vlMsgPackFindChild s.pack t.label.iter key) fun r =>
      r.1 = 0 ∨ vlMsgPackParent s.pack r.1 = .ok t.label.iter

end DomState

/-- The hash tells the containers with these keys apart, and from the parent of the root. -/
def Distinguished (keys : List (List UInt8)) : Prop :=
  HashInjective keys ∧ ∀ K ∈ keys, vlHashMsgPackKey K ≠ vlMsgPackRootHash

/-- **An insertion keeps the containers apart**: no two of them have the same hash afterwards. There is room
for it, its key fits its size, and no leaf below the node it overwrites is empty. -/
structure DomState.KeepsApart (s : DomState) (o : DomInsert) : Prop where
  distinguished : Distinguished (s.settled.uses o)
  nodes : (o.applied 0 [] s.doc).labels.length ≤ VlNodeTable.limit
  short : o.key.length + 8 < 2 ^ 16
  solid : ∀ t ∈ s.doc.spots [], parentIter t.above = o.parent → t.label.key = o.key → s.Solid t

/-- What an insertion overwrites: the child of its parent that has its key, and what is below that. -/
def DomInsert.overwritten (o : DomInsert) (doc : Forest DomItem) : List DomItem :=
  (doc.spots []).flatMap fun t =>
    if parentIter t.above = o.parent ∧ t.label.key = o.key then t.label :: t.kids.labels else []

/-- **An insertion leaves everything else alone**: the value of every node that it does not overwrite, and
the children of all of them but its own parent. -/
def DomInsert.Spares (o : DomInsert) (s s' : DomState) : Prop :=
  ∀ t ∈ s.doc.spots [], t.label ∉ o.overwritten s.doc →
    vlMsgPackType s'.pack t.label.iter = vlMsgPackType s.pack t.label.iter ∧
    vlMsgPackExtType s'.pack t.label.iter = vlMsgPackExtType s.pack t.label.iter ∧
    vlMsgPackSampleValue s'.pack t.label.iter = vlMsgPackSampleValue s.pack t.label.iter ∧
    vlMsgPackParent s'.pack t.label.iter = vlMsgPackParent s.pack t.label.iter ∧
    (t.label.iter ≠ o.parent → listChildren s'.pack t.label.iter = listChildren s.pack t.label.iter)

instance instDecidableDistinguished {keys : List (List UInt8)} : Decidable (Distinguished keys) :=
  inferInstanceAs (Decidable (_ ∧ ∀ K ∈ keys, _))

instance instDecidableKeepsApart {s : DomState} {o : DomInsert} : Decidable (s.KeepsApart o) :=
  decidable_of_iff (Distinguished (s.settled.uses o) ∧
      (o.applied 0 [] s.doc).labels.length ≤ VlNodeTable.limit ∧ o.key.length + 8 < 2 ^ 16 ∧
      ∀ t ∈ s.doc.spots [], parentIter t.above = o.parent → t.label.key = o.key → s.Solid t)
    ⟨fun h => ⟨h.1, h.2.1, h.2.2.1, h.2.2.2⟩, fun h => ⟨h.distinguished, h.nodes, h.short, h.solid⟩⟩

instance instDecidableInsertMachine {s : DomState} {o : DomInsert} : Decidable (insertMachine.guard s o) :=
  inferInstanceAs (Decidable (editMachine.guard s (.insert o)))

instance instDecidableInsertKeepsApart {s : DomState} {o : DomInsert} :
    Decidable ((insertMachine.restrict DomState.KeepsApart).guard s o) :=
  inferInstanceAs (Decidable (insertMachine.guard s o ∧ s.KeepsApart o))

/-! ### What a document answers -/

namespace VlMsgPack.Holds

variable {pack pack' : VlMsgPack} {used used' : List (List UInt8)} {f f' : Forest DomEntry}
  {t t' : Spot DomEntry}

/-- Other keys may count as used, as long as those of the containers do. -/
theorem settle (h : pack.Holds used f) (hused : ∀ a ∈ f.labels, a.node.value.type.IsContainer →
    ∀ n, pack.node a.iter = some n → n.key ∈ used') : pack.Holds used' f :=
  ⟨h.sound, h.root, h.known, h.unique, hused⟩

theorem extType (h : pack.Holds used f) (ht : t ∈ f.spots []) :
    vlMsgPackExtType pack t.label.iter = .ok t.label.node.value.extType := by
  obtain ⟨hash, prev, next, ⟨⟨⟨e, he⟩, -⟩, -⟩, -⟩ := h.spot ht
  rw [vlMsgPackExtType, VlMsgPack.sample_eq he.get, ok_bind, he.extType]
  rfl

/-- A node that is in both documents, below the same nodes, looks the same. -/
theorem observed_eq (h : pack.Holds used f) (h' : pack'.Holds used' f') (hinj : HashInjective used)
    (hinj' : HashInjective used') (ht : t ∈ f.spots []) (ht' : t' ∈ f'.spots [])
    (hlabel : t'.label = t.label) (habove : t'.above = t.above) :
    vlMsgPackType pack' t.label.iter = vlMsgPackType pack t.label.iter ∧
    vlMsgPackExtType pack' t.label.iter = vlMsgPackExtType pack t.label.iter ∧
    vlMsgPackSampleValue pack' t.label.iter = vlMsgPackSampleValue pack t.label.iter ∧
    vlMsgPackParent pack' t.label.iter = vlMsgPackParent pack t.label.iter ∧
    (t'.kids.roots = t.kids.roots →
      listChildren pack' t.label.iter = listChildren pack t.label.iter) := by
  have hshows := h.shows hinj ht
  have hshows' := h'.shows hinj' ht'
  have hvalue' := h'.sampleValue ht'
  have hext' := h'.extType ht'
  rw [hlabel] at hvalue' hext'
  refine ⟨?_, hext'.trans (h.extType ht).symm, hvalue'.trans (h.sampleValue ht).symm, ?_, fun hkids => ?_⟩
  · have htype := hshows'.type
    rw [Spot.map, hlabel] at htype
    exact htype.trans hshows.type.symm
  · have hparent := hshows'.parent
    rw [Spot.map, hlabel, habove] at hparent
    exact hparent.trans hshows.parent.symm
  · have hforwards := hshows'.forwards
    have hforwards₀ := hshows.forwards
    rw [Spot.map, Forest.roots_map] at hforwards hforwards₀
    rw [hlabel, hkids] at hforwards
    exact hforwards.trans hforwards₀.symm

end VlMsgPack.Holds

/-! ### The invariant -/

/-- **The table holds the document**, and no two containers in it have the same hash. -/
structure DomState.Separated (s : DomState) (f : Forest DomEntry) : Prop where
  doc : s.doc = f.map DomEntry.item
  holds : s.pack.Holds s.containers f
  short : ∀ i n, s.pack.node i = some n → n.key.length < 2 ^ 16
  distinguished : Distinguished s.containers

section Separated

variable {s : DomState} {o : DomInsert} {f : Forest DomEntry} {a : DomEntry} {n : VlMsgPackNode}
  {K : List UInt8}

/-- The key of a container is listed. -/
theorem DomState.mem_containers (hdoc : s.doc = f.map DomEntry.item) (ha : a ∈ f.labels)
    (htype : a.node.value.type.IsContainer) (hn : s.pack.node a.iter = some n) :
    n.key ∈ s.containers := by
  have hmem : a.item ∈ s.doc.labels := by
    rw [hdoc, Forest.labels_map]
    exact List.mem_map_of_mem ha
  have htype' : a.item.type.IsContainer := htype
  have hn' : s.pack.node a.item.iter = some n := hn
  refine List.mem_filterMap.mpr ⟨a.item, hmem, ?_⟩
  rw [if_pos htype', hn', Option.map_some]

/-- A key that is listed is that of a container. -/
theorem DomState.exists_of_mem_containers (hdoc : s.doc = f.map DomEntry.item) (hK : K ∈ s.containers) :
    ∃ a ∈ f.labels, a.node.value.type.IsContainer ∧ ∃ n, s.pack.node a.iter = some n ∧ n.key = K := by
  obtain ⟨b, hb, hkey⟩ := List.mem_filterMap.mp hK
  rw [hdoc, Forest.labels_map] at hb
  obtain ⟨a, ha, rfl⟩ := List.mem_map.mp hb
  split_ifs at hkey with htype
  obtain ⟨n, hn, hkey⟩ := Option.map_eq_some_iff.mp hkey
  exact ⟨a, ha, htype, n, hn, hkey⟩

/-- **A document whose containers are kept apart is isolated.** -/
theorem DomState.Separated.isolated (h : s.Separated f) : s.Isolated := by
  intro t ht htype key
  obtain ⟨hinj, hapart⟩ := h.distinguished
  rw [h.doc] at ht
  obtain ⟨u, hu, rfl⟩ := exists_spot_of_mem_item ht
  obtain ⟨m, hm⟩ := h.holds.node hu
  obtain ⟨_, _, hsound⟩ := h.holds.sound
  have hmem := DomState.mem_containers h.doc (Forest.label_mem_of_mem_spots hu) htype hm
  obtain ⟨k, hfind⟩ : ∃ k, vlMsgPackFindChild s.pack u.label.iter key = _ :=
    vlMsgPackFindChild_spec hsound.unbroken hm
  refine ⟨_, hfind, ?_⟩
  dsimp only
  rw [h.holds.find_child hinj hu hm hmem h.short (hapart _ hmem)]
  cases hfound : u.kids.roots.find? fun a => a.node.key = key with
  | none => exact Or.inl rfl
  | some c =>
    obtain ⟨f₁, k, f₂, hkids⟩ := Forest.exists_append_of_mem_roots (List.mem_of_find?_eq_some hfound)
    have hspot : ⟨u.label :: u.above, c, k⟩ ∈ f.spots [] := by
      refine Forest.mem_spots_of_mem_spots hu ?_
      rw [hkids, Forest.mem_spots_append, Forest.mem_spots_cons]
      exact Or.inr (Or.inl rfl)
    exact Or.inr (h.holds.shows hinj hspot).parent

/-- What an insertion does to a document whose containers are kept apart. -/
theorem DomState.Separated.run (h : s.Separated f) (hg : insertMachine.guard s o)
    (hkeeps : s.KeepsApart o) : Returns (o.run s.pack) fun r => ∃ u m f₁ old f₂ a kids,
      o.Puts s.pack (s.settled.uses o) f r u m f₁ old f₂ a kids := by
  refine DomInsert.run_spec h.holds h.doc hg hkeeps.distinguished.1
    (DomState.used_subset_uses (s := s.settled))
    (fun m hm htype => DomState.mem_uses (s := s.settled) hm htype) h.short
    (fun m hm => ?_) hkeeps.nodes hkeeps.solid
  obtain ⟨-, -, t, ht, hparent, hplace⟩ := hg
  rw [h.doc] at ht
  obtain ⟨u, hu, rfl⟩ := exists_spot_of_mem_item ht
  have hparent : u.label.iter = o.parent := hparent
  have hm' : s.pack.node u.label.iter = some m := hparent ▸ hm
  exact h.distinguished.2 _ (DomState.mem_containers h.doc (Forest.label_mem_of_mem_spots hu)
    (hplace.imp id fun harray => harray.1) hm')

section Puts

variable {u : Spot DomEntry} {m : VlMsgPackNode} {f₁ old f₂ kids : Forest DomEntry}
  {r : ℕ × List ℕ × VlMsgPack}

/-- **An insertion that keeps the containers apart** leaves such a document. -/
theorem DomInsert.Puts.separated (hputs : o.Puts s.pack (s.settled.uses o) f r u m f₁ old f₂ a kids)
    (h : s.Separated f) (hkeeps : s.KeepsApart o) :
    DomState.Separated ⟨r.2.2, o.applied r.1 r.2.1 s.doc, s.newKeys o ++ s.used⟩
      (f.setKids u.label.iter (f₁ ++ (.cons a kids .nil ++ f₂))) := by
  have hdoc := (congrArg (o.applied r.1 r.2.1) h.doc).trans hputs.doc
  refine ⟨hdoc, hputs.holds.settle fun b hb htype n hn => ?_, fun i n hn => ?_, ?_, fun K hK => ?_⟩
  · exact DomState.mem_containers hdoc hb htype hn
  · rcases hputs.keys i n hn with ⟨l, hl, hlkey⟩ | hnew
    · exact hlkey ▸ h.short i l hl
    · exact length_of_mem_insertedKeys hkeeps.short hnew
  · refine hkeeps.distinguished.1.mono fun K hK => ?_
    obtain ⟨b, hb, htype, n, hn, rfl⟩ := DomState.exists_of_mem_containers hdoc hK
    exact hputs.holds.used b hb htype n hn
  · obtain ⟨b, hb, htype, n, hn, rfl⟩ := DomState.exists_of_mem_containers hdoc hK
    exact hkeeps.distinguished.2 _ (hputs.holds.used b hb htype n hn)

/-- **A node that is not overwritten** is in the new document, below the same nodes. -/
theorem DomInsert.Puts.exists_spot {used : List (List UInt8)} {t : Spot DomEntry}
    (hputs : o.Puts s.pack used f r u m f₁ old f₂ a kids) (hdoc : s.doc = f.map DomEntry.item)
    (hnodup : (f.labels.map DomEntry.iter).Nodup) (ht : t ∈ f.spots [])
    (hnot : t.label.item ∉ o.overwritten s.doc) :
    ∃ t' ∈ (f.setKids u.label.iter (f₁ ++ (.cons a kids .nil ++ f₂))).spots [],
      t'.label = t.label ∧ t'.above = t.above ∧
        (t.label.iter ≠ o.parent → t'.kids.roots = t.kids.roots) := by
  have hsplit : t ∈ f.spots [] → _ := Forest.mem_spots_updateAt_of_mem
    (p := fun a => a.iter = u.label.iter) (φ := fun _ => f₁ ++ (.cons a kids .nil ++ f₂))
  rcases hsplit ht with ⟨s', hs', hiter, hbelow⟩ | hkept
  · -- below the parent: before or behind the new tree
    obtain rfl : s' = u := Forest.eq_of_mem_spots hnodup hs' hputs.spot (of_decide_eq_true hiter)
    rw [hputs.kids_eq, Forest.mem_spots_append, Forest.mem_spots_append] at hbelow
    refine ⟨t, Forest.mem_spots_updateAt_self hnodup hputs.spot ?_, rfl, rfl, fun _ => rfl⟩
    rw [Forest.mem_spots_append, Forest.mem_spots_append]
    rcases hbelow with hbelow | hbelow | hbelow
    · exact Or.inl hbelow
    · rcases hputs.old_eq with rfl | ⟨c, k, rfl, hkey⟩
      · exact absurd hbelow List.not_mem_nil
      · refine absurd ?_ hnot
        have hspot : ⟨s'.label :: s'.above, c, k⟩ ∈ f.spots [] := by
          refine Forest.mem_spots_of_mem_spots hputs.spot ?_
          rw [hputs.kids_eq, Forest.mem_spots_append, Forest.mem_spots_append, Forest.mem_spots_cons]
          exact Or.inr (Or.inl (Or.inl rfl))
        refine List.mem_flatMap.mpr ⟨_, hdoc ▸ mem_spots_item hspot, ?_⟩
        rw [if_pos ⟨hputs.parent, hkey⟩]
        have hlabel := Forest.label_mem_of_mem_spots hbelow
        rw [Forest.labels_cons, Forest.labels_nil, List.append_nil, List.mem_cons] at hlabel
        rcases hlabel with hlabel | hlabel
        · rw [hlabel]
          exact List.mem_cons_self
        · rw [Spot.map, Forest.labels_map]
          exact List.mem_cons_of_mem _ (List.mem_map_of_mem hlabel)
    · exact Or.inr (Or.inr hbelow)
  · refine ⟨_, hkept, rfl, rfl, fun hne => ?_⟩
    have hne' : ¬ decide (t.label.iter = u.label.iter) = true := fun heq =>
      hne ((of_decide_eq_true heq).trans hputs.parent)
    dsimp only
    rw [if_neg hne', Forest.roots_updateAt]

/-- **An insertion that keeps the containers apart** leaves everything else alone. -/
theorem DomInsert.Puts.spares (hputs : o.Puts s.pack (s.settled.uses o) f r u m f₁ old f₂ a kids)
    (h : s.Separated f) (hkeeps : s.KeepsApart o) :
    o.Spares s ⟨r.2.2, o.applied r.1 r.2.1 s.doc, s.newKeys o ++ s.used⟩ := by
  intro t ht hnot
  rw [h.doc] at ht
  obtain ⟨v, hv, rfl⟩ := exists_spot_of_mem_item ht
  obtain ⟨v', hv', hlabel, habove, hkids⟩ := hputs.exists_spot h.doc h.holds.nodup hv hnot
  obtain ⟨htype, hext, hvalue, hparent, hchildren⟩ := h.holds.observed_eq hputs.holds h.distinguished.1
    hkeeps.distinguished.1 hv hv' hlabel habove
  exact ⟨htype, hext, hvalue, hparent, fun hne => hchildren (hkids hne)⟩

end Puts

/-- **One insertion.** -/
theorem insertStep_spec (h : s.Separated f)
    (hg : (insertMachine.restrict DomState.KeepsApart).guard s o) :
    Returns (insertMachine.step s o) fun s' => (∃ f', s'.Separated f') ∧ o.Spares s s' := by
  refine (h.run hg.1 hg.2).bind ?_
  rintro r ⟨u, m, f₁, old, f₂, a, kids, hputs⟩
  exact returns_ok ⟨⟨_, hputs.separated h hg.2⟩, hputs.spares h hg.2⟩

end Separated

/-! ### Runs -/

/-- The first document. -/
theorem domInit_separated (nodePlace valuePlace : Placement) :
    Returns (domInit nodePlace valuePlace) fun s => ∃ f, s.Separated f := by
  refine (domInit_holds nodePlace valuePlace).mono fun s ⟨r, hdoc, hused, hkey, htype, hholds⟩ => ?_
  have hroot : ∀ i n, s.pack.node i = some n → n.key = vlMsgPackRootKey := by
    intro i n hn
    obtain rfl : i = r.iter := by simpa using hholds.known i n hn
    have hmem := hholds.used r (by simp) (Or.inl htype) n hn
    rwa [hused, List.mem_singleton] at hmem
  have hdoc' : s.doc = (Forest.cons r .nil .nil).map DomEntry.item := hdoc
  have hone : ∀ K ∈ s.containers, K = vlMsgPackRootKey := by
    intro K hK
    obtain ⟨a, -, -, n, hn, rfl⟩ := DomState.exists_of_mem_containers hdoc' hK
    exact hroot _ n hn
  refine ⟨_, hdoc', hholds.settle fun a ha htype n hn => DomState.mem_containers hdoc' ha htype hn,
    fun i n hn => ?_, fun K hK K' hK' _ => (hone K hK).trans (hone K' hK').symm, fun K hK => ?_⟩
  · rw [hroot i n hn]
    decide
  · rw [hone K hK]
    decide +kernel

/-- Every document that is reached by insertions that keep the containers apart is such a document. -/
theorem insertRun_separated {s s' : DomState} {os : List DomInsert}
    (hrun : (insertMachine.restrict DomState.KeepsApart).Run s os s') (hs : ∃ f, s.Separated f) :
    ∃ f, s'.Separated f := by
  refine hrun.invariant (I := fun s => ∃ f, s.Separated f) ?_ hs
  rintro s o s' ⟨f, hf⟩ hg hstep
  exact ((insertStep_spec hf hg).of_ok hstep).1

/-- **Subtrees are isolated** in every document that insertions make which keep the containers apart, and
the next such insertion leaves everything else alone. -/
theorem vlMsgPackInsert_isolated (nodePlace valuePlace : Placement) (s₀ : DomState)
    (hinit : domInit nodePlace valuePlace = .ok s₀) (os : List DomInsert) (s : DomState)
    (hrun : (insertMachine.restrict DomState.KeepsApart).Run s₀ os s) :
    s.Isolated ∧ ∀ o, (insertMachine.restrict DomState.KeepsApart).guard s o →
      Returns (insertMachine.step s o) (o.Spares s) := by
  obtain ⟨f, hf⟩ := insertRun_separated hrun ((domInit_separated nodePlace valuePlace).of_ok hinit)
  refine ⟨hf.isolated, fun o hg => ?_⟩
  obtain ⟨s', hrun', -, hspares⟩ := insertStep_spec hf hg
  exact ⟨s', hrun', hspares⟩

/-- Two maps below the root, with a leaf in one of them. -/
theorem vlMsgPackInsert_isolated_maps : ∃ s₀ s, domInit .bump .bump = .ok s₀ ∧
    (insertMachine.restrict DomState.KeepsApart).Run s₀
      [⟨.map, vlMsgPackExtNone, 1, [97], none, 0⟩, ⟨.map, vlMsgPackExtNone, 1, [98], none, 0⟩,
        ⟨.binary, vlMsgPackExtNone, 2, [99], some [7, 8], 2⟩] s ∧
    s.Isolated ∧ ∀ o, (insertMachine.restrict DomState.KeepsApart).guard s o →
      Returns (insertMachine.step s o) (o.Spares s) := by
  have hexec : ((domInit .bump .bump).toOption.any fun s₀ =>
      ((insertMachine.restrict DomState.KeepsApart).exec s₀
        [⟨.map, vlMsgPackExtNone, 1, [97], none, 0⟩, ⟨.map, vlMsgPackExtNone, 1, [98], none, 0⟩,
          ⟨.binary, vlMsgPackExtNone, 2, [99], some [7, 8], 2⟩]).any fun _ => true) = true := by
    decide +kernel
  obtain ⟨s₀, hinit, hexec⟩ := (Option.any_eq_true _ _).mp hexec
  obtain ⟨s, hrun, -⟩ := Machine.exists_run_of_exec hexec
  have hinit := eq_ok_of_toOption hinit
  exact ⟨s₀, s, hinit, hrun, vlMsgPackInsert_isolated .bump .bump s₀ hinit _ s hrun⟩

/-! ### A collision -/

/-- The names of the collision test of the hash table: `gMPflVXtwGDXbIhP73TX` and
`LtHf1prlU1bCeYZEdqWf`. -/
def collidingNames : List UInt8 × List UInt8 :=
  ([103, 77, 80, 102, 108, 86, 88, 116, 119, 71, 68, 88, 98, 73, 104, 80, 55, 51, 84, 88],
    [76, 116, 72, 102, 49, 112, 114, 108, 85, 49, 98, 67, 101, 89, 90, 69, 100, 113, 87, 102])

/-- **A child of one map is found below another one**, whose name has the same hash. -/
theorem not_isolated_collision : ∃ s₀ s, domInit .bump .bump = .ok s₀ ∧
    insertMachine.Run s₀ [⟨.map, vlMsgPackExtNone, 1, collidingNames.1, none, 0⟩,
      ⟨.map, vlMsgPackExtNone, 1, collidingNames.2, none, 0⟩,
      ⟨.binary, vlMsgPackExtNone, 2, [99], some [7, 8], 2⟩] s ∧ ¬ s.Isolated := by
  have hexec : ((domInit .bump .bump).toOption.any fun s₀ =>
      (insertMachine.exec s₀ [⟨.map, vlMsgPackExtNone, 1, collidingNames.1, none, 0⟩,
        ⟨.map, vlMsgPackExtNone, 1, collidingNames.2, none, 0⟩,
        ⟨.binary, vlMsgPackExtNone, 2, [99], some [7, 8], 2⟩]).any fun s =>
          (s.doc.spots []).any fun t => decide (t.label.type.IsContainer) &&
            (vlMsgPackFindChild s.pack t.label.iter [99]).toOption.any fun r =>
              decide (r.1 ≠ 0 ∧ vlMsgPackParent s.pack r.1 ≠ .ok t.label.iter)) = true := by
    decide +kernel
  obtain ⟨s₀, hinit, hexec⟩ := (Option.any_eq_true _ _).mp hexec
  obtain ⟨s, hrun, hfound⟩ := Machine.exists_run_of_exec hexec
  obtain ⟨t, ht, htest⟩ := List.any_eq_true.mp hfound
  obtain ⟨htype, hfind⟩ := (Bool.and_eq_true _ _).mp htest
  obtain ⟨r, hr, hbad⟩ := (Option.any_eq_true _ _).mp hfind
  obtain ⟨hne, hparent⟩ := of_decide_eq_true hbad
  refine ⟨s₀, s, eq_ok_of_toOption hinit, hrun, fun hisolated => ?_⟩
  rcases (hisolated t ht (of_decide_eq_true htype) [99]).of_ok (eq_ok_of_toOption hr) with hzero | hself
  · exact hne hzero
  · exact hparent hself

end VeritableLasagna
