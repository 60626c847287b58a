import VeritableLasagna.Dom.Client

/-!
# What a document shows

A table that holds a document shows every node of it (`Holds.shows`). An insertion makes the document
that its client expects: a child that is overwritten stays in its place (`DomInsert.run_replace`), and a
new one comes last (`DomInsert.run_add`).
-/

namespace VeritableLasagna

/-! ### What a document shows -/

section Stored

variable {pack : VlMsgPack} {parent prev next : ℕ} {hash : UInt64} {a : DomEntry} {kids : Forest DomEntry}
  {e : VlMsgPackElement}

/-- The first child, which is the first slot of an array. -/
theorem DomEntry.Stored.firstChild (he : a.Stored pack parent hash prev next kids e)
    (hslot : a.node.value.type = .array →
      vlMsgPackFindChildIndexed pack a.iter 0 = .ok (kids.firstIter 0)) :
    vlMsgPackFirstChild pack a.iter = .ok (kids.firstIter 0) := by
  rw [vlMsgPackFirstChild, VlMsgPack.sample_eq he.get, ok_bind]
  simp only [he.type]
  cases he.fits with
  | nil type payload ptr hnil =>
    rw [type, hnil]
    rfl
  | leaf type first hnil ptr block =>
    obtain ⟨-, hmap, harray⟩ := type
    rw [hnil]
    split <;> first | contradiction | rfl
  | map type payload ptr first second length totalChildren keys =>
    rw [type, first]
    rfl
  | array type payload first second length keys ptr block =>
    rw [type]
    exact hslot type

theorem DomEntry.Stored.totalChildren (he : a.Stored pack parent hash prev next kids e) :
    vlMsgPackTotalChildren pack a.iter = .ok kids.length := by
  rw [vlMsgPackTotalChildren, VlMsgPack.sample_eq he.get, ok_bind]
  simp only [he.type]
  cases he.fits with
  | nil type payload ptr hnil =>
    rw [type, hnil]
    rfl
  | leaf type first hnil ptr block =>
    obtain ⟨-, hmap, harray⟩ := type
    rw [hnil]
    split <;> first | contradiction | rfl
  | map type payload ptr first second length totalChildren keys =>
    rw [type, totalChildren]
    rfl
  | array type payload first second length keys ptr block =>
    rw [type, second]
    rfl

end Stored

namespace VlMsgPack.Holds

variable {pack : VlMsgPack} {used : List (List UInt8)} {f : Forest DomEntry} {s : Spot DomEntry}

/-- A node of the document is in the table. -/
theorem node (h : pack.Holds used f) (hs : s ∈ f.spots []) :
    ∃ m, pack.node s.label.iter = some m := by
  obtain ⟨hash, prev, next, ⟨⟨⟨e, he⟩, -⟩, -⟩, -⟩ := h.spot hs
  exact ⟨_, he.get⟩

/-- The index of a slot is looked up. -/
theorem findChildIndexed (h : pack.Holds used f) (hinj : HashInjective used) (hs : s ∈ f.spots [])
    (harray : s.label.node.value.type = .array) {index : ℕ} (hindex : index < 2 ^ 32) :
    vlMsgPackFindChildIndexed pack s.label.iter index =
      .ok ((s.kids.roots[index]?.map DomEntry.iter).getD 0) := by
  obtain ⟨hash, prev, next, ⟨⟨⟨e, he⟩, -⟩, -⟩, -⟩ := h.spot hs
  rw [vlMsgPackFindChildIndexed, VlMsgPack.keyHash_eq he.get, ok_bind]
  exact congrArg Except.ok (h.find_slot hinj hs harray he.get hindex)

/-- The first child of a node. -/
theorem firstChild (h : pack.Holds used f) (hinj : HashInjective used) (hs : s ∈ f.spots []) :
    vlMsgPackFirstChild pack s.label.iter = .ok (s.kids.firstIter 0) := by
  obtain ⟨hash, prev, next, ⟨⟨⟨e, he⟩, -⟩, -⟩, -⟩ := h.spot hs
  refine he.firstChild fun harray => ?_
  rw [Forest.firstIter_eq]
  exact h.findChildIndexed hinj hs harray (Nat.two_pow_pos 32)

/-- The number of the children of a node. -/
theorem totalChildren (h : pack.Holds used f) (hs : s ∈ f.spots []) :
    vlMsgPackTotalChildren pack s.label.iter = .ok s.kids.length := by
  obtain ⟨hash, prev, next, ⟨⟨⟨e, he⟩, -⟩, -⟩, -⟩ := h.spot hs
  exact he.totalChildren

/-- **A document shows each of its nodes.** -/
theorem shows (h : pack.Holds used f) (hinj : HashInjective used) (hs : s ∈ f.spots []) :
    pack.Shows (s.map DomEntry.item) := by
  obtain ⟨hash, prev, next, hsound, -⟩ := h.spot hs
  obtain ⟨⟨e, he⟩, hkids, -⟩ := domLinked_cons.mp hsound.linked
  have hroots : (s.kids.map DomEntry.item).roots.map DomItem.iter = s.kids.roots.map DomEntry.iter := by
    rw [Forest.roots_map, List.map_map]
    rfl
  have hlen : s.kids.length < pack.rounds := Forest.length_le_length_iters.trans_lt
    (VlMsgPack.length_lt_rounds hsound.proper.kids.nodup fun i hi => hkids.node_ne_none hi)
  obtain ⟨k, hk⟩ : ∃ k, pack.rounds = s.kids.length + (k + 1) :=
    ⟨pack.rounds - s.kids.length - 1, by omega⟩
  refine ⟨?_, ?_, ?_, ?_, ?_, fun htype index hindex => ?_⟩
  · rw [vlMsgPackType, Spot.map, DomEntry.item, VlMsgPack.sample_eq he.get, ok_bind, he.type]
    rfl
  · rw [vlMsgPackParent, Spot.map, DomEntry.item, VlMsgPack.sample_eq he.get, ok_bind, he.parent,
      parentIter, iterAbove, List.head?_map, Option.map_map]
    rfl
  · rw [Spot.map, Forest.length_map]
    exact h.totalChildren hs
  · rw [listChildren, Spot.map, hroots, DomEntry.item, h.firstChild hinj hs, ok_bind, hk]
    exact hkids.forwards k
  · rw [Spot.map, hroots, ← Forest.lastIter_eq, hk]
    have hend : iterateLink (vlMsgPackPrevSibling pack) (k + 1) 0 = .ok [] := if_pos rfl
    have hback := hkids.backwards hend
    rwa [List.append_nil] at hback
  · rw [Spot.map, Forest.roots_map, List.getElem?_map, Option.map_map]
    exact h.findChildIndexed hinj hs htype hindex

end VlMsgPack.Holds

/-! ### What an insertion makes -/

section Placed

variable {o : DomInsert} {iter left curIdx : ℕ} {slots : List ℕ} {f f₁ f₂ k kids : Forest DomEntry}
  {a c : DomEntry}

@[simp] theorem length_labels_slotItems : (slotItems left curIdx slots).labels.length = left := by
  induction left generalizing curIdx slots with
  | zero => rfl
  | succ left ih => rw [slotItems, Forest.labels_cons, List.length_cons, List.length_append, ih,
      Forest.labels_nil, List.length_nil, Nat.zero_add]

/-- The slots of a new array, as a client lists them. -/
theorem item_slots (h : f.erase = slotsFrom left curIdx) :
    f.map DomEntry.item = slotItems left curIdx (f.roots.map DomEntry.iter) := by
  induction f generalizing left curIdx with
  | nil =>
    cases left with
    | zero => rfl
    | succ left => cases h
  | cons b kids rest _ ih =>
    cases left with
    | zero => cases h
    | succ left =>
      rw [Forest.erase_cons, slotsFrom] at h
      obtain ⟨hb, hkids, hrest⟩ := Forest.cons.inj h
      have hnil : kids = .nil := by
        cases kids with
        | nil => rfl
        | cons b k r => cases hkids
      rw [Forest.map_cons, ih hrest, hnil, DomEntry.item, hb]
      rfl

/-- What is below a new node is counted by its slots. -/
theorem DomValue.Made.kids_eq_slots {data : Option (List UInt8)} {type : VlMsgPackType} {extType : ℤ}
    {dataLen : ℕ} (h : a.node.value.Made type extType data dataLen kids.erase) :
    kids.erase = slotsFrom (slotCount type data) 0 := by
  rw [h.kids_eq, slotCount]
  split_ifs <;> rfl

/-- A child that is overwritten, as its client knows it. -/
theorem DomInsert.placed_replace (hkey : c.node.key = o.key)
    (hbefore : ∀ b ∈ f₁.roots, b.node.key ≠ o.key) :
    o.placed iter slots ((f₁ ++ .cons c k f₂).map DomEntry.item) = f₁.map DomEntry.item ++
      .cons ⟨c.iter, c.node.key, o.type⟩ (slotItems (slotCount o.type o.data) 0 slots)
        (f₂.map DomEntry.item) := by
  rw [placed, Forest.map_append, Forest.map_cons, Forest.setChild_replace]
  · rfl
  · intro b hb
    rw [Forest.roots_map] at hb
    obtain ⟨b', hb', rfl⟩ := List.mem_map.mp hb
    exact decide_eq_false (hbefore b' hb')
  · exact decide_eq_true hkey

/-- A new child, as its client knows it. -/
theorem DomInsert.placed_append (hnew : ∀ b ∈ f.roots, b.node.key ≠ o.key) :
    o.placed iter slots (f.map DomEntry.item) = f.map DomEntry.item ++
      .cons ⟨iter, o.key, o.type⟩ (slotItems (slotCount o.type o.data) 0 slots) .nil := by
  rw [placed, Forest.setChild_append]
  intro b hb
  rw [Forest.roots_map] at hb
  obtain ⟨b', hb', rfl⟩ := List.mem_map.mp hb
  exact decide_eq_false (hnew b' hb')

/-- A node as its client knows it. -/
theorem mem_spots_item {s : Spot DomEntry} (hs : s ∈ f.spots []) :
    s.map DomEntry.item ∈ (f.map DomEntry.item).spots [] := by
  have hmap : s.map DomEntry.item ∈ (f.map DomEntry.item).spots (List.map DomEntry.item []) := by
    rw [Forest.spots_map]
    exact List.mem_map_of_mem hs
  exact hmap

theorem iters_item : (f.map DomEntry.item).labels.map DomItem.iter = f.labels.map DomEntry.iter := by
  rw [Forest.labels_map, List.map_map]
  rfl

/-- **The client knows the new document**, when it knows what has become of the children. -/
theorem updateAt_item {s : Spot DomEntry} {g : Forest DomEntry} {φ : Forest DomItem → Forest DomItem}
    (hnodup : (f.labels.map DomEntry.iter).Nodup) (hs : s ∈ f.spots [])
    (hg : φ (s.kids.map DomEntry.item) = g.map DomEntry.item) :
    (f.map DomEntry.item).updateAt (fun a => a.iter = s.label.iter) φ =
      (f.setKids s.label.iter g).map DomEntry.item := by
  have hmap : (f.setKids s.label.iter g).map DomEntry.item =
      (f.map DomEntry.item).updateAt (fun a => a.iter = s.label.iter) fun _ => g.map DomEntry.item :=
    Forest.map_updateAt (fun _ => rfl) fun _ => rfl
  have hconst : (f.map DomEntry.item).updateAt (fun a => a.iter = s.label.iter) φ =
      (f.map DomEntry.item).updateAt (fun a => a.iter = s.label.iter)
        fun _ => φ (s.kids.map DomEntry.item) :=
    Forest.updateAt_eq_const (iters_item ▸ hnodup) (mem_spots_item hs)
  rw [hconst, hg, hmap]

theorem DomInsert.applied_eq {s : Spot DomEntry} {g : Forest DomEntry}
    (hnodup : (f.labels.map DomEntry.iter).Nodup) (hs : s ∈ f.spots [])
    (hparent : s.label.iter = o.parent)
    (hg : o.placed iter slots (s.kids.map DomEntry.item) = g.map DomEntry.item) :
    o.applied iter slots (f.map DomEntry.item) = (f.setKids s.label.iter g).map DomEntry.item := by
  rw [applied, ← hparent]
  exact updateAt_item hnodup hs hg

/-- The nodes of the new document. -/
theorem DomInsert.length_applied {s : Spot DomEntry} (hnodup : (f.labels.map DomEntry.iter).Nodup)
    (hs : s ∈ f.spots []) (hparent : s.label.iter = o.parent) :
    (o.applied iter slots (f.map DomEntry.item)).labels.length + s.kids.labels.length =
      f.labels.length + (o.placed iter slots (s.kids.map DomEntry.item)).labels.length := by
  have hlen : ((f.map DomEntry.item).updateAt (fun a => a.iter = s.label.iter)
      (o.placed iter slots)).labels.length + (s.kids.map DomEntry.item).labels.length =
      (f.map DomEntry.item).labels.length +
        (o.placed iter slots (s.kids.map DomEntry.item)).labels.length :=
    Forest.length_labels_updateAt (iters_item ▸ hnodup) (mem_spots_item hs)
  rw [Forest.labels_map, Forest.labels_map, List.length_map, List.length_map] at hlen
  rw [applied, ← hparent, hlen]

/-- A node that the client knows is one of the document. -/
theorem exists_spot_of_mem_item {f : Forest DomEntry} {t : Spot DomItem}
    (ht : t ∈ (f.map DomEntry.item).spots []) : ∃ u ∈ f.spots [], u.map DomEntry.item = t := by
  have ht : t ∈ (f.map DomEntry.item).spots (List.map DomEntry.item []) := ht
  rw [Forest.spots_map] at ht
  exact List.mem_map.mp ht

end Placed

/-- **The document shows what its client knows**, when the table holds it. -/
theorem VlMsgPack.Holds.right {s : DomState} {used : List (List UInt8)} {f : Forest DomEntry}
    (h : s.pack.Holds used f) (hdoc : s.doc = f.map DomEntry.item) (hinj : HashInjective used) :
    s.Right := by
  have hiters : s.doc.labels.map DomItem.iter = f.iters := hdoc ▸ iters_item
  obtain ⟨prev, next, hsound⟩ := h.sound
  refine ⟨hiters ▸ hsound.proper.nodup, fun a ha hzero => ?_, fun t ht => ?_⟩
  · have hmem : a.iter ∈ f.iters := hiters ▸ List.mem_map_of_mem ha
    exact hsound.proper.ne_zero (hzero ▸ hmem)
  · rw [hdoc] at ht
    obtain ⟨u, hu, rfl⟩ := exists_spot_of_mem_item ht
    exact h.shows hinj hu

/-- A forest without an empty leaf. -/
theorem Forest.hollow_eq_false {f : Forest DomEntry} (h : ∀ a ∈ f.labels, ¬ a.node.hollow) :
    f.erase.hollow = false := by
  rw [hollow, List.any_eq_false]
  intro b hb
  have hlabels : f.erase.labels = f.labels.map DomEntry.node := labels_map
  rw [hlabels] at hb
  obtain ⟨a, ha, rfl⟩ := List.mem_map.mp hb
  exact h a ha

/-- The first document is one empty map. -/
theorem domInit_holds (nodePlace valuePlace : Placement) :
    Returns (domInit nodePlace valuePlace) fun s => ∃ r : DomEntry,
      s.doc = .cons r.item .nil .nil ∧ s.used = [vlMsgPackRootKey] ∧
      r.node.key = vlMsgPackRootString ∧ r.node.value.type = .map ∧
      s.pack.Holds s.used (.cons r .nil .nil) := by
  refine (vlMsgPackInit_spec nodePlace valuePlace).bind fun pack ⟨r, hroot, hkey, htype, hholds⟩ => ?_
  refine returns_ok ⟨r, ?_, rfl, hkey, htype, hholds⟩
  rw [DomEntry.item, hroot, hkey, htype]

/-! ### Insertions as their client follows them -/

/-- **What an insertion has done** below the node of `u`: between `f₁` and `f₂` is a new tree, and the
client knows the document. -/
structure DomInsert.Done (o : DomInsert) (pack : VlMsgPack) (used : List (List UInt8))
    (f : Forest DomEntry) (u : Spot DomEntry) (m : VlMsgPackNode) (f₁ f₂ : Forest DomEntry)
    (r : ℕ × List ℕ × VlMsgPack) (a : DomEntry) (kids : Forest DomEntry) : Prop where
  iter : r.1 = a.iter
  made : a.node.value.Made o.type o.extType o.data o.dataLen kids.erase
  doc : o.applied r.1 r.2.1 (f.map DomEntry.item) =
    (f.setKids u.label.iter (f₁ ++ (.cons a kids .nil ++ f₂))).map DomEntry.item
  holds : r.2.2.Holds used (f.setKids u.label.iter (f₁ ++ (.cons a kids .nil ++ f₂)))
  keys : ∀ i n, r.2.2.node i = some n → (∃ l, pack.node i = some l ∧ l.key = n.key) ∨
    n.key ∈ insertedKeys o.type o.data (hierarchicalKey (vlHashMsgPackKey m.key) o.key)

section Run

variable {o : DomInsert} {pack : VlMsgPack} {used used' : List (List UInt8)}
  {f f₁ f₂ k : Forest DomEntry} {u : Spot DomEntry} {c : DomEntry} {m : VlMsgPackNode}

/-- The slots of the new node are listed. -/
theorem DomInsert.run_of_insert {pack' : VlMsgPack} {iter : ℕ} {a : DomEntry} {kids : Forest DomEntry}
    (hnodup : (f.labels.map DomEntry.iter).Nodup) (hu : u ∈ f.spots [])
    (hinj : HashInjective used')
    (hrun : vlMsgPackInsertExt pack o.type o.extType o.parent o.key o.data o.dataLen =
      .ok (iter, pack')) (hiter : iter = a.iter)
    (hholds : pack'.Holds used' (f.setKids u.label.iter (f₁ ++ (.cons a kids .nil ++ f₂)))) :
    o.run pack = .ok (iter, kids.roots.map DomEntry.iter, pack') := by
  have ha : ⟨u.label :: u.above, a, kids⟩ ∈
      (f₁ ++ (Forest.cons a kids .nil ++ f₂)).spots (u.label :: u.above) := by
    rw [Forest.mem_spots_append, Forest.mem_spots_append, Forest.mem_spots_cons]
    exact Or.inr (Or.inl (Or.inl rfl))
  have hspot : ⟨u.label :: u.above, a, kids⟩ ∈ (f.setKids u.label.iter
      (f₁ ++ (.cons a kids .nil ++ f₂))).spots [] := Forest.mem_spots_updateAt_self hnodup hu ha
  have hlist : listChildren pack' iter = .ok (kids.roots.map DomEntry.iter) := by
    have hforwards := (hholds.shows hinj hspot).forwards
    rw [Spot.map, Forest.roots_map, List.map_map] at hforwards
    rw [hiter]
    exact hforwards
  rw [run, hrun, ok_bind]
  dsimp only
  rw [hlist, ok_bind]
  rfl

/-- **A child is overwritten**, when its key finds it. -/
theorem DomInsert.run_replace (h : pack.Holds used f) (hinj : HashInjective used')
    (hsub : used ⊆ used') (hu : u ∈ f.spots []) (hparent : u.label.iter = o.parent)
    (hm : pack.node u.label.iter = some m) (hkids : u.kids = f₁ ++ .cons c k f₂)
    (hkey : c.node.key = o.key) (hbefore : ∀ b ∈ f₁.roots, b.node.key ≠ o.key)
    (hfind : pack.nodes.find (hierarchicalKey (vlHashMsgPackKey m.key) c.node.key) = c.iter)
    (hhollow : k.erase.hollow = false) (hext : Accepted o.type o.extType)
    (hdata : DataFits o.type o.data o.dataLen)
    (hused : o.type.IsContainer → hierarchicalKey (vlHashMsgPackKey m.key) o.key ∈ used')
    (hroom : (o.applied 0 [] (f.map DomEntry.item)).labels.length ≤ VlNodeTable.limit) :
    Returns (o.run pack) fun r => ∃ a kids, o.Done pack used' f u m f₁ f₂ r a kids := by
  have hroom' : pack.total + slotCount o.type o.data ≤ VlNodeTable.limit + k.iters.length := by
    have hlen : (o.applied 0 [] (f.map DomEntry.item)).labels.length + u.kids.labels.length = _ :=
      DomInsert.length_applied h.nodup hu hparent
    rw [hkids, DomInsert.placed_replace hkey hbefore] at hlen
    simp only [Forest.labels_append, Forest.labels_cons, Forest.labels_map, List.length_append,
      List.length_cons, List.length_map, length_labels_slotItems] at hlen
    rw [h.total, Forest.iters, List.length_map]
    omega
  obtain ⟨⟨iter, pack'⟩, hrun, hiter, a, kids, haiter, hakey, hmade, hholds, hkeys⟩ :=
    h.replace hinj hsub hu hm hkids hfind hhollow hext hdata (hkey ▸ hused) hroom'
  rw [hparent, hkey] at hrun
  have hiter : iter = a.iter := Eq.trans hiter haiter.symm
  refine ⟨_, DomInsert.run_of_insert h.nodup hu hinj hrun hiter hholds, a, kids, hiter, hmade,
    DomInsert.applied_eq h.nodup hu hparent ?_, hholds, hkey ▸ hkeys⟩
  rw [hkids, DomInsert.placed_replace hkey hbefore, ← item_slots hmade.kids_eq_slots,
    Forest.map_append, Forest.cons_append, Forest.nil_append, Forest.map_cons, DomEntry.item, haiter,
    hakey, hmade.type_eq]

/-- **A map gets a new child**, when its key finds nothing. -/
theorem DomInsert.run_add (h : pack.Holds used f) (hinj : HashInjective used')
    (hsub : used ⊆ used') (hu : u ∈ f.spots []) (hparent : u.label.iter = o.parent)
    (hmap : u.label.node.value.type = .map) (hm : pack.node u.label.iter = some m)
    (hnew : ∀ b ∈ u.kids.roots, b.node.key ≠ o.key)
    (hfind : pack.nodes.find (hierarchicalKey (vlHashMsgPackKey m.key) o.key) = 0)
    (hext : Accepted o.type o.extType) (hdata : DataFits o.type o.data o.dataLen)
    (hused : o.type.IsContainer → hierarchicalKey (vlHashMsgPackKey m.key) o.key ∈ used')
    (hroom : (o.applied 0 [] (f.map DomEntry.item)).labels.length ≤ VlNodeTable.limit) :
    Returns (o.run pack) fun r => ∃ a kids, o.Done pack used' f u m u.kids .nil r a kids := by
  have hkey : o.key ∉ u.kids.roots.map (·.node.key) := fun hmem => by
    obtain ⟨b, hb, heq⟩ := List.mem_map.mp hmem
    exact hnew b hb heq
  have hroom' : pack.total + 1 + slotCount o.type o.data ≤ VlNodeTable.limit := by
    have hlen : (o.applied 0 [] (f.map DomEntry.item)).labels.length + u.kids.labels.length = _ :=
      DomInsert.length_applied h.nodup hu hparent
    rw [DomInsert.placed_append hnew] at hlen
    simp only [Forest.labels_append, Forest.labels_cons, Forest.labels_nil, Forest.labels_map,
      List.length_append, List.length_cons, List.length_nil, List.length_map,
      length_labels_slotItems] at hlen
    rw [h.total]
    omega
  obtain ⟨⟨iter, pack'⟩, hrun, a, kids, hiter, hakey, hmade, hholds, hkeys⟩ :=
    h.add hinj hsub hu hmap hm hkey hfind hext hdata hused hroom'
  rw [hparent] at hrun
  have hiter : iter = a.iter := hiter
  refine ⟨_, DomInsert.run_of_insert h.nodup hu hinj hrun hiter hholds, a, kids, hiter, hmade,
    DomInsert.applied_eq h.nodup hu hparent ?_, hholds, hkeys⟩
  rw [DomInsert.placed_append hnew, ← item_slots hmade.kids_eq_slots, Forest.map_append,
    Forest.append_nil, Forest.map_cons, DomEntry.item, hiter, hakey, hmade.type_eq]
  rfl

end Run

end VeritableLasagna
