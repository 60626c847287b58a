import VeritableLasagna.Dom.Remove
import VeritableLasagna.Dom.Shown

/-!
# Editing a document

A client inserts new keys, overwrites present ones and removes nodes. `s.Exact` says that the document is
a tree of ordered maps and arrays: in addition to what it shows of its nodes (`s.Right`), a key finds the
child that was inserted under it, and nothing when there is none.

It stays one as long as each operation fits (`DomState.Fits`), over all runs (`vlMsgPack_refines`). What
does not fit:

* A child that is removed from a map stays in the table, and its key still finds it
  (`not_vlMsgPack_removed`). Inserted again, it is overwritten there and not linked.
* A leaf that is removed is freed twice, and a leaf with no bytes below a node that is overwritten or
  removed frees a block that is none.
* A key of 65528 bytes or more is known by its first bytes only, and a table of 1717986918 nodes takes no
  more.
-/

namespace VeritableLasagna

/-! ### The operations -/

/-- `vlMsgPackInsertExt` and `vlMsgPackRemove`. -/
inductive DomEdit
  | insert (o : DomInsert)
  | remove (iter : ℕ)

/-- The children of a node without one of them: a map loses it, and in an array it is a `NIL`. -/
def dropChild (type : VlMsgPackType) (iter : ℕ) (kids : Forest DomItem) : Forest DomItem :=
  if type = .array then
    kids.setChild (fun a => a.iter = iter) (fun a => { a with type := .nil }) ⟨iter, [], .nil⟩ .nil
  else kids.eraseRoot fun a => a.iter = iter

namespace DomState

/-- The hierarchical keys of an insertion. -/
def newKeys (s : DomState) (o : DomInsert) : List (List UInt8) :=
  match s.pack.keyHash o.parent with
  | .ok hash => insertedKeys o.type o.data (hierarchicalKey hash o.key)
  | .error _ => []

/-- The hierarchical keys used, with those of an operation. -/
def keys (s : DomState) : DomEdit → List (List UInt8)
  | .insert o => s.newKeys o ++ s.used
  | .remove _ => s.used

/-- **The document is the tree that its client knows**: it shows every node, and finds a key where it is
and nowhere else. -/
structure Exact (s : DomState) : Prop extends s.Right where
  finds : ∀ t ∈ s.doc.spots [], ∀ key,
    (vlMsgPackFindChild s.pack t.label.iter key).map Prod.fst =
      .ok (((t.kids.roots.find? fun a => a.key = key).map DomItem.iter).getD 0)

/-- No leaf below a node is empty. -/
def Solid (s : DomState) (t : Spot DomItem) : Prop :=
  ∀ a ∈ t.kids.labels, a.type.IsLeaf → vlMsgPackSampleValue s.pack a.iter ≠ .ok none

/-- What an insertion needs: room, a key that fits its size and whose hash is not that of the parent of
the root, and no empty leaf below the node that is overwritten. -/
structure Takes (s : DomState) (o : DomInsert) : Prop where
  nodes : (o.applied 0 [] s.doc).labels.length ≤ VlNodeTable.limit
  short : o.key.length + 8 < 2 ^ 16
  apart : ∀ K ∈ s.newKeys o, vlHashMsgPackKey K ≠ vlMsgPackRootHash
  solid : ∀ t ∈ s.doc.spots [], parentIter t.above = o.parent → t.label.key = o.key → s.Solid t

/-- What a removal needs: the node is a child of an array and no leaf, a `NIL` has no handle that is
stale, and no leaf below the node is empty. -/
def Releases (s : DomState) (iter : ℕ) : Prop :=
  ∃ t ∈ s.doc.spots [], t.label.iter = iter ∧ t.above.head?.map DomItem.type = some .array ∧
    ¬ t.label.type.IsLeaf ∧
    (t.label.type = .nil → (s.pack.sample iter).map VlMsgPackElement.first = .ok 0) ∧ s.Solid t

/-- **The operation fits the document.** -/
def Fits (s : DomState) : DomEdit → Prop
  | .insert o => s.Takes o
  | .remove iter => s.Releases iter

end DomState

/-- An operation, as its client follows it. -/
def editStep (s : DomState) : DomEdit → Except Fault DomState
  | .insert o => do
    let (iter, slots, pack) ← o.run s.pack
    return ⟨pack, o.applied iter slots s.doc, s.newKeys o ++ s.used⟩
  | .remove iter => do
    let parent ← vlMsgPackParent s.pack iter
    let type ← vlMsgPackType s.pack parent
    let pack ← vlMsgPackRemove s.pack iter
    return ⟨pack, s.doc.updateAt (fun a => a.iter = parent) (dropChild type iter), s.used⟩

/-- The document under insertions of any key into a map and of a slot into an array, and removals of any
node but the root. -/
def editMachine : Machine DomState DomEdit where
  guard s
    | .insert o => Accepted o.type o.extType ∧ DataFits o.type o.data o.dataLen ∧
      ∃ t ∈ s.doc.spots [], t.label.iter = o.parent ∧ (t.label.type = .map ∨ t.label.type = .array ∧
        ∃ index, index < t.kids.length ∧ o.key = natToLE 4 index)
    | .remove iter => ∃ t ∈ s.doc.spots [], t.label.iter = iter ∧ t.above ≠ []
  step := editStep

instance instDecidableSpotSolid {s : DomState} {t : Spot DomItem} : Decidable (s.Solid t) :=
  inferInstanceAs (Decidable (∀ a ∈ t.kids.labels, _))

instance instDecidableInsertTakes {s : DomState} {o : DomInsert} : Decidable (s.Takes o) :=
  decidable_of_iff ((o.applied 0 [] s.doc).labels.length ≤ VlNodeTable.limit ∧
      o.key.length + 8 < 2 ^ 16 ∧ (∀ K ∈ s.newKeys o, vlHashMsgPackKey K ≠ vlMsgPackRootHash) ∧
      ∀ t ∈ s.doc.spots [], parentIter t.above = o.parent → t.label.key = o.key → s.Solid t)
    ⟨fun h => ⟨h.1, h.2.1, h.2.2.1, h.2.2.2⟩, fun h => ⟨h.nodes, h.short, h.apart, h.solid⟩⟩

instance instDecidableStateReleases {s : DomState} {iter : ℕ} : Decidable (s.Releases iter) :=
  inferInstanceAs (Decidable (∃ t ∈ s.doc.spots [], _))

instance instDecidableEditFits {s : DomState} {e : DomEdit} : Decidable (s.Fits e) :=
  match e with
  | .insert o => inferInstanceAs (Decidable (s.Takes o))
  | .remove iter => inferInstanceAs (Decidable (s.Releases iter))

instance {s : DomState} {e : DomEdit} : Decidable (editMachine.guard s e) :=
  match e with
  | .insert _ => inferInstanceAs (Decidable (_ ∧ _ ∧ ∃ t ∈ s.doc.spots [], _))
  | .remove _ => inferInstanceAs (Decidable (∃ t ∈ s.doc.spots [], _))

instance {s : DomState} {e : DomEdit} : Decidable ((editMachine.restrict DomState.Fits).guard s e) :=
  inferInstanceAs (Decidable (editMachine.guard s e ∧ s.Fits e))

/-! ### Finding and sampling -/

/-- The value of a stored node is its payload. -/
theorem DomEntry.Stored.sampleValue {pack : VlMsgPack} {parent prev next : ℕ} {hash : UInt64} {a : DomEntry}
    {kids : Forest DomEntry} {e : VlMsgPackElement} (he : a.Stored pack parent hash prev next kids e) :
    vlMsgPackSampleValue pack a.iter =
      .ok (if a.node.value.payload = [] then none else some a.node.value.payload) := by
  rw [vlMsgPackSampleValue, VlMsgPack.sample_eq he.get, ok_bind]
  simp only [he.type]
  cases he.fits with
  | nil type payload =>
    rw [type, payload]
    rfl
  | map type payload =>
    rw [type, payload]
    rfl
  | array type payload =>
    rw [type, payload]
    rfl
  | leaf type first hnil ptr block =>
    obtain ⟨hnil, hmap, harray⟩ := type
    rw [first]
    by_cases hzero : a.ptr = 0
    · rw [if_pos hzero, if_pos (ptr.mp hzero)]
      split <;> first | contradiction | rfl
    · have hget : pack.values.store.get a.ptr = _ := block hzero
      rw [if_neg hzero, if_neg fun hempty => hzero (ptr.mpr hempty), hget]
      split <;> first | contradiction | rfl

namespace VlMsgPack.Holds

variable {pack : VlMsgPack} {used : List (List UInt8)} {f f₁ f₂ k : Forest DomEntry}
  {s : Spot DomEntry} {m : VlMsgPackNode} {key : List UInt8} {c : DomEntry}

/-- The keys of siblings are different. -/
theorem nodup_keys (h : pack.Holds used f) (hs : s ∈ f.spots []) :
    (s.kids.roots.map (·.node.key)).Nodup := by
  obtain ⟨hash, prev, next, ⟨⟨⟨e, he⟩, -⟩, -⟩, -⟩ := h.spot hs
  cases he.fits with
  | nil type payload ptr hnil => rw [hnil]; exact List.nodup_nil
  | leaf type first hnil ptr block => rw [hnil]; exact List.nodup_nil
  | map type payload ptr first second length totalChildren keys => exact keys
  | array type payload first second length keys ptr block =>
    rw [keys]
    exact nodup_slotKeys length.le

/-- **A key finds the child that has it**, and nothing if there is none. -/
theorem find_child (h : pack.Holds used f) (hinj : HashInjective used) (hs : s ∈ f.spots [])
    (hm : pack.node s.label.iter = some m) (hmem : m.key ∈ used)
    (hshort : ∀ i n, pack.node i = some n → n.key.length < 2 ^ 16)
    (hroot : vlHashMsgPackKey m.key ≠ vlMsgPackRootHash) :
    pack.nodes.find (hierarchicalKey (vlHashMsgPackKey m.key) key) =
      ((s.kids.roots.find? fun a => a.node.key = key).map DomEntry.iter).getD 0 := by
  have hchild : ∀ i n, pack.node i = some n →
      n.stored = hierarchicalKey (vlHashMsgPackKey m.key) key →
      ∃ c ∈ s.kids.roots, c.iter = i ∧ c.node.key = key := by
    intro i n hn hstored
    have hkey := (VlMsgPackNode.stored_eq (hshort i n hn)).symm.trans hstored
    refine h.child hinj (List.Subset.refl _) hs hm hmem hn hkey fun heq => hroot ?_
    exact (hierarchicalKey_inj (hkey.symm.trans heq)).1
  cases hfound : s.kids.roots.find? fun a => a.node.key = key with
  | none =>
    refine find_eq_zero fun i n hn hstored => ?_
    obtain ⟨c, hc, -, hkey⟩ := hchild i n hn hstored
    exact absurd (decide_eq_true hkey) (List.find?_eq_none.mp hfound c hc)
  | some c =>
    have hc := List.mem_of_find?_eq_some hfound
    have hkey : c.node.key = key := by simpa using List.find?_some hfound
    obtain ⟨e, he⟩ := h.child_node hs hm hc
    have hlen := hshort _ _ he
    rw [hkey] at he hlen
    refine find_eq he rfl hlen fun i n hn hstored => ?_
    obtain ⟨c', hc', rfl, hkey'⟩ := hchild i n hn hstored
    rw [List.inj_on_of_nodup_map (h.nodup_keys hs) hc' hc (hkey'.trans hkey.symm)]
    rfl

/-- The value of a node is its payload. -/
theorem sampleValue (h : pack.Holds used f) (hs : s ∈ f.spots []) :
    vlMsgPackSampleValue pack s.label.iter =
      .ok (if s.label.node.value.payload = [] then none else some s.label.node.value.payload) := by
  obtain ⟨hash, prev, next, ⟨⟨⟨e, he⟩, -⟩, -⟩, -⟩ := h.spot hs
  exact he.sampleValue

end VlMsgPack.Holds

/-! ### The invariant -/

/-- The table holds the document that the client knows. Every key in it has been used, fits its size, and
has another hash than the parent of the root. -/
structure DomState.Kept (s : DomState) (f : Forest DomEntry) : Prop where
  doc : s.doc = f.map DomEntry.item
  holds : s.pack.Holds s.used f
  used : ∀ i n, s.pack.node i = some n → n.key ∈ s.used
  short : ∀ i n, s.pack.node i = some n → n.key.length < 2 ^ 16
  apart : ∀ i n, s.pack.node i = some n → vlHashMsgPackKey n.key ≠ vlMsgPackRootHash

section Kept

variable {s : DomState} {o : DomInsert} {f f₁ f₂ k : Forest DomEntry} {u : Spot DomEntry} {c : DomEntry}
  {m : VlMsgPackNode}

/-- **The document is the tree that its client knows.** -/
theorem DomState.Kept.exact (h : s.Kept f) (hinj : HashInjective s.used) : s.Exact := by
  have hright : s.Right := h.holds.right h.doc hinj
  refine ⟨hright, fun t ht key => ?_⟩
  rw [h.doc] at ht
  obtain ⟨u, hu, rfl⟩ := exists_spot_of_mem_item ht
  obtain ⟨m, hm⟩ := h.holds.node hu
  obtain ⟨_, _, hsound⟩ := h.holds.sound
  obtain ⟨k, hfind⟩ : ∃ k, vlMsgPackFindChild s.pack u.label.iter key = _ :=
    vlMsgPackFindChild_spec hsound.unbroken hm
  have hroots : ((u.kids.map DomEntry.item).roots.find? fun a => a.key = key).map DomItem.iter =
      (u.kids.roots.find? fun a => a.node.key = key).map DomEntry.iter := by
    rw [Forest.roots_map, List.find?_map, Option.map_map]
    rfl
  rw [Spot.map, hroots, DomEntry.item, hfind, ← h.holds.find_child hinj hu hm (h.used _ m hm) h.short
    (h.apart _ m hm)]
  rfl

/-! ### Steps -/

theorem DomState.newKeys_eq (hm : s.pack.node o.parent = some m) : s.newKeys o =
    insertedKeys o.type o.data (hierarchicalKey (vlHashMsgPackKey m.key) o.key) := by
  rw [newKeys, VlMsgPack.keyHash_eq hm]

/-- The keys of an insertion fit their size, when its key does. -/
theorem length_of_mem_insertedKeys {type : VlMsgPackType} {data : Option (List UInt8)} {hash : UInt64}
    {key K : List UInt8} (hshort : key.length + 8 < 2 ^ 16)
    (hK : K ∈ insertedKeys type data (hierarchicalKey hash key)) : K.length < 2 ^ 16 := by
  rcases List.mem_cons.mp hK with rfl | hK
  · rw [hierarchicalKey, List.length_append, length_natToLE]
    omega
  · obtain ⟨idx, -, rfl⟩ := List.mem_map.mp hK
    exact length_slotKey_lt

/-- What an insertion has done, its client knows. -/
theorem DomInsert.Done.kept {kids : Forest DomEntry} {a : DomEntry} {r : ℕ × List ℕ × VlMsgPack}
    (hdone : o.Done s.pack (s.newKeys o ++ s.used) f u m f₁ f₂ r a kids) (h : s.Kept f)
    (htakes : s.Takes o) (hm : s.pack.node o.parent = some m) :
    DomState.Kept ⟨r.2.2, o.applied r.1 r.2.1 s.doc, s.newKeys o ++ s.used⟩
      (f.setKids u.label.iter (f₁ ++ (.cons a kids .nil ++ f₂))) := by
  have hkeys := hdone.keys
  rw [← DomState.newKeys_eq hm] at hkeys
  refine ⟨(congrArg _ h.doc).trans hdone.doc, hdone.holds, fun i n hn => ?_, fun i n hn => ?_,
    fun i n hn => ?_⟩ <;> rcases hkeys i n hn with ⟨l, hl, hlkey⟩ | hnew
  · exact hlkey ▸ List.mem_append_right _ (h.used i l hl)
  · exact List.mem_append_left _ hnew
  · exact hlkey ▸ h.short i l hl
  · rw [DomState.newKeys_eq hm] at hnew
    exact length_of_mem_insertedKeys htakes.short hnew
  · exact hlkey ▸ h.apart i l hl
  · exact htakes.apart _ hnew

/-- No leaf below a node is empty, as its client sees it. -/
theorem VlMsgPack.Holds.not_hollow {used : List (List UInt8)} (h : s.pack.Holds used f)
    (hu : u ∈ f.spots []) (hsolid : s.Solid (u.map DomEntry.item)) : u.kids.erase.hollow = false := by
  refine Forest.hollow_eq_false fun b hb hhollow => ?_
  obtain ⟨t, ht, rfl, -⟩ : ∃ t ∈ f.spots [], t.label = b ∧ [] ⊆ t.above :=
    Forest.exists_spot_of_mem_labels (Forest.labels_subset_of_mem_spots hu hb)
  obtain ⟨hleaf, hpayload⟩ := of_decide_eq_true hhollow
  have hsample := h.sampleValue ht
  rw [if_pos hpayload] at hsample
  refine hsolid t.label.item ?_ hleaf hsample
  rw [Spot.map, Forest.labels_map]
  exact List.mem_map_of_mem hb

/-- **What an insertion puts** into the document: a new tree below the parent, in the place of the child
with its key if there is one. -/
structure DomInsert.Puts (o : DomInsert) (pack : VlMsgPack) (used : List (List UInt8))
    (f : Forest DomEntry) (r : ℕ × List ℕ × VlMsgPack) (u : Spot DomEntry) (m : VlMsgPackNode)
    (f₁ old f₂ : Forest DomEntry) (a : DomEntry) (kids : Forest DomEntry) : Prop
    extends o.Done pack used f u m f₁ f₂ r a kids where
  spot : u ∈ f.spots []
  parent : u.label.iter = o.parent
  node : pack.node o.parent = some m
  kids_eq : u.kids = f₁ ++ (old ++ f₂)
  old_eq : old = .nil ∨ ∃ c k, old = .cons c k .nil ∧ c.node.key = o.key

/-- **An insertion puts its tree into the document**, as long as the hash tells the keys `used'` of the
containers apart, the keys fit their size, and the hash of the parent is not that of the parent of the
root. -/
theorem DomInsert.run_spec {used used' : List (List UInt8)} (h : s.pack.Holds used f)
    (hdoc : s.doc = f.map DomEntry.item) (hg : editMachine.guard s (.insert o))
    (hinj : HashInjective used') (hsub : used ⊆ used')
    (hused : ∀ m, s.pack.node o.parent = some m → o.type.IsContainer →
      hierarchicalKey (vlHashMsgPackKey m.key) o.key ∈ used')
    (hshort : ∀ i n, s.pack.node i = some n → n.key.length < 2 ^ 16)
    (hapart : ∀ m, s.pack.node o.parent = some m → vlHashMsgPackKey m.key ≠ vlMsgPackRootHash)
    (hnodes : (o.applied 0 [] s.doc).labels.length ≤ VlNodeTable.limit)
    (hsolid : ∀ t ∈ s.doc.spots [], parentIter t.above = o.parent → t.label.key = o.key → s.Solid t) :
    Returns (o.run s.pack) fun r => ∃ u m f₁ old f₂ a kids,
      o.Puts s.pack used' f r u m f₁ old f₂ a kids := by
  obtain ⟨hext, hdata, t, ht, hparent, hplace⟩ := hg
  rw [hdoc] at ht hnodes
  obtain ⟨u, hu, rfl⟩ := exists_spot_of_mem_item ht
  obtain ⟨m, hm⟩ := h.node hu
  have hparent : u.label.iter = o.parent := hparent
  have hm' : s.pack.node o.parent = some m := hparent ▸ hm
  have hcontainer : u.label.node.value.type.IsContainer := hplace.imp id fun harray => harray.1
  have hfind : s.pack.nodes.find (hierarchicalKey (vlHashMsgPackKey m.key) o.key) = _ :=
    h.find_child (hinj.mono hsub) hu hm (h.used _ (Forest.label_mem_of_mem_spots hu) hcontainer m hm)
      hshort (hapart m hm')
  cases hfound : u.kids.roots.find? fun a => a.node.key = o.key with
  | some c =>
    have hc := List.mem_of_find?_eq_some hfound
    have hckey : c.node.key = o.key := by simpa using List.find?_some hfound
    obtain ⟨f₁, k, f₂, hkids⟩ := Forest.exists_append_of_mem_roots hc
    have hbefore : ∀ b ∈ f₁.roots, b.node.key ≠ o.key := by
      have hnodup := h.nodup_keys hu
      rw [hkids, Forest.roots_append, List.map_append, List.nodup_append'] at hnodup
      intro b hb heq
      refine hnodup.2.2 (List.mem_map_of_mem hb) ?_
      rw [heq, ← hckey, Forest.roots_cons, List.map_cons]
      exact List.mem_cons_self
    have hspot : ⟨u.label :: u.above, c, k⟩ ∈ f.spots [] := by
      refine Forest.mem_spots_of_mem_spots hu ?_
      rw [hkids, Forest.mem_spots_append, Forest.mem_spots_cons]
      exact Or.inr (Or.inl rfl)
    have hsolid' : s.Solid (Spot.map DomEntry.item ⟨u.label :: u.above, c, k⟩) :=
      hsolid _ (hdoc ▸ mem_spots_item hspot) hparent hckey
    rw [hfound, ← hckey] at hfind
    refine (DomInsert.run_replace h hinj hsub hu hparent hm hkids hckey hbefore hfind
      (h.not_hollow hspot hsolid') hext hdata (hused m hm') hnodes).mono ?_
    rintro r ⟨a, kids, hdone⟩
    exact ⟨u, m, f₁, .cons c k .nil, f₂, a, kids,
      ⟨hdone, hu, hparent, hm', hkids, Or.inr ⟨c, k, rfl, hckey⟩⟩⟩
  | none =>
    have hnew : ∀ b ∈ u.kids.roots, b.node.key ≠ o.key := fun b hb heq =>
      List.find?_eq_none.mp hfound b hb (decide_eq_true heq)
    have hmap : u.label.node.value.type = .map := by
      rcases hplace with hmap | ⟨harray, index, hindex, hkey⟩
      · exact hmap
      · -- every index has its slot
        obtain ⟨hkeys, -⟩ := h.array_keys hu harray
        have hindex : index < u.kids.length := by rwa [Spot.map, Forest.length_map] at hindex
        have hmem : o.key ∈ u.kids.roots.map (·.node.key) := by
          rw [hkeys, hkey]
          exact List.mem_map_of_mem (List.mem_range.mpr hindex)
        obtain ⟨b, hb, heq⟩ := List.mem_map.mp hmem
        exact absurd heq (hnew b hb)
    rw [hfound] at hfind
    refine (DomInsert.run_add h hinj hsub hu hparent hmap hm hnew hfind hext hdata (hused m hm')
      hnodes).mono ?_
    rintro r ⟨a, kids, hdone⟩
    exact ⟨u, m, u.kids, .nil, .nil, a, kids, ⟨hdone, hu, hparent, hm', by simp, Or.inl rfl⟩⟩

/-- **An insertion that fits** makes the document its client expects. -/
theorem editStep_insert (h : s.Kept f) (hg : editMachine.guard s (.insert o)) (htakes : s.Takes o)
    (hinj : HashInjective (s.newKeys o ++ s.used)) :
    Returns (editStep s (.insert o)) fun s' => ∃ f', s'.Kept f' := by
  have hused : ∀ m, s.pack.node o.parent = some m → o.type.IsContainer →
      hierarchicalKey (vlHashMsgPackKey m.key) o.key ∈ s.newKeys o ++ s.used := by
    intro m hm _
    rw [DomState.newKeys_eq hm]
    exact List.mem_append_left _ List.mem_cons_self
  refine (DomInsert.run_spec h.holds h.doc hg hinj (List.subset_append_right _ _) hused h.short
    (fun m hm => h.apart _ m hm) htakes.nodes htakes.solid).bind ?_
  rintro r ⟨u, m, f₁, old, f₂, a, kids, hputs⟩
  exact returns_ok ⟨_, hputs.toDone.kept h htakes hputs.node⟩

/-- **A child of an array is removed** from the document. -/
theorem VlMsgPack.Holds.removeSlot {pack : VlMsgPack} {used : List (List UInt8)} {k : Forest DomEntry}
    (h : pack.Holds used f) (hinj : HashInjective used) (hu : u ∈ f.spots [])
    (harray : u.label.node.value.type = .array) (hm : pack.node u.label.iter = some m)
    (hkids : u.kids = f₁ ++ .cons c k f₂)
    (hnil : ∀ n, pack.node c.iter = some n → c.node.value.type = .nil → n.element.first = 0)
    (hleaf : ¬ c.node.value.type.IsLeaf) (hhollow : k.erase.hollow = false) :
    Returns (vlMsgPackRemove pack c.iter) fun pack' =>
      pack'.Holds used (f.setKids u.label.iter (f₁ ++ (.cons c.nulled .nil .nil ++ f₂))) ∧
        ∀ i n, pack'.node i = some n → ∃ j l, pack.node j = some l ∧ l.key = n.key := by
  obtain ⟨hash, prev, next, -, hsound, hput⟩ := h.child_spot hinj (List.Subset.refl _) hu hm hkids
  have hmade : c.nulled.node.value.Made .nil c.node.value.extType none 0
      (Forest.nil : Forest DomEntry).erase := ⟨rfl, rfl, rfl, rfl⟩
  refine (vlMsgPackRemove_array hsound harray hnil hleaf hhollow).mono ?_
  rintro pack' ⟨hsound', hbecomes, hkeeps⟩
  have hcontainer : VlMsgPackType.nil.IsContainer →
      hierarchicalKey (vlHashMsgPackKey m.key) c.node.key ∈ used := fun h => absurd h (by decide)
  obtain ⟨hholds, hkeys⟩ := hput pack' c.nulled .nil .nil _ none 0 hcontainer rfl hmade hsound' hbecomes
    hkeeps
  refine ⟨hholds, fun i n hn => ?_⟩
  rcases hkeys i n hn with ⟨l, hl, hlkey⟩ | hnew
  · exact ⟨i, l, hl, hlkey⟩
  · -- the slot keeps its key
    obtain ⟨e, he⟩ := h.child_node hu hm (show c ∈ u.kids.roots by simp [hkids])
    exact ⟨_, _, he, (List.mem_singleton.mp hnew).symm⟩

/-- The children of an array with the removed one, as their client knows them. -/
theorem dropChild_item (hnodup : (f₁ ++ .cons c k f₂).iters.Nodup) :
    dropChild .array c.iter ((f₁ ++ .cons c k f₂).map DomEntry.item) =
      (f₁ ++ (.cons c.nulled .nil .nil ++ f₂)).map DomEntry.item := by
  rw [dropChild, if_pos rfl, Forest.map_append, Forest.map_cons, Forest.setChild_replace]
  · rw [Forest.map_append]
    rfl
  · intro b hb
    rw [Forest.roots_map] at hb
    obtain ⟨b', hb', rfl⟩ := List.mem_map.mp hb
    rw [Forest.iters_append, List.nodup_append'] at hnodup
    refine decide_eq_false fun heq => hnodup.2.2 (Forest.mem_iters_of_mem_roots hb') ?_
    rw [Forest.iters_cons, show b'.iter = c.iter from heq]
    exact List.mem_cons_self
  · exact decide_eq_true rfl

/-- **A removal that fits** makes the document its client expects. -/
theorem editStep_remove {iter : ℕ} (h : s.Kept f) (hreleases : s.Releases iter)
    (hinj : HashInjective s.used) :
    Returns (editStep s (.remove iter)) fun s' => ∃ f', s'.Kept f' := by
  obtain ⟨t, ht, rfl, harray, hleaf, hnil, hsolid⟩ := hreleases
  rw [h.doc] at ht
  obtain ⟨v, hv, rfl⟩ := exists_spot_of_mem_item ht
  change Returns (editStep s (.remove v.label.iter)) _
  rcases Forest.exists_parent_spot hv with ⟨habove, -⟩ | ⟨u, hu, habove, f₁, f₂, hkids⟩
  · rw [Spot.map, habove] at harray
    cases harray
  rw [Spot.map, habove] at harray
  have harray : u.label.node.value.type = .array := Option.some_injective _ harray
  obtain ⟨m, hm⟩ := h.holds.node hu
  have hzero : ∀ n, s.pack.node v.label.iter = some n → v.label.node.value.type = .nil →
      n.element.first = 0 := by
    intro n hn htype
    have hfirst : (s.pack.sample v.label.iter).map VlMsgPackElement.first = .ok 0 := hnil htype
    rw [VlMsgPack.sample_eq hn] at hfirst
    exact Except.ok.inj hfirst
  obtain ⟨pack', hrun, hholds, hkeys⟩ := h.holds.removeSlot hinj hu harray hm hkids hzero hleaf
    (h.holds.not_hollow hv hsolid)
  have hparent : vlMsgPackParent s.pack v.label.iter = .ok u.label.iter := by
    have hshows := (h.holds.shows hinj hv).parent
    rwa [Spot.map, habove] at hshows
  have htype : vlMsgPackType s.pack u.label.iter = .ok .array := by
    rw [← harray]
    exact (h.holds.shows hinj hu).type
  have hdoc : s.doc.updateAt (fun a => a.iter = u.label.iter) (dropChild .array v.label.iter) =
      (f.setKids u.label.iter (f₁ ++ (.cons v.label.nulled .nil .nil ++ f₂))).map DomEntry.item := by
    obtain ⟨_, _, _, hsound, -⟩ := h.holds.spot hu
    have hnodup := hsound.proper.kids.nodup
    rw [hkids] at hnodup
    rw [h.doc]
    exact updateAt_item h.holds.nodup hu (hkids ▸ dropChild_item hnodup)
  refine ⟨⟨pack', _, s.used⟩, ?_, _, hdoc, hholds, fun i n hn => ?_, fun i n hn => ?_, fun i n hn => ?_⟩
  · rw [editStep, hparent, ok_bind, htype, ok_bind, hrun]
    rfl
  all_goals
    obtain ⟨j, l, hl, hkey⟩ := hkeys i n hn
    rw [← hkey]
  · exact h.used j l hl
  · exact h.short j l hl
  · exact h.apart j l hl

/-- **An operation that fits** makes the document its client expects. -/
theorem editStep_spec {e : DomEdit} (h : s.Kept f)
    (hg : (editMachine.restrict DomState.Fits).guard s e) (hinj : HashInjective (s.keys e)) :
    Returns (editStep s e) fun s' => ∃ f', s'.Kept f' := by
  cases e with
  | insert o => exact editStep_insert h hg.1 hg.2 hinj
  | remove iter => exact editStep_remove h hg.2 hinj

/-- The keys are used up to the end. -/
theorem editStep_used {s' : DomState} {e : DomEdit} (h : editStep s e = .ok s') :
    s'.used = s.keys e := by
  cases e with
  | insert o =>
    obtain ⟨r, -, h⟩ := exists_of_bind_eq_ok h
    obtain rfl := Except.ok.inj h
    rfl
  | remove iter =>
    obtain ⟨parent, -, h⟩ := exists_of_bind_eq_ok h
    obtain ⟨type, -, h⟩ := exists_of_bind_eq_ok h
    obtain ⟨pack, -, h⟩ := exists_of_bind_eq_ok h
    obtain rfl := Except.ok.inj h
    rfl

theorem DomState.used_subset_keys {e : DomEdit} : s.used ⊆ s.keys e := by
  cases e with
  | insert o => exact List.subset_append_right _ _
  | remove iter => exact List.Subset.refl _

end Kept

/-! ### Runs -/

/-- The first document. -/
theorem domInit_kept (nodePlace valuePlace : Placement) :
    Returns (domInit nodePlace valuePlace) fun s => ∃ f, s.Kept f := by
  refine (domInit_holds nodePlace valuePlace).mono fun s ⟨r, hdoc, hused, hkey, htype, hholds⟩ => ?_
  have hroot : ∀ i n, s.pack.node i = some n → n.key = vlMsgPackRootKey := by
    intro i n hn
    obtain rfl : i = r.iter := by simpa using hholds.known i n hn
    have hmem := hholds.used r (by simp) (Or.inl htype) n hn
    rwa [hused, List.mem_singleton] at hmem
  refine ⟨.cons r .nil .nil, hdoc, hholds, fun i n hn => ?_, fun i n hn => ?_, fun i n hn => ?_⟩ <;>
    rw [hroot i n hn]
  · rw [hused]
    exact List.mem_singleton_self _
  · decide
  · decide +kernel

/-- Every document that is reached by operations that fit is the one its client knows. -/
theorem editRun_kept {s s' : DomState} {es : List DomEdit}
    (hrun : (editMachine.restrict DomState.Fits).Run s es s') (hs : ∃ f, s.Kept f)
    (hinj : HashInjective s'.used) : ∃ f, s'.Kept f := by
  have hstep : ∀ s e s', (HashInjective s.used → ∃ f, s.Kept f) →
      (editMachine.restrict DomState.Fits).guard s e →
      (editMachine.restrict DomState.Fits).step s e = .ok s' → HashInjective s'.used →
      ∃ f, s'.Kept f := by
    intro s e s' ih hg hstep hinj
    have hinj' : HashInjective (s.keys e) := editStep_used hstep ▸ hinj
    obtain ⟨f, hf⟩ := ih (hinj'.mono DomState.used_subset_keys)
    exact (editStep_spec hf hg hinj').of_ok hstep
  exact hrun.invariant hstep (fun _ => hs) hinj

/-- **The document is a tree of ordered maps and arrays** over all runs of operations that fit, and the
next one that fits leaves one. -/
theorem vlMsgPack_refines (nodePlace valuePlace : Placement) (s₀ : DomState)
    (hinit : domInit nodePlace valuePlace = .ok s₀) (es : List DomEdit) (s : DomState)
    (hrun : (editMachine.restrict DomState.Fits).Run s₀ es s) (hinj : HashInjective s.used) :
    s.Exact ∧ ∀ e, (editMachine.restrict DomState.Fits).guard s e → HashInjective (s.keys e) →
      Returns (editMachine.step s e) DomState.Exact := by
  obtain ⟨f, hf⟩ := editRun_kept hrun ((domInit_kept nodePlace valuePlace).of_ok hinit) hinj
  refine ⟨hf.exact hinj, fun e hg hinj' => ?_⟩
  obtain ⟨s', hstep, f', hf'⟩ := editStep_spec hf hg hinj'
  exact ⟨s', hstep, hf'.exact (editStep_used hstep ▸ hinj')⟩

/-- A map with a leaf is put into the second slot of an array and removed, and the key of the array is
inserted again. -/
theorem vlMsgPack_refines_removed : ∃ s₀ s, domInit .bump .bump = .ok s₀ ∧
    (editMachine.restrict DomState.Fits).Run s₀
      [.insert ⟨.array, vlMsgPackExtNone, 1, [97], some (natToLE 4 2), 4⟩,
        .insert ⟨.map, vlMsgPackExtNone, 2, natToLE 4 1, none, 0⟩,
        .insert ⟨.binary, vlMsgPackExtNone, 4, [98], some [7, 8], 2⟩,
        .remove 4, .insert ⟨.map, vlMsgPackExtNone, 1, [97], none, 0⟩] s ∧
    HashInjective s.used ∧ s.Exact := by
  have hexec : ((domInit .bump .bump).toOption.any fun s₀ =>
      ((editMachine.restrict DomState.Fits).exec s₀
        [.insert ⟨.array, vlMsgPackExtNone, 1, [97], some (natToLE 4 2), 4⟩,
          .insert ⟨.map, vlMsgPackExtNone, 2, natToLE 4 1, none, 0⟩,
          .insert ⟨.binary, vlMsgPackExtNone, 4, [98], some [7, 8], 2⟩,
          .remove 4, .insert ⟨.map, vlMsgPackExtNone, 1, [97], none, 0⟩]).any
        fun s => decide (HashInjective s.used)) = true := by decide +kernel
  obtain ⟨s₀, hinit, hexec⟩ := (Option.any_eq_true _ _).mp hexec
  obtain ⟨s, hrun, hinj⟩ := Machine.exists_run_of_exec hexec
  have hinj := of_decide_eq_true hinj
  have hinit := eq_ok_of_toOption hinit
  exact ⟨s₀, s, hinit, hrun, hinj, (vlMsgPack_refines .bump .bump s₀ hinit _ s hrun hinj).1⟩

/-- **A child that is removed from a map is found under its key.** -/
theorem not_vlMsgPack_removed : ∃ s₀ s, domInit .bump .bump = .ok s₀ ∧
    editMachine.Run s₀ [.insert ⟨.map, vlMsgPackExtNone, 1, [97], none, 0⟩, .remove 2] s ∧
    HashInjective s.used ∧ ¬ s.Exact := by
  have hexec : ((domInit .bump .bump).toOption.any fun s₀ =>
      (editMachine.exec s₀ [.insert ⟨.map, vlMsgPackExtNone, 1, [97], none, 0⟩, .remove 2]).any fun s =>
        decide (HashInjective s.used ∧ (s.doc.spots []).any fun t =>
          (vlMsgPackFindChild s.pack t.label.iter [97]).map Prod.fst ≠
            .ok (((t.kids.roots.find? fun a => a.key = [97]).map DomItem.iter).getD 0))) = true := by
    decide +kernel
  obtain ⟨s₀, hinit, hexec⟩ := (Option.any_eq_true _ _).mp hexec
  obtain ⟨s, hrun, hfound⟩ := Machine.exists_run_of_exec hexec
  obtain ⟨hinj, hfound⟩ := of_decide_eq_true hfound
  obtain ⟨t, ht, hne⟩ := List.any_eq_true.mp hfound
  exact ⟨s₀, s, eq_ok_of_toOption hinit, hrun, hinj, fun h => of_decide_eq_true hne (h.finds t ht [97])⟩

end VeritableLasagna
