import VeritableLasagna.Dom.Reading

/-!
# A place in a document

The document around a place is a list of shells, and the table holds it filled with the children there
(`VlMsgPack.Open`). The hash of the parent follows from the keys of the frames (`ctxHash`). An insertion
that fits puts its tree among the children (`Open.insert`), and the place below the new node is open again.

When the decoder fails, it takes away the containers it has begun, from the inside to the outside. The
nodes it leaves in the table are none of the document any more, but the document is linked all the time
(`VlMsgPack.Torn`).
-/

namespace VeritableLasagna

open Forest

/-! ### Children by their keys -/

namespace Forest

variable {a c : DomNode} {f₁ f₂ k g ks : Forest DomNode} {key : List UInt8}

theorem place_append (h : ∀ b ∈ ks.roots, b.key ≠ a.key) : ks.place a k = ks ++ cons a k nil :=
  setChild_append fun b hb => decide_eq_false (h b hb)

theorem place_replace (h : ∀ b ∈ f₁.roots, b.key ≠ a.key) (hc : c.key = a.key) :
    (f₁ ++ cons c k f₂).place a g = f₁ ++ cons a g f₂ :=
  setChild_replace (fun b hb => decide_eq_false (h b hb)) (decide_eq_true hc)

theorem under_replace (h : ∀ b ∈ f₁.roots, b.key ≠ key) (hc : c.key = key) :
    (f₁ ++ cons c k f₂).under key = k := by
  induction f₁ with
  | nil => exact if_pos hc
  | cons b kids rest _ ih =>
    rw [roots_cons, List.forall_mem_cons] at h
    rw [cons_append, under, if_neg h.1, ih h.2]

theorem length_labels_slotsFrom {left curIdx : ℕ} : (slotsFrom left curIdx).labels.length = left := by
  induction left generalizing curIdx with
  | zero => rfl
  | succ left ih => rw [slotsFrom, labels_cons, labels_nil, List.nil_append, List.length_cons, ih]

/-- The hash of the nearest of the nodes above a place; of the parent of the root, if there is none. -/
def hashAbove (above : List DomEntry) : UInt64 :=
  above.foldr (fun a hash => a.node.hash hash) vlMsgPackRootHash

/-- The hash of the node above a place. -/
def ctxHash (ctx : List (Shell DomEntry)) : UInt64 := hashAbove (ctx.map Shell.label)

theorem ctxHash_cons {fr : Shell DomEntry} {ctx : List (Shell DomEntry)} : ctxHash (fr :: ctx) =
    vlHashMsgPackKey (hierarchicalKey (ctxHash ctx) fr.label.node.key) := rfl

end Forest

/-- There are as many nodes below a new node as it has slots. -/
theorem DomInsert.length_below (o : DomInsert) :
    o.below.labels.length = slotCount o.type o.data := by
  rw [below, slotCount]
  split_ifs
  · exact length_labels_slotsFrom
  · rfl

/-! ### Nodes that are taken away -/

/-- **No node is new**: what the table has now, it had before, under the same key. -/
def VlMsgPack.Shrinks (pack pack' : VlMsgPack) : Prop :=
  ∀ i n, pack'.node i = some n → ∃ m, pack.node i = some m ∧ m.key = n.key

namespace VlMsgPack.Shrinks

variable {pack pack₁ pack' : VlMsgPack} {iter : ℕ}

theorem refl (pack : VlMsgPack) : pack.Shrinks pack := fun _ n hn => ⟨n, hn, rfl⟩

theorem trans (h : pack.Shrinks pack₁) (h' : pack₁.Shrinks pack') : pack.Shrinks pack' := by
  intro i n hn
  obtain ⟨m, hm, hmkey⟩ := h' i n hn
  obtain ⟨l, hl, hlkey⟩ := h i m hm
  exact ⟨l, hl, hlkey.trans hmkey⟩

theorem modify {g : VlMsgPackElement → VlMsgPackElement} (h : pack.modify iter g = .ok pack') :
    pack.Shrinks pack' := by
  obtain ⟨nodes, hnodes, h⟩ := exists_of_bind_eq_ok h
  obtain ⟨node, -, hnodes⟩ := exists_of_bind_eq_ok hnodes
  obtain rfl := Except.ok.inj hnodes
  obtain rfl := Except.ok.inj h
  exact fun i n hn => node_of_edit hn

/-- A node is taken out of the table. The values do not matter. -/
theorem removeIter {nodes : VlNodeTable} (h : pack.nodes.removeIter iter = .ok nodes)
    (hnodes : pack'.nodes = nodes) : pack.Shrinks pack' := by
  obtain ⟨node, -, h⟩ := exists_of_bind_eq_ok h
  obtain rfl := Except.ok.inj h
  intro i n hn
  rw [VlMsgPack.node, hnodes] at hn
  rcases eq_or_ne i iter with rfl | hne
  · exact absurd (hn.symm.trans Store.get_erase_self) (Option.some_ne_none _)
  · exact ⟨n, (Store.get_erase_of_ne hne).symm.trans hn, rfl⟩

theorem of_nodes (h : pack'.nodes = pack.nodes) : pack.Shrinks pack' := fun i n hn =>
  ⟨n, by rwa [VlMsgPack.node, h] at hn, rfl⟩

theorem freeSlots {freeChildren : VlMsgPack → ℕ → Except Fault VlMsgPack}
    (hfree : ∀ {pack i pack'}, freeChildren pack i = .ok pack' → pack.Shrinks pack') {array left curIdx : ℕ}
    (h : vlMsgPackFreeSlots freeChildren array left curIdx pack = .ok pack') : pack.Shrinks pack' := by
  induction left generalizing curIdx pack with
  | zero =>
    obtain rfl := Except.ok.inj h
    exact refl _
  | succ left ih =>
    obtain ⟨i, -, h⟩ := exists_of_bind_eq_ok h
    obtain ⟨pack₁, h₁, h⟩ := exists_of_bind_eq_ok h
    obtain ⟨nodes, hnodes, h⟩ := exists_of_bind_eq_ok h
    obtain ⟨values, -, h⟩ := exists_of_bind_eq_ok h
    exact (hfree h₁).trans ((removeIter hnodes rfl).trans (ih h))

theorem freeLinks {freeChildren : VlMsgPack → ℕ → Except Fault VlMsgPack}
    (hfree : ∀ {pack i pack'}, freeChildren pack i = .ok pack' → pack.Shrinks pack') {rounds : ℕ}
    (h : vlMsgPackFreeLinks freeChildren rounds iter pack = .ok pack') : pack.Shrinks pack' := by
  induction rounds generalizing iter pack with
  | zero => cases h
  | succ rounds ih =>
    rw [vlMsgPackFreeLinks] at h
    split_ifs at h with hzero
    · obtain rfl := Except.ok.inj h
      exact refl _
    · obtain ⟨pack₁, h₁, h⟩ := exists_of_bind_eq_ok h
      obtain ⟨e, -, h⟩ := exists_of_bind_eq_ok h
      obtain ⟨nodes, hnodes, h⟩ := exists_of_bind_eq_ok h
      exact (hfree h₁).trans ((removeIter hnodes rfl).trans (ih h))

theorem freeChildren {rounds : ℕ} (h : vlMsgPackFreeChildren rounds pack iter = .ok pack') :
    pack.Shrinks pack' := by
  induction rounds generalizing pack iter pack' with
  | zero => cases h
  | succ rounds ih =>
    obtain ⟨e, -, h⟩ := exists_of_bind_eq_ok h
    cases htype : e.type <;> simp only [htype] at h
    case array => exact freeSlots ih h
    case map => exact freeLinks ih h
    all_goals
      obtain rfl := Except.ok.inj h
      exact of_nodes rfl

/-- **A removal** makes no node. -/
theorem remove (h : vlMsgPackRemove pack iter = .ok pack') : pack.Shrinks pack' := by
  have hset : ∀ {pack pack' : VlMsgPack} {c : Prop} [Decidable c] {i : ℕ}
      {g : VlMsgPackElement → VlMsgPackElement},
      (if c then pack.modify i g else .ok pack) = .ok pack' → pack.Shrinks pack' := by
    intro pack pack' c _ i g h
    split_ifs at h
    · exact modify h
    · exact of_nodes (congrArg VlMsgPack.nodes (Except.ok.inj h)).symm
  have hvalue : ∀ (pack : VlMsgPack) (ptr : ℕ),
      (if ptr ≠ 0 then { pack with values := pack.values.memFree ptr } else pack).nodes = pack.nodes := by
    intro pack ptr
    split_ifs <;> rfl
  obtain ⟨pack₁, h₁, h⟩ := exists_of_bind_eq_ok h
  obtain ⟨e, -, h⟩ := exists_of_bind_eq_ok h
  refine (freeChildren h₁).trans ?_
  dsimp only at h
  by_cases hparent : e.parent = 0
  · rw [if_pos hparent] at h
    exact of_nodes (congrArg VlMsgPack.nodes (Except.ok.inj h)).symm
  rw [if_neg hparent] at h
  generalize hptr : (if e.type = .map then 0 else e.first) = ptr at h
  refine (of_nodes (hvalue pack₁ ptr)).trans ?_
  generalize (if ptr ≠ 0 then { pack₁ with values := pack₁.values.memFree ptr } else pack₁) = pack₂ at h ⊢
  obtain ⟨p, -, h⟩ := exists_of_bind_eq_ok h
  cases htype : p.type <;> simp only [htype] at h
  case array => exact modify h
  case map =>
    by_cases htotal : (p.totalChildren + (2 ^ 32 - 1)) % 2 ^ 32 = 0
    · rw [if_pos htotal] at h
      exact modify h
    · rw [if_neg htotal] at h
      obtain ⟨pack₃, h₃, h⟩ := exists_of_bind_eq_ok h
      obtain ⟨pack₄, h₄, h⟩ := exists_of_bind_eq_ok h
      exact (modify h₃).trans ((hset h₄).trans (hset h))
  all_goals exact of_nodes (congrArg VlMsgPack.nodes (Except.ok.inj h)).symm

end VlMsgPack.Shrinks

/-! ### The place -/

section Place

variable {pack pack' : VlMsgPack} {parent prev next : ℕ} {hash : UInt64} {fr : Shell DomEntry}
  {ctx : List (Shell DomEntry)} {ks : Forest DomEntry} {used : List (List UInt8)} {o : DomInsert}

/-- **What is in a place is linked** below the node above it. -/
theorem DomLinked.focus {x y : ℕ} (h : DomLinked pack 0 vlMsgPackRootHash x y (fill ctx ks)) :
    ∃ prev next, DomLinked pack (iterAbove (ctx.map Shell.label)) (ctxHash ctx) prev next ks := by
  induction ctx generalizing ks with
  | nil => exact ⟨x, y, h⟩
  | cons fr ctx ih =>
    obtain ⟨prev, next, hlinked⟩ := ih h
    obtain ⟨-, hbehind⟩ := domLinked_append.mp hlinked
    obtain ⟨hcons, -⟩ := domLinked_append.mp hbehind
    obtain ⟨-, hkids, -⟩ := domLinked_cons.mp hcons
    exact ⟨0, 0, hkids⟩

/-- The node above a place. -/
theorem DomLinked.frame {x y : ℕ} (h : DomLinked pack 0 vlMsgPackRootHash x y (fill (fr :: ctx) ks)) :
    ∃ e, pack.node fr.label.iter = some ⟨hierarchicalKey (ctxHash ctx) fr.label.node.key, e⟩ ∧
      e.type = fr.label.node.value.type := by
  have hwhole : DomLinked pack 0 vlMsgPackRootHash x y (fill ctx (fr.fill ks)) := h
  obtain ⟨prev, next, hlinked⟩ := hwhole.focus
  obtain ⟨-, hbehind⟩ := domLinked_append.mp hlinked
  obtain ⟨hcons, -⟩ := domLinked_append.mp hbehind
  obtain ⟨⟨e, he⟩, -, -⟩ := domLinked_cons.mp hcons
  exact ⟨e, he.get, he.type⟩

/-- **The table holds the document**, its keys fit their sizes, and the hash tells the keys `used` of the
containers apart. -/
structure VlMsgPack.Open (pack : VlMsgPack) (used : List (List UInt8)) (f : Forest DomEntry) : Prop where
  holds : pack.Holds used f
  short : ∀ i n, pack.node i = some n → n.key.length < 2 ^ 16
  distinguished : Distinguished used

theorem VlMsgPack.Open.frame (h : pack.Open used (fill (fr :: ctx) ks)) :
    ∃ e, pack.node fr.label.iter = some ⟨hierarchicalKey (ctxHash ctx) fr.label.node.key, e⟩ ∧
      e.type = fr.label.node.value.type := by
  obtain ⟨_, _, hsound⟩ := h.holds.sound
  exact hsound.linked.frame

/-- **A key finds a child**, or nothing. -/
theorem VlMsgPack.Open.find (h : pack.Open used (fill (fr :: ctx) ks))
    (hcontainer : fr.label.node.value.type.IsContainer) (key : List UInt8) :
    pack.nodes.find (hierarchicalKey (ctxHash (fr :: ctx)) key) =
      ((ks.roots.find? fun a => a.node.key = key).map DomEntry.iter).getD 0 := by
  obtain ⟨m, hm, hmkey⟩ : ∃ m, pack.node fr.label.iter = some m ∧
      m.key = hierarchicalKey (ctxHash ctx) fr.label.node.key := by
    obtain ⟨e, hm, -⟩ := h.frame
    exact ⟨_, hm, rfl⟩
  have hspot : ⟨ctx.map Shell.label ++ [], fr.label, ks⟩ ∈ (fill (fr :: ctx) ks).spots [] :=
    mem_spots_fill
  have hmem : m.key ∈ used := h.holds.used _ (label_mem_of_mem_spots hspot) hcontainer m hm
  rw [ctxHash_cons, ← hmkey]
  exact h.holds.find_child h.distinguished.1 hspot hm hmem h.short (h.distinguished.2 _ hmem)

/-- The place below a node that is a container. -/
def Forest.ctxPlace (fr : Shell DomEntry) (ctx : List (Shell DomEntry)) : DomPlace :=
  ⟨ctxHash (fr :: ctx), decide (fr.label.node.value.type = .array),
    (fill (fr :: ctx) nil).labels.length⟩

/-- The place below a new node. -/
theorem ctxPlace_below {new : Shell DomEntry} (hnode : new.label.node = o.node)
    (hfill : ∀ g, (new.fill g).erase = ks.erase.place o.node g.erase) :
    (ctxPlace fr ctx).below ks.erase o = ctxPlace new (fr :: ctx) := by
  have hlength : (fill (new :: fr :: ctx) nil).labels.length =
      (fill (fr :: ctx) nil).labels.length + (ks.erase.place o.node nil).labels.length := by
    rw [fill_cons, length_labels_fill, ← erase_nil, ← hfill, erase, labels_map, List.length_map]
  have hhash : ctxHash (new :: fr :: ctx) = o.node.hash (ctxHash (fr :: ctx)) := by
    rw [← hnode]
    rfl
  rw [ctxPlace, ctxPlace, DomPlace.below, hlength, hnode, hhash]
  rfl

/-- What is made of the insertion, is the node it asks for. -/
theorem DomInsert.node_eq {a : DomEntry} {kids : Forest DomEntry} (hkey : a.node.key = o.key)
    (hmade : a.node.value.Made o.type o.extType o.data o.dataLen kids.erase)
    (hdata : o.type.IsLeaf → o.data ≠ none) : a.node = o.node ∧ kids.erase = o.below := by
  refine ⟨?_, hmade.kids_eq⟩
  have hpayload : a.node.value.payload = o.node.value.payload := by
    have hpayload := hmade.payload_eq
    rw [DomInsert.node]
    split_ifs at hpayload ⊢ with hleaf
    · obtain ⟨src, hsrc⟩ := Option.ne_none_iff_exists'.mp (hdata hleaf)
      rw [hpayload.2 src hsrc, hsrc, Option.getD_some]
    · exact hpayload
  have hvalue : a.node.value = o.node.value := by
    cases hvalue : a.node.value with
    | mk type extType payload =>
      rw [hvalue] at hmade hpayload
      obtain rfl := hmade.type_eq
      obtain rfl := hmade.extType_eq
      obtain rfl := hpayload
      rfl
  cases hnode : a.node with
  | mk key value =>
    rw [hnode] at hkey hvalue
    obtain rfl := hkey
    obtain rfl := hvalue
    rfl

/-- **An insertion that fits** puts its tree among the children, and opens the place below its node. -/
theorem VlMsgPack.Open.insert (h : pack.Open used (fill (fr :: ctx) ks))
    (hcontainer : fr.label.node.value.type.IsContainer) (htakes : (ctxPlace fr ctx).Takes used ks.erase o)
    (haccepted : Accepted o.type o.extType) (hfits : DataFits o.type o.data o.dataLen)
    (hdata : o.type.IsLeaf → o.data ≠ none) (hparent : o.parent = fr.label.iter) :
    Returns (o.apply pack) fun r => ∃ new k, new.label.iter = r.1 ∧ new.label.node = o.node ∧
      k.erase = o.below ∧ (∀ g, (new.fill g).erase = ks.erase.place o.node g.erase) ∧
      r.2.Open used (fill (new :: fr :: ctx) k) ∧
      (o.key ∉ ks.roots.map (·.node.key) → new.before = ks ∧ new.behind = nil) := by
  obtain ⟨hshort, hslot, hused, hhollow, hroom⟩ := htakes
  obtain ⟨e, hm, -⟩ := h.frame
  have hspot : ⟨ctx.map Shell.label ++ [], fr.label, ks⟩ ∈ (fill (fr :: ctx) ks).spots [] :=
    mem_spots_fill
  have hset : ∀ g, (fill (fr :: ctx) ks).setKids fr.label.iter g = fill (fr :: ctx) g := fun g =>
    updateAt_fill h.holds.nodup
  have hinj := h.distinguished.1
  have hfind := h.find hcontainer o.key
  have htotal := h.holds.total
  rw [length_labels_fill] at htotal
  -- what an insertion leaves behind
  have hopen : ∀ {pack' : VlMsgPack} {new : Shell DomEntry} {k : Forest DomEntry},
      pack'.Holds used ((fill (fr :: ctx) ks).setKids fr.label.iter (new.fill k)) →
      (∀ i n, pack'.node i = some n → (∃ l, pack.node i = some l ∧ l.key = n.key) ∨
        n.key ∈ insertedKeys o.type o.data (hierarchicalKey (ctxHash (fr :: ctx)) o.key)) →
      pack'.Open used (fill (new :: fr :: ctx) k) := by
    intro pack' new k hholds hkeys
    rw [hset] at hholds
    refine ⟨hholds, fun i n hn => ?_, h.distinguished⟩
    rcases hkeys i n hn with ⟨l, hl, hlkey⟩ | hnew
    · exact hlkey ▸ h.short i l hl
    · exact length_of_mem_insertedKeys hshort hnew
  cases hfound : ks.roots.find? fun a => a.node.key = o.key with
  | some c =>
    have hc := List.mem_of_find?_eq_some hfound
    have hckey : c.node.key = o.key := by simpa using List.find?_some hfound
    obtain ⟨f₁, k, f₂, rfl⟩ := exists_append_of_mem_roots hc
    have hbefore : ∀ b ∈ f₁.erase.roots, b.key ≠ o.key := by
      have hnodup := h.holds.nodup_keys hspot
      rw [roots_append, List.map_append, List.nodup_append'] at hnodup
      intro b hb heq
      rw [erase, roots_map] at hb
      obtain ⟨b', hb', rfl⟩ := List.mem_map.mp hb
      refine hnodup.2.2 (List.mem_map_of_mem hb') ?_
      rw [heq, ← hckey, roots_cons, List.map_cons]
      exact List.mem_cons_self
    have hplace : ∀ g, (f₁ ++ cons c k f₂).erase.place o.node g = f₁.erase ++ cons o.node g f₂.erase :=
      fun g => by rw [erase_append, erase_cons, place_replace hbefore hckey]
    rw [erase_append, erase_cons, under_replace hbefore hckey] at hhollow
    rw [hplace] at hroom
    simp only [ctxPlace, labels_append, labels_cons, List.length_append, List.length_cons, erase,
      labels_map, List.length_map, o.length_below] at hroom htotal
    rw [hfound, ← hckey] at hfind
    have hlimit : pack.total + slotCount o.type o.data ≤ VlNodeTable.limit + k.iters.length := by
      rw [iters, List.length_map]
      omega
    obtain ⟨r, hrun, hr, a, kids, haiter, hakey, hmade, hholds, hkeys⟩ := h.holds.replace hinj
      (List.Subset.refl _) hspot hm rfl hfind hhollow haccepted hfits (hckey ▸ hused) hlimit
    obtain ⟨hnode, hbelow⟩ := DomInsert.node_eq (hakey.trans hckey) hmade hdata
    refine ⟨r, ?_, ⟨f₁, a, f₂⟩, kids, haiter.trans hr.symm, hnode, hbelow, fun g => ?_,
      hopen hholds (hckey ▸ hkeys), fun hnew => absurd (List.mem_map.mpr ⟨c, hc, hckey⟩) hnew⟩
    · rw [DomInsert.apply, hparent, ← hckey]
      exact hrun
    · rw [hplace, ← hnode, Shell.fill, erase_append, erase_append, erase_cons]
      rfl
  | none =>
    have hnew : ∀ b ∈ ks.roots, b.node.key ≠ o.key := fun b hb heq =>
      List.find?_eq_none.mp hfound b hb (decide_eq_true heq)
    have hkey : o.key ∉ ks.roots.map (·.node.key) := fun hin => by
      obtain ⟨b, hb, heq⟩ := List.mem_map.mp hin
      exact hnew b hb heq
    have hmap : fr.label.node.value.type = .map := by
      refine hcontainer.resolve_right fun harray => ?_
      -- every element of an array has its slot
      have hin := hslot (decide_eq_true harray)
      rw [erase, roots_map, List.map_map] at hin
      exact hkey hin
    have hplace : ∀ g, ks.erase.place o.node g = ks.erase ++ cons o.node g nil := fun g => by
      refine place_append fun b hb => ?_
      rw [erase, roots_map] at hb
      obtain ⟨b', hb', rfl⟩ := List.mem_map.mp hb
      exact hnew b' hb'
    rw [hplace] at hroom
    simp only [ctxPlace, labels_append, labels_cons, labels_nil, List.append_nil, List.length_append,
      List.length_cons, erase, labels_map, List.length_map, o.length_below] at hroom
    rw [hfound] at hfind
    have hlimit : pack.total + 1 + slotCount o.type o.data ≤ VlNodeTable.limit := by omega
    obtain ⟨r, hrun, a, kids, hr, hakey, hmade, hholds, hkeys⟩ := h.holds.add hinj
      (List.Subset.refl _) hspot hmap hm hkey hfind haccepted hfits hused hlimit
    obtain ⟨hnode, hbelow⟩ := DomInsert.node_eq hakey hmade hdata
    refine ⟨r, ?_, ⟨ks, a, nil⟩, kids, hr.symm, hnode, hbelow, fun g => ?_, hopen hholds hkeys,
      fun _ => ⟨rfl, rfl⟩⟩
    · rw [DomInsert.apply, hparent]
      exact hrun
    · rw [hplace, ← hnode, Shell.fill, erase_append, erase_append, erase_cons]
      rfl

/-! ### Taking back -/

/-- **The document is linked**, but the table may hold other nodes. -/
structure VlMsgPack.Torn (pack : VlMsgPack) (f : Forest DomEntry) : Prop where
  linked : ∃ prev next, DomLinked pack 0 vlMsgPackRootHash prev next f
  proper : f.Proper

theorem VlMsgPack.Open.torn {f : Forest DomEntry} (h : pack.Open used f) : pack.Torn f := by
  obtain ⟨prev, next, hsound⟩ := h.holds.sound
  exact ⟨⟨prev, next, hsound.linked⟩, hsound.proper⟩

/-- The children of a node without one of them: a map loses it, and in an array it is a `NIL`. -/
def Forest.Shell.without (new : Shell DomEntry) (type : VlMsgPackType) : Forest DomEntry :=
  if type = .array then new.before ++ cons new.label.nulled nil new.behind else new.before ++ new.behind

/-- **A container is taken away** from its parent. The table keeps its node, under its key. -/
theorem VlMsgPack.Torn.remove {new : Shell DomEntry} (h : pack.Torn (fill (new :: fr :: ctx) ks))
    (hnew : new.label.node.value.type.IsContainer) (htype : fr.label.node.value.type.IsContainer) :
    Returns (vlMsgPackRemove pack new.label.iter) fun pack' =>
      pack'.Torn (fill (fr :: ctx) (new.without fr.label.node.value.type)) ∧ pack.Shrinks pack' ∧
      ∃ e, pack'.node new.label.iter =
        some ⟨hierarchicalKey (ctxHash (fr :: ctx)) new.label.node.key, e⟩ := by
  suffices hrun : Returns (vlMsgPackRemove pack new.label.iter) fun pack' =>
      pack'.Torn (fill (fr :: ctx) (new.without fr.label.node.value.type)) ∧
      ∃ e, pack'.node new.label.iter =
        some ⟨hierarchicalKey (ctxHash (fr :: ctx)) new.label.node.key, e⟩ by
    obtain ⟨pack', hrun, htorn, hfound⟩ := hrun
    exact ⟨pack', hrun, htorn, .remove hrun, hfound⟩
  obtain ⟨⟨x, y, hlinked⟩, hproper⟩ := h
  have hlinked : DomLinked pack 0 vlMsgPackRootHash x y (fill (fr :: ctx) (new.fill ks)) := hlinked
  have hproper : (fill (fr :: ctx) (new.fill ks)).Proper := hproper
  obtain ⟨e, hnode, -⟩ := hlinked.frame
  have hspot : ⟨ctx.map Shell.label ++ [], fr.label, new.fill ks⟩ ∈
      (fill (fr :: ctx) (new.fill ks)).spots [] := mem_spots_fill
  obtain ⟨hash, prev, next, hlocal, hproper', hchange⟩ :=
    hlinked.change hproper (show 0 = iterAbove [] from rfl) hspot
  obtain ⟨⟨e', he⟩, -, -⟩ := domLinked_cons.mp hlocal
  have hsome := Option.some_injective _ (he.get.symm.trans hnode)
  obtain rfl : hash = ctxHash ctx := (hierarchicalKey_inj (congrArg VlMsgPackNode.key hsome)).1
  have hnil : ∀ n, pack.node new.label.iter = some n → new.label.node.value.type = .nil →
      n.element.first = 0 := by
    intro n _ hnil
    rw [hnil] at hnew
    exact absurd hnew (by decide)
  have htorn : ∀ {pack' g}, pack.Evolves pack' (cons fr.label (new.fill ks) nil) (cons fr.label g nil) →
      DomLinked pack' (iterAbove (ctx.map Shell.label ++ [])) (ctxHash ctx) prev next
        (cons fr.label g nil) → (cons fr.label g nil).Proper → pack'.Torn (fill (fr :: ctx) g) := by
    intro pack' g hev hg hproper''
    obtain ⟨hwhole, hwhole', -⟩ := hchange pack' g hev hg hproper''
    have hset : (fill (fr :: ctx) (new.fill ks)).setKids fr.label.iter g = fill (fr :: ctx) g :=
      updateAt_fill hproper.nodup
    rw [hset] at hwhole hwhole'
    exact ⟨⟨x, y, hwhole⟩, hwhole'⟩
  rcases htype with hmap | harray
  · rw [Shell.without, if_neg (by rw [hmap]; decide)]
    refine (vlMsgPackRemove_map hlocal hproper' hmap hnil).mono ?_
    rintro pack' ⟨hlinked', hproper'', hev, hkept⟩
    exact ⟨htorn hev hlinked' hproper'', hkept⟩
  · rw [Shell.without, if_pos harray]
    refine (vlMsgPackRemove_slot hlocal hproper' harray hnil).mono ?_
    rintro pack' ⟨hlinked', hproper'', hbecomes, hkept, -⟩
    exact ⟨htorn (hbecomes.toEvolves.around around_replace) hlinked' hproper'', hkept⟩

end Place

end VeritableLasagna
