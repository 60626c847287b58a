import VeritableLasagna.Dom.Insertion

/-!
# What a client sees of a document

A client of a document knows the forest of its nodes, each by its iterator, its key and its type. It
inserts new keys into maps, and overwrites the children of arrays under their indices. `s.Right` says
that the document shows this forest: the links list the children of a node forwards and backwards, and
the index of a slot finds the child there.

A new array comes with a `NIL` in every slot, which the client lists along the links. Overwriting a
child changes its type, and nothing else that the client knows of the array.
-/

namespace VeritableLasagna

/-! ### The forest a client knows -/

/-- What a client knows of a node. -/
structure DomItem where
  iter : ℕ
  key : List UInt8
  type : VlMsgPackType
  deriving DecidableEq

/-- What a client knows of an entry. -/
def DomEntry.item (a : DomEntry) : DomItem := ⟨a.iter, a.node.key, a.node.value.type⟩

/-- The parent of a node, by what is above it. -/
def parentIter (above : List DomItem) : ℕ := (above.head?.map DomItem.iter).getD 0

/-- The iterators along a link, from one on. -/
def iterateLink (link : ℕ → Except Fault ℕ) : ℕ → ℕ → Except Fault (List ℕ)
  | 0, _ => .error .noReturn
  | rounds + 1, iter =>
    if iter = 0 then .ok []
    else do
      let sibling ← link iter
      let rest ← iterateLink link rounds sibling
      return iter :: rest

/-- The children of a node, from `vlMsgPackFirstChild` on by `vlMsgPackNextSibling`. -/
def listChildren (pack : VlMsgPack) (iter : ℕ) : Except Fault (List ℕ) := do
  let first ← vlMsgPackFirstChild pack iter
  iterateLink (vlMsgPackNextSibling pack) pack.rounds first

/-- **The document shows a node** in its place, with its children. -/
structure VlMsgPack.Shows (pack : VlMsgPack) (t : Spot DomItem) : Prop where
  type : vlMsgPackType pack t.label.iter = .ok t.label.type
  parent : vlMsgPackParent pack t.label.iter = .ok (parentIter t.above)
  totalChildren : vlMsgPackTotalChildren pack t.label.iter = .ok t.kids.length
  forwards : listChildren pack t.label.iter = .ok (t.kids.roots.map DomItem.iter)
  backwards : iterateLink (vlMsgPackPrevSibling pack) pack.rounds
    ((t.kids.roots.map DomItem.iter).getLastD 0) = .ok (t.kids.roots.map DomItem.iter).reverse
  indexed : t.label.type = .array → ∀ index, index < 2 ^ 32 →
    vlMsgPackFindChildIndexed pack t.label.iter index =
      .ok ((t.kids.roots[index]?.map DomItem.iter).getD 0)

/-- A document, the forest its client knows, and the keys of the containers it has had. -/
structure DomState where
  pack : VlMsgPack
  doc : Forest DomItem
  used : List (List UInt8)

/-- **The document shows what its client knows**: every node in its place, and no iterator twice. -/
structure DomState.Right (s : DomState) : Prop where
  nodup : (s.doc.labels.map DomItem.iter).Nodup
  valid : ∀ a ∈ s.doc.labels, a.iter ≠ 0
  shows : ∀ t ∈ s.doc.spots [], s.pack.Shows t

/-! ### The operations -/

/-- The arguments of `vlMsgPackInsertExt`. -/
structure DomInsert where
  type : VlMsgPackType
  extType : ℤ
  parent : ℕ
  key : List UInt8
  data : Option (List UInt8)
  dataLen : ℕ

/-- The slots of a new array, from an index on, by their iterators. -/
def slotItems : ℕ → ℕ → List ℕ → Forest DomItem
  | 0, _, _ => .nil
  | left + 1, curIdx, iters =>
    .cons ⟨iters.headD 0, natToLE 4 curIdx, .nil⟩ .nil (slotItems left (curIdx + 1) iters.tail)

/-- The children with the inserted node, whose iterator is `iter` and whose slots have the iterators
`slots`. A child with the key keeps its iterator and its place. -/
def DomInsert.placed (o : DomInsert) (iter : ℕ) (slots : List ℕ) (kids : Forest DomItem) :
    Forest DomItem :=
  kids.setChild (fun a => a.key = o.key) (fun a => { a with type := o.type })
    ⟨iter, o.key, o.type⟩ (slotItems (slotCount o.type o.data) 0 slots)

/-- The forest with the inserted node. -/
def DomInsert.applied (o : DomInsert) (iter : ℕ) (slots : List ℕ) (doc : Forest DomItem) :
    Forest DomItem :=
  doc.updateAt (fun a => a.iter = o.parent) (o.placed iter slots)

namespace DomState

/-- The keys of the containers, with that of a new one. -/
def uses (s : DomState) (o : DomInsert) : List (List UInt8) :=
  match s.pack.keyHash o.parent with
  | .ok hash => if o.type.IsContainer then hierarchicalKey hash o.key :: s.used else s.used
  | .error _ => s.used

/-- **A new key of a map.** A leaf with no bytes is not put below an array. -/
def Adds (s : DomState) (o : DomInsert) : Prop :=
  ∃ t ∈ s.doc.spots [], t.label.iter = o.parent ∧ t.label.type = .map ∧
    o.key ∉ t.kids.roots.map DomItem.key ∧
    (o.type.IsLeaf → o.dataLen = 0 → ∀ a ∈ t.above, a.type ≠ .array)

/-- **A child of an array**, by its index. It is not overwritten by a leaf with no bytes. -/
def Overwrites (s : DomState) (o : DomInsert) : Prop :=
  ∃ t ∈ s.doc.spots [], t.label.iter = o.parent ∧ t.label.type = .array ∧
    (∃ index, index < t.kids.length ∧ o.key = natToLE 4 index) ∧ (o.type.IsLeaf → o.dataLen ≠ 0)

/-- **There is room for the insertion**: the table never has more nodes than it can, and under a new key
it finds nothing, which a key that does not fit its size could make it find. -/
structure Roomy (s : DomState) (o : DomInsert) : Prop where
  nodes : (o.applied 0 [] s.doc).labels.length ≤ VlNodeTable.limit
  unfound : s.Adds o → (vlMsgPackFindChild s.pack o.parent o.key).map Prod.fst = .ok 0

end DomState

instance {keys : List (List UInt8)} : Decidable (HashInjective keys) :=
  decidable_of_iff (∀ k ∈ keys, ∀ k' ∈ keys, vlHashMsgPackKey k = vlHashMsgPackKey k' → k = k')
    ⟨fun h _ hk _ hk' => h _ hk _ hk', fun h _ hk _ hk' => h hk hk'⟩

instance {type : VlMsgPackType} {data : Option (List UInt8)} {dataLen : ℕ} :
    Decidable (DataFits type data dataLen) :=
  decidable_of_iff ((type.IsLeaf → ∀ src ∈ data.toList, dataLen ≤ src.length) ∧
    (type = .array → data ≠ none)) (by simp [DataFits])

instance instDecidableInsertAdds {s : DomState} {o : DomInsert} : Decidable (s.Adds o) :=
  inferInstanceAs (Decidable (∃ t ∈ s.doc.spots [], _))

instance instDecidableInsertOverwrites {s : DomState} {o : DomInsert} : Decidable (s.Overwrites o) :=
  inferInstanceAs (Decidable (∃ t ∈ s.doc.spots [], _))

instance instDecidableInsertRoomy {s : DomState} {o : DomInsert} : Decidable (s.Roomy o) :=
  decidable_of_iff (_ ∧ (s.Adds o → (vlMsgPackFindChild s.pack o.parent o.key).map Prod.fst = .ok 0))
    ⟨fun h => ⟨h.1, h.2⟩, fun h => ⟨h.nodes, h.unfound⟩⟩

/-- `vlMsgPackInit`. -/
def domInit (nodePlace valuePlace : Placement) : Except Fault DomState := do
  let pack ← vlMsgPackInit nodePlace valuePlace
  return ⟨pack, .cons ⟨pack.root, vlMsgPackRootString, .map⟩ .nil .nil, [vlMsgPackRootKey]⟩

/-- `vlMsgPackInsertExt`. The client then lists the slots of the node. -/
def DomInsert.run (o : DomInsert) (pack : VlMsgPack) : Except Fault (ℕ × List ℕ × VlMsgPack) := do
  let (iter, pack) ← vlMsgPackInsertExt pack o.type o.extType o.parent o.key o.data o.dataLen
  let slots ← listChildren pack iter
  return (iter, slots, pack)

/-- An insertion, as the client follows it. -/
def domStep (s : DomState) (o : DomInsert) : Except Fault DomState := do
  let (iter, slots, pack) ← o.run s.pack
  return ⟨pack, o.applied iter slots s.doc, s.uses o⟩

/-- The document under insertions: of what can be read, and where the client may. -/
def domMachine : Machine DomState DomInsert where
  guard s o := Accepted o.type o.extType ∧ DataFits o.type o.data o.dataLen ∧ (s.Adds o ∨ s.Overwrites o)
  step := domStep

instance {s : DomState} {o : DomInsert} :
    Decidable ((domMachine.restrict DomState.Roomy).guard s o) :=
  inferInstanceAs (Decidable ((_ ∧ _ ∧ (s.Adds o ∨ s.Overwrites o)) ∧ s.Roomy o))

/-! ### The links -/

section Links

variable {pack : VlMsgPack} {parent prev next : ℕ} {hash : UInt64} {f : Forest DomEntry}

theorem nextSibling_eq {i : ℕ} {n : VlMsgPackNode} (hn : pack.node i = some n) :
    vlMsgPackNextSibling pack i = .ok n.element.nextSibling := by
  rw [vlMsgPackNextSibling, VlMsgPack.sample_eq hn]
  rfl

theorem prevSibling_eq {i : ℕ} {n : VlMsgPackNode} (hn : pack.node i = some n) :
    vlMsgPackPrevSibling pack i = .ok n.element.prevSibling := by
  rw [vlMsgPackPrevSibling, VlMsgPack.sample_eq hn]
  rfl

/-- One round along a link. -/
theorem iterateLink_succ {link : ℕ → Except Fault ℕ} {rounds i j : ℕ} {is : List ℕ} (hi : i ≠ 0)
    (hlink : link i = .ok j) (hrest : iterateLink link rounds j = .ok is) :
    iterateLink link (rounds + 1) i = .ok (i :: is) := by
  rw [iterateLink, if_neg hi, hlink, ok_bind, hrest]
  rfl

/-- **The siblings forwards.** -/
theorem DomLinked.forwards (h : DomLinked pack parent hash prev 0 f) (rounds : ℕ) :
    iterateLink (vlMsgPackNextSibling pack) (f.length + (rounds + 1)) (f.firstIter 0) =
      .ok (f.roots.map DomEntry.iter) := by
  induction f generalizing prev with
  | nil => exact (congrArg (iterateLink _ · 0) (Nat.zero_add _)).trans (if_pos rfl)
  | cons a kids rest _ ih =>
    obtain ⟨⟨e, he⟩, -, hrest⟩ := h
    have hnext : vlMsgPackNextSibling pack a.iter = .ok (rest.firstIter 0) :=
      (nextSibling_eq he.get).trans (congrArg _ he.next)
    rw [Forest.length_cons, Nat.succ_add, Forest.firstIter_cons]
    exact iterateLink_succ (Store.ne_zero_of_get he.get) hnext (ih hrest)

/-- **The siblings backwards**, down to those before them. -/
theorem DomLinked.backwards (h : DomLinked pack parent hash prev next f) {rounds : ℕ} {is : List ℕ}
    (hprev : iterateLink (vlMsgPackPrevSibling pack) rounds prev = .ok is) :
    iterateLink (vlMsgPackPrevSibling pack) (f.length + rounds) (f.lastIter prev) =
      .ok ((f.roots.map DomEntry.iter).reverse ++ is) := by
  induction f generalizing prev rounds is with
  | nil => rwa [Forest.length_nil, Nat.zero_add]
  | cons a kids rest _ ih =>
    obtain ⟨⟨e, he⟩, -, hrest⟩ := h
    have hback : vlMsgPackPrevSibling pack a.iter = .ok prev :=
      (prevSibling_eq he.get).trans (congrArg _ he.prev)
    have hrest' := ih hrest (iterateLink_succ (Store.ne_zero_of_get he.get) hback hprev)
    rw [Forest.length_cons, Forest.lastIter_cons, Nat.succ_add_eq_add_succ, hrest', Forest.roots_cons,
      List.map_cons, List.reverse_cons, List.append_assoc]
    rfl

theorem Forest.lastIter_eq {d : ℕ} : f.lastIter d = (f.roots.map DomEntry.iter).getLastD d := by
  induction f generalizing d with
  | nil => rfl
  | cons a kids rest _ ih =>
    rw [lastIter_cons, ih, roots_cons, List.map_cons, List.getLastD_cons]

theorem Forest.firstIter_eq : f.firstIter 0 = (f.roots[0]?.map DomEntry.iter).getD 0 := by
  cases f <;> rfl

end Links

end VeritableLasagna
