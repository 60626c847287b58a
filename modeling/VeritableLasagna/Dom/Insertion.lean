import VeritableLasagna.Dom.Document

/-!
# Inserting into a document

An insertion puts a new tree among the children of a node, in the place of an old one: the tree of the
child that is overwritten, or nothing. The table holds the document with the new tree (`Holds.inserted`),
as long as the key of the new node, and all keys behind its hash, belong to the old tree. Both follow
from the hash being injective on the keys of the containers, so a child that its key finds is overwritten
in its place (`Holds.replace`) and a new key of a map gets a node behind the others (`Holds.add`).
-/

namespace VeritableLasagna

section NewTree

variable {pack : VlMsgPack} {type : VlMsgPackType} {extType : ℤ} {parent prev next dataLen i : ℕ}
  {data : Option (List UInt8)} {hash : UInt64} {a b : DomEntry} {kids : Forest DomEntry}
  {n : VlMsgPackNode}

/-- Below a new node are slots, and nothing is below them. -/
theorem DomValue.Made.slot (h : a.node.value.Made type extType data dataLen kids.erase)
    (hb : b ∈ kids.labels) : type = .array ∧ b ∈ kids.roots ∧ b.node.value.type = .nil ∧
      ∃ idx, idx < arrayLength data ∧ b.node.key = natToLE 4 idx := by
  have hkids := h.kids_eq
  split_ifs at hkids with htype
  · rw [labels_of_slots hkids] at hb
    obtain ⟨hnil, idx, -, hlt, hkey⟩ := slot_of_mem hkids hb
    exact ⟨htype, hb, hnil, idx, by omega, hkey⟩
  · cases kids with
    | nil => exact absurd hb List.not_mem_nil
    | cons c k rest => cases hkids

/-- The keys of new slots are different. -/
theorem DomValue.Made.nodup_keys (h : a.node.value.Made type extType data dataLen kids.erase) :
    (kids.roots.map (·.node.key)).Nodup := by
  have hmap : kids.roots.map (·.node.key) = kids.erase.roots.map DomNode.key := by
    rw [Forest.erase, Forest.roots_map, List.map_map]
    rfl
  rw [hmap, h.kids_eq]
  split_ifs
  · rw [keys_slotsFrom]
    exact nodup_slotKeys (arrayLength_lt data).le
  · exact List.nodup_nil

/-- **The nodes of a new tree**: its root, and the slots behind the hash of the root. -/
theorem DomLinked.made_node (h : DomLinked pack parent hash prev next (.cons a kids .nil))
    (hmade : a.node.value.Made type extType data dataLen kids.erase)
    (hi : i ∈ (Forest.cons a kids .nil).iters) (hn : pack.node i = some n) :
    (i = a.iter ∧ n.key = hierarchicalKey hash a.node.key) ∨
      type = .array ∧ ∃ b ∈ kids.roots, b.iter = i ∧ b.node.key.length = 4 ∧
        n.key = hierarchicalKey (vlHashMsgPackKey (hierarchicalKey hash a.node.key)) b.node.key := by
  obtain ⟨⟨e, he⟩, hkids, -⟩ := h
  rw [Forest.iters_cons, Forest.iters_nil, List.append_nil, List.mem_cons] at hi
  rcases hi with rfl | hi
  · obtain rfl := Option.some_injective _ (he.get.symm.trans hn)
    exact Or.inl ⟨rfl, rfl⟩
  · obtain ⟨b, hb, rfl⟩ := List.mem_map.mp hi
    obtain ⟨htype, hroot, -, idx, -, hkey⟩ := hmade.slot hb
    obtain ⟨e', hn'⟩ := hkids.root_node hroot
    obtain rfl := Option.some_injective _ (hn'.symm.trans hn)
    exact Or.inr ⟨htype, b, hroot, rfl, by rw [hkey, length_natToLE], rfl⟩

end NewTree

/-- The keys an insertion brings: that of the node, and those of its slots. -/
def insertedKeys (type : VlMsgPackType) (data : Option (List UInt8)) (key : List UInt8) :
    List (List UInt8) :=
  key :: (List.range (slotCount type data)).map (slotKey (vlHashMsgPackKey key))

/-- A node after an insertion has an old key, or a new one. -/
theorem VlMsgPack.KeepsKeys.key_cases {pack pack' : VlMsgPack} {type : VlMsgPackType} {extType : ℤ}
    {parent prev next dataLen i : ℕ} {data : Option (List UInt8)} {hash : UInt64} {a : DomEntry}
    {old kids : Forest DomEntry} {n : VlMsgPackNode}
    (hkeeps : pack.KeepsKeys pack' old (.cons a kids .nil))
    (h : DomLinked pack' parent hash prev next (.cons a kids .nil))
    (hmade : a.node.value.Made type extType data dataLen kids.erase) (hn : pack'.node i = some n) :
    (∃ m, pack.node i = some m ∧ m.key = n.key) ∨
      n.key ∈ insertedKeys type data (hierarchicalKey hash a.node.key) := by
  by_cases hi : i ∈ (Forest.cons a kids .nil).iters
  · refine Or.inr ?_
    rcases h.made_node hmade hi hn with ⟨-, hkey⟩ | ⟨htype, b, hb, -, -, hkey⟩
    · rw [hkey]
      exact List.mem_cons_self
    · obtain ⟨-, -, -, idx, hidx, hbkey⟩ := hmade.slot (Forest.mem_labels_of_mem_roots hb)
      rw [hkey, hbkey]
      refine List.mem_cons_of_mem _ (List.mem_map.mpr ⟨idx, ?_, rfl⟩)
      rwa [slotCount, if_pos htype, List.mem_range]
  · exact Or.inl (hkeeps i n hi hn).2

/-! ### The new document -/

/-- **The keys an insertion needs are free**: the key of the new node belongs to nothing outside of the
old tree, and so do the keys behind its hash, if it becomes a container. -/
structure VlMsgPack.KeysFree (pack : VlMsgPack) (used : List (List UInt8)) (key : List UInt8)
    (old : Forest DomEntry) : Prop where
  self : ∀ i n, pack.node i = some n → n.key = key → i ∈ old.iters
  below : key ∈ used → ∀ i n k, pack.node i = some n →
    n.key = hierarchicalKey (vlHashMsgPackKey key) k → n.key ≠ vlMsgPackRootKey → i ∈ old.iters

/-- A short key is not that of the root. -/
theorem hierarchicalKey_ne_root {hash : UInt64} {k : List UInt8} (h : k.length = 4) :
    hierarchicalKey hash k ≠ vlMsgPackRootKey := by
  intro heq
  have hlen := congrArg List.length heq
  rw [hierarchicalKey, List.length_append, length_natToLE, h] at hlen
  exact absurd hlen (by decide)

namespace VlMsgPack.Holds

variable {pack pack' : VlMsgPack} {type : VlMsgPackType} {extType : ℤ} {dataLen x y : ℕ}
  {data : Option (List UInt8)} {used used' : List (List UInt8)} {f f₁ f₂ old kids : Forest DomEntry}
  {s : Spot DomEntry} {a : DomEntry} {m : VlMsgPackNode} {key : List UInt8}

/-- **No key is used twice** after an insertion. -/
theorem unique_inserted (h : pack.Holds used f) (hinj : HashInjective used') (hsub : used ⊆ used')
    (hm : pack.node s.label.iter = some m) (hmem : m.key ∈ used) (hself : s.label.iter ∉ old.iters)
    (hfree : pack.KeysFree used' (hierarchicalKey (vlHashMsgPackKey m.key) a.node.key) old)
    (hused : type.IsContainer → hierarchicalKey (vlHashMsgPackKey m.key) a.node.key ∈ used')
    (hmade : a.node.value.Made type extType data dataLen kids.erase)
    (hlinked : DomLinked pack' s.label.iter (vlHashMsgPackKey m.key) x y (.cons a kids .nil))
    (hkeeps : pack.KeepsKeys pack' old (.cons a kids .nil)) {i j : ℕ} {n n' : VlMsgPackNode}
    (hi : pack'.node i = some n) (hj : pack'.node j = some n') (hkey : n.key = n'.key) : i = j := by
  set K := hierarchicalKey (vlHashMsgPackKey m.key) a.node.key with hK
  -- a node of the new tree and another one
  have hcross : ∀ {i j : ℕ} {n n' : VlMsgPackNode}, pack'.node i = some n → pack'.node j = some n' →
      n.key = n'.key → i ∈ (Forest.cons a kids .nil).iters → j ∉ (Forest.cons a kids .nil).iters →
      False := by
    intro i j n n' hi hj hkey hin hout
    obtain ⟨hold, l, hl, hlkey⟩ := hkeeps j n' hout hj
    rcases hlinked.made_node hmade hin hi with ⟨-, hnew⟩ | ⟨htype, b, -, -, hlen, hnew⟩
    · exact hold (hfree.self j l hl (hlkey.trans (hkey.symm.trans hnew)))
    · have hbelow := hlkey.trans (hkey.symm.trans hnew)
      exact hold (hfree.below (hused (Or.inr htype)) j l _ hl hbelow
        (hbelow ▸ hierarchicalKey_ne_root hlen))
  -- the root of the new tree and a slot below it
  have hslot : ∀ k, K = hierarchicalKey (vlHashMsgPackKey K) k → type = .array → False := by
    intro k hk htype
    obtain ⟨hhash, -⟩ := hierarchicalKey_inj (hK.symm.trans hk)
    have hmK : m.key = K := hinj (hsub hmem) (hused (Or.inr htype)) hhash
    exact hself (hfree.self _ m hm hmK)
  by_cases hin : i ∈ (Forest.cons a kids .nil).iters <;>
    by_cases hjn : j ∈ (Forest.cons a kids .nil).iters
  · rcases hlinked.made_node hmade hin hi with ⟨rfl, hn⟩ | ⟨htype, b, hb, rfl, -, hn⟩ <;>
      rcases hlinked.made_node hmade hjn hj with ⟨rfl, hn'⟩ | ⟨htype', b', hb', rfl, -, hn'⟩
    · rfl
    · exact (hslot _ (hn.symm.trans (hkey.trans hn')) htype').elim
    · exact (hslot _ (hn'.symm.trans (hkey.symm.trans hn)) htype).elim
    · obtain ⟨-, hbkey⟩ := hierarchicalKey_inj (hn.symm.trans (hkey.trans hn'))
      rw [List.inj_on_of_nodup_map hmade.nodup_keys hb hb' hbkey]
  · exact (hcross hi hj hkey hin hjn).elim
  · exact (hcross hj hi hkey.symm hjn hin).elim
  · obtain ⟨-, l, hl, hlkey⟩ := hkeeps i n hin hi
    obtain ⟨-, l', hl', hlkey'⟩ := hkeeps j n' hjn hj
    exact h.unique i j l l' hl hl' (hlkey.trans (hkey.trans hlkey'.symm))

/-- **The table holds the document with the new tree.** -/
theorem inserted (h : pack.Holds used f) (hinj : HashInjective used') (hsub : used ⊆ used')
    (hs : s ∈ f.spots []) (hm : pack.node s.label.iter = some m) (hmem : m.key ∈ used)
    (hself : s.label.iter ∉ old.iters) (hkids : s.kids = f₁ ++ (old ++ f₂))
    (hfree : pack.KeysFree used' (hierarchicalKey (vlHashMsgPackKey m.key) a.node.key) old)
    (hused : type.IsContainer → hierarchicalKey (vlHashMsgPackKey m.key) a.node.key ∈ used')
    (hmade : a.node.value.Made type extType data dataLen kids.erase)
    (hsound : ∃ prev next, pack'.Sound 0 vlMsgPackRootHash prev next
      (f.setKids s.label.iter (f₁ ++ (.cons a kids .nil ++ f₂))))
    (hknown : ∀ i n, pack'.node i = some n →
      i ∈ (f.setKids s.label.iter (f₁ ++ (.cons a kids .nil ++ f₂))).iters)
    (hlinked : DomLinked pack' s.label.iter (vlHashMsgPackKey m.key) x y (.cons a kids .nil))
    (hproper : (Forest.cons a kids .nil).Proper)
    (hkeeps : pack.KeepsKeys pack' old (.cons a kids .nil)) :
    pack'.Holds used' (f.setKids s.label.iter (f₁ ++ (.cons a kids .nil ++ f₂))) := by
  set g := f₁ ++ (Forest.cons a kids .nil ++ f₂) with hg
  have hlabels : ∀ b, b ∈ (Forest.cons a kids .nil).labels → b ∈ g.labels := fun b hb => by
    rw [hg, Forest.labels_append, Forest.labels_append, List.mem_append, List.mem_append]
    exact Or.inr (Or.inl hb)
  refine ⟨hsound, ?_, hknown, fun i j n n' => ?_, fun b hb hcontainer n hn => ?_⟩
  · obtain ⟨r, k, rfl, hr⟩ := h.root
    exact ⟨r, _, rfl, hr⟩
  · exact h.unique_inserted hinj hsub hm hmem hself hfree hused hmade hlinked hkeeps
  · by_cases hin : b.iter ∈ (Forest.cons a kids .nil).iters
    · -- the new node, or a slot, which is no container
      obtain ⟨prev, next, hsound'⟩ := hsound
      obtain ⟨b', hb', hiter⟩ := List.mem_map.mp hin
      have hg' : b' ∈ (f.setKids s.label.iter g).labels :=
        Forest.labels_subset_updateAt hs (decide_eq_true rfl) (hlabels b' hb')
      obtain rfl : b' = b := List.inj_on_of_nodup_map hsound'.proper.nodup hg' hb hiter
      rcases List.mem_cons.mp hb' with rfl | hb'
      · rw [hmade.type_eq] at hcontainer
        rcases hlinked.made_node hmade hin hn with ⟨-, hkey⟩ | ⟨htype, c, hc, hiter', -⟩
        · rw [hkey]
          exact hused hcontainer
        · obtain ⟨-, -, hnot, -⟩ := Forest.proper_single.mp hproper
          exact absurd (hiter' ▸ List.mem_map_of_mem (Forest.mem_labels_of_mem_roots hc)) hnot
      · rw [Forest.labels_nil, List.append_nil] at hb'
        obtain ⟨-, -, hnil, -⟩ := hmade.slot hb'
        rw [hnil] at hcontainer
        exact absurd hcontainer (by decide)
    · -- an old node
      obtain ⟨-, l, hl, hlkey⟩ := hkeeps _ n hin hn
      have hbf : b ∈ f.labels := by
        rcases Forest.mem_labels_updateAt hb with hbf | hbg
        · exact hbf
        · rw [hg, Forest.labels_append, Forest.labels_append, List.mem_append, List.mem_append] at hbg
          refine Forest.labels_subset_of_mem_spots hs ?_
          rw [hkids, Forest.labels_append, Forest.labels_append, List.mem_append, List.mem_append]
          rcases hbg with hbg | hbg | hbg
          · exact Or.inl hbg
          · exact absurd (List.mem_map_of_mem hbg) hin
          · exact Or.inr (Or.inr hbg)
      rw [← hlkey]
      exact hsub (h.used b hbf hcontainer l hl)
/-! ### Slots -/

/-- The keys of the children of an array are their indices. -/
theorem array_keys (h : pack.Holds used f) (hs : s ∈ f.spots [])
    (harray : s.label.node.value.type = .array) :
    s.kids.roots.map (·.node.key) = (List.range s.kids.length).map (natToLE 4) ∧
      s.kids.length < 2 ^ 32 := by
  obtain ⟨hash, prev, next, ⟨⟨⟨e, he⟩, -⟩, -⟩, -⟩ := h.spot hs
  cases he.fits with
  | nil type => exact absurd (harray.symm.trans type) (by decide)
  | leaf type => exact absurd harray type.2.2
  | map type => exact absurd (harray.symm.trans type) (by decide)
  | array type payload first second length keys ptr block => exact ⟨keys, length⟩

/-- The key of a child of an array is its index. -/
theorem array_key (h : pack.Holds used f) (hs : s ∈ f.spots [])
    (harray : s.label.node.value.type = .array) {idx : ℕ} {c : DomEntry}
    (hc : s.kids.roots[idx]? = some c) : c.node.key = natToLE 4 idx := by
  obtain ⟨hkeys, -⟩ := h.array_keys hs harray
  obtain ⟨hlt, -⟩ := List.getElem?_eq_some_iff.mp hc
  rw [Forest.length_roots] at hlt
  have hget := congrArg (·[idx]?) hkeys
  simp only [List.getElem?_map, hc, Option.map_some, List.getElem?_range hlt] at hget
  exact Option.some_injective _ hget

/-- A child has its node, under its key. -/
theorem child_node (h : pack.Holds used f) (hs : s ∈ f.spots [])
    (hm : pack.node s.label.iter = some m) {c : DomEntry} (hc : c ∈ s.kids.roots) :
    ∃ e, pack.node c.iter = some ⟨hierarchicalKey (vlHashMsgPackKey m.key) c.node.key, e⟩ := by
  obtain ⟨hash, prev, next, ⟨⟨⟨e, he⟩, hkids, -⟩, -⟩, -⟩ := h.spot hs
  obtain rfl := Option.some_injective _ (he.get.symm.trans hm)
  exact hkids.root_node hc

/-- **A node that is stored under the key of a slot** is in that slot. -/
theorem slot_node (h : pack.Holds used f) (hinj : HashInjective used) (hs : s ∈ f.spots [])
    (harray : s.label.node.value.type = .array) (hm : pack.node s.label.iter = some m) {idx i : ℕ}
    {n : VlMsgPackNode} (hidx : idx < 2 ^ 32) (hn : pack.node i = some n)
    (hstored : n.stored = slotKey (vlHashMsgPackKey m.key) idx) :
    ∃ c, s.kids.roots[idx]? = some c ∧ c.iter = i := by
  obtain ⟨hroot, rest, hkey⟩ := key_of_stored_slot hstored
  have hmem : m.key ∈ used := h.used _ (Forest.label_mem_of_mem_spots hs) (Or.inr harray) m hm
  obtain ⟨c, hc, hiter, hckey⟩ :=
    h.child hinj (List.Subset.refl _) hs hm hmem hn hkey hroot
  obtain ⟨j, hj⟩ := List.getElem?_of_mem hc
  have hj' := h.array_key hs harray hj
  obtain ⟨hlt, -⟩ := List.getElem?_eq_some_iff.mp hj
  obtain ⟨-, hlength⟩ := h.array_keys hs harray
  rw [Forest.length_roots] at hlt
  have hsame := hj'.symm.trans hckey
  obtain ⟨hsame, -⟩ := List.append_inj ((List.append_nil _).trans hsame)
    (length_natToLE.trans length_natToLE.symm)
  obtain rfl : j = idx := natToLE_injective (by omega) hidx hsame
  exact ⟨c, hj, hiter⟩

/-- **The index of a slot finds its node**, and another index finds nothing. -/
theorem find_slot (h : pack.Holds used f) (hinj : HashInjective used) (hs : s ∈ f.spots [])
    (harray : s.label.node.value.type = .array) (hm : pack.node s.label.iter = some m) {idx : ℕ}
    (hidx : idx < 2 ^ 32) : pack.nodes.find (slotKey (vlHashMsgPackKey m.key) idx) =
      (s.kids.roots[idx]?.map DomEntry.iter).getD 0 := by
  have hslot : ∀ i n, pack.node i = some n → n.stored = slotKey (vlHashMsgPackKey m.key) idx →
      ∃ c, s.kids.roots[idx]? = some c ∧ c.iter = i := fun i n hn hstored =>
    h.slot_node hinj hs harray hm hidx hn hstored
  cases hc : s.kids.roots[idx]? with
  | none =>
    refine find_eq_zero fun i n hn hstored => ?_
    obtain ⟨c, hc', -⟩ := hslot i n hn hstored
    exact Option.some_ne_none _ (hc'.symm.trans hc)
  | some c =>
    obtain ⟨e, he⟩ := h.child_node hs hm (List.mem_of_getElem? hc)
    have hkey : hierarchicalKey (vlHashMsgPackKey m.key) c.node.key =
        slotKey (vlHashMsgPackKey m.key) idx := by rw [h.array_key hs harray hc, slotKey]
    refine find_eq he hkey length_slotKey_lt fun i n hn hstored => ?_
    obtain ⟨c', hc', hiter⟩ := hslot i n hn hstored
    obtain rfl := Option.some_injective _ (hc.symm.trans hc')
    exact hiter.symm

/-! ### The two insertions -/

/-- The keys of the slots of a new array are free, when all keys behind its hash are. -/
theorem slotsFree {is : List ℕ} {K : List UInt8} (h : type = .array → ∀ i n k, pack.node i = some n →
    n.key = hierarchicalKey (vlHashMsgPackKey K) k → n.key ≠ vlMsgPackRootKey → i ∈ is) :
    pack.SlotsFree type data (vlHashMsgPackKey K) is := by
  intro htype idx _ i n hn hstored
  obtain ⟨hroot, rest, hkey⟩ := key_of_stored_slot hstored
  exact h htype i n _ hn hkey hroot

/-- What is behind the hash of a child is below it. -/
theorem below_child (h : pack.Holds used f) (hinj : HashInjective used') (hsub : used ⊆ used')
    (hs : s ∈ f.spots []) (hm : pack.node s.label.iter = some m) {c : DomEntry} {k : Forest DomEntry}
    (hkids : s.kids = f₁ ++ .cons c k f₂)
    (hmem : hierarchicalKey (vlHashMsgPackKey m.key) c.node.key ∈ used') {i : ℕ} {n : VlMsgPackNode}
    {l : List UInt8} (hn : pack.node i = some n) (hkey : n.key = hierarchicalKey (vlHashMsgPackKey
      (hierarchicalKey (vlHashMsgPackKey m.key) c.node.key)) l) (hroot : n.key ≠ vlMsgPackRootKey) :
    i ∈ k.iters := by
  obtain ⟨e, hc⟩ := h.child_node hs hm (show c ∈ s.kids.roots by simp [hkids])
  have hspot : ⟨s.label :: s.above, c, k⟩ ∈ f.spots [] := by
    refine Forest.mem_spots_of_mem_spots hs ?_
    rw [hkids, Forest.mem_spots_append, Forest.mem_spots_cons]
    exact Or.inr (Or.inl rfl)
  obtain ⟨b, hb, rfl, -⟩ := h.child hinj hsub hspot hc hmem hn hkey hroot
  exact Forest.mem_iters_of_mem_roots hb

/-- **A child in its place**: another tree may be put there, with a node under the same key. -/
theorem child_spot (h : pack.Holds used f) (hinj : HashInjective used') (hsub : used ⊆ used')
    (hs : s ∈ f.spots []) (hm : pack.node s.label.iter = some m) {c : DomEntry} {k : Forest DomEntry}
    (hkids : s.kids = f₁ ++ .cons c k f₂) :
    ∃ hash prev next, s.label.node.hash hash = vlHashMsgPackKey m.key ∧
      pack.Sound (iterAbove s.above) hash prev next (.cons s.label (f₁ ++ .cons c k f₂) .nil) ∧
      ∀ pack' a kids type extType data dataLen,
        (type.IsContainer → hierarchicalKey (vlHashMsgPackKey m.key) c.node.key ∈ used') →
        a.node.key = c.node.key → a.node.value.Made type extType data dataLen kids.erase →
        pack'.Sound (iterAbove s.above) hash prev next (.cons s.label (f₁ ++ .cons a kids f₂) .nil) →
        pack.Becomes pack' (.cons s.label (f₁ ++ .cons c k f₂) .nil)
          (.cons s.label (f₁ ++ .cons a kids f₂) .nil) →
        pack.KeepsKeys pack' (.cons c k .nil) (.cons a kids .nil) →
        pack'.Holds used' (f.setKids s.label.iter (f₁ ++ (.cons a kids .nil ++ f₂))) ∧
          ∀ i n, pack'.node i = some n → (∃ l, pack.node i = some l ∧ l.key = n.key) ∨
            n.key ∈ insertedKeys type data (hierarchicalKey (vlHashMsgPackKey m.key) c.node.key) := by
  have hcroot : c ∈ s.kids.roots := by simp [hkids]
  obtain ⟨hash, prev, next, hsound, hchange⟩ := h.spot hs
  obtain ⟨⟨e', he⟩, -, -⟩ := domLinked_cons.mp hsound.linked
  have hmem : m.key ∈ used :=
    h.used _ (Forest.label_mem_of_mem_spots hs) (he.fits.container hcroot) m hm
  obtain ⟨e, hc⟩ := h.child_node hs hm hcroot
  have hbelow : hierarchicalKey (vlHashMsgPackKey m.key) c.node.key ∈ used' → ∀ i n l,
      pack.node i = some n → n.key = hierarchicalKey (vlHashMsgPackKey
        (hierarchicalKey (vlHashMsgPackKey m.key) c.node.key)) l → n.key ≠ vlMsgPackRootKey →
      i ∈ k.iters := fun hmem' i n l hn => h.below_child hinj hsub hs hm hkids hmem' hn
  obtain rfl := Option.some_injective _ (he.get.symm.trans hm)
  obtain ⟨-, -, hself, -⟩ := Forest.proper_single.mp hsound.proper
  have hsplit : s.kids = f₁ ++ (.cons c k .nil ++ f₂) := hkids
  rw [hkids] at hsound hchange hself
  refine ⟨hash, prev, next, rfl, hsound, fun pack' a kids type extType data dataLen hused hkey hmade
    hsound' hbecomes hkeeps => ?_⟩
  obtain ⟨hwhole, hknown⟩ := hchange pack' _ hbecomes hsound'
  rw [← hkey] at hused
  refine ⟨h.inserted hinj hsub hs hm hmem (fun hin => hself ?_) hsplit ?_ hused hmade hwhole hknown
    hsound'.linked.child hsound'.proper.child hkeeps,
    fun i n hn => hkey ▸ hkeeps.key_cases hsound'.linked.child hmade hn⟩
  · simp only [Forest.iters_append, Forest.iters_cons, Forest.iters_nil, List.append_nil,
      List.mem_append, List.mem_cons] at hin ⊢
    tauto
  · rw [hkey]
    refine ⟨fun i n hn hnkey => ?_, fun hmem' i n l hn hnkey hroot => ?_⟩
    · obtain rfl := h.unique i _ n _ hn hc hnkey
      simp
    · rw [Forest.iters_cons, List.mem_cons, List.mem_append]
      exact Or.inr (Or.inl (hbelow hmem' i n l hn hnkey hroot))

/-- **A child is overwritten in its place**, when its key finds it. -/
theorem replace (h : pack.Holds used f) (hinj : HashInjective used') (hsub : used ⊆ used')
    (hs : s ∈ f.spots []) (hm : pack.node s.label.iter = some m) {c : DomEntry} {k : Forest DomEntry}
    (hkids : s.kids = f₁ ++ .cons c k f₂)
    (hfind : pack.nodes.find (hierarchicalKey (vlHashMsgPackKey m.key) c.node.key) = c.iter)
    (hhollow : k.erase.hollow = false) (hext : Accepted type extType)
    (hdata : DataFits type data dataLen)
    (hused : type.IsContainer → hierarchicalKey (vlHashMsgPackKey m.key) c.node.key ∈ used')
    (hroom : pack.total + slotCount type data ≤ VlNodeTable.limit + k.iters.length) :
    Returns (vlMsgPackInsertExt pack type extType s.label.iter c.node.key data dataLen) fun r =>
      r.1 = c.iter ∧ ∃ a kids, a.iter = c.iter ∧ a.node.key = c.node.key ∧
        a.node.value.Made type extType data dataLen kids.erase ∧
        r.2.Holds used' (f.setKids s.label.iter (f₁ ++ (.cons a kids .nil ++ f₂))) ∧
        ∀ i n, r.2.node i = some n → (∃ l, pack.node i = some l ∧ l.key = n.key) ∨
          n.key ∈ insertedKeys type data (hierarchicalKey (vlHashMsgPackKey m.key) c.node.key) := by
  obtain ⟨hash, prev, next, hhash, hsound, hput⟩ := h.child_spot hinj hsub hs hm hkids
  have hfree : pack.SlotsFree type data (vlHashMsgPackKey
      (hierarchicalKey (s.label.node.hash hash) c.node.key)) k.iters := by
    rw [hhash]
    exact slotsFree fun htype i n l hn =>
      h.below_child hinj hsub hs hm hkids (hused (Or.inr htype)) hn
  refine (vlMsgPackInsertExt_replace hsound (hhash ▸ hfind) hhollow hext hdata hfree hroom).mono ?_
  rintro r ⟨hr, a, kids, hiter, hkey, hmade, hsound', hbecomes, hkeeps⟩
  obtain ⟨hholds, hkeys⟩ := hput r.2 a kids type extType data dataLen hused hkey hmade hsound' hbecomes
    hkeeps
  exact ⟨hr, a, kids, hiter, hkey, hmade, hholds, hkeys⟩

/-- A key that a map does not have, and that is not found, is no node's. -/
theorem key_free (h : pack.Holds used f) (hinj : HashInjective used) (hs : s ∈ f.spots [])
    (hm : pack.node s.label.iter = some m) (hmem : m.key ∈ used)
    (hkey : key ∉ s.kids.roots.map (·.node.key))
    (hfind : pack.nodes.find (hierarchicalKey (vlHashMsgPackKey m.key) key) = 0) {i : ℕ}
    {n : VlMsgPackNode} (hn : pack.node i = some n) :
    n.key ≠ hierarchicalKey (vlHashMsgPackKey m.key) key := by
  intro hnkey
  by_cases hroot : n.key = vlMsgPackRootKey
  · have hlen : (hierarchicalKey (vlHashMsgPackKey m.key) key).length < 2 ^ 16 := by
      rw [← hnkey, hroot]
      decide
    exact key_ne_of_find hfind hlen hn hnkey
  · obtain ⟨c, hc, -, rfl⟩ := h.child hinj (List.Subset.refl _) hs hm hmem hn hnkey hroot
    exact hkey (List.mem_map_of_mem hc)

/-- **A new key of a map** gets a node behind the others. -/
theorem add (h : pack.Holds used f) (hinj : HashInjective used') (hsub : used ⊆ used')
    (hs : s ∈ f.spots []) (hmap : s.label.node.value.type = .map)
    (hm : pack.node s.label.iter = some m) (hkey : key ∉ s.kids.roots.map (·.node.key))
    (hfind : pack.nodes.find (hierarchicalKey (vlHashMsgPackKey m.key) key) = 0)
    (hext : Accepted type extType) (hdata : DataFits type data dataLen)
    (hused : type.IsContainer → hierarchicalKey (vlHashMsgPackKey m.key) key ∈ used')
    (hroom : pack.total + 1 + slotCount type data ≤ VlNodeTable.limit) :
    Returns (vlMsgPackInsertExt pack type extType s.label.iter key data dataLen) fun r =>
      ∃ a kids, r.1 = a.iter ∧ a.node.key = key ∧
        a.node.value.Made type extType data dataLen kids.erase ∧
        r.2.Holds used' (f.setKids s.label.iter (s.kids ++ (.cons a kids .nil ++ .nil))) ∧
        ∀ i n, r.2.node i = some n → (∃ l, pack.node i = some l ∧ l.key = n.key) ∨
          n.key ∈ insertedKeys type data (hierarchicalKey (vlHashMsgPackKey m.key) key) := by
  have hmem : m.key ∈ used := h.used _ (Forest.label_mem_of_mem_spots hs) (Or.inl hmap) m hm
  have hnew : ∀ i n, pack.node i = some n → n.key ≠ hierarchicalKey (vlHashMsgPackKey m.key) key :=
    fun i n hn => h.key_free (hinj.mono hsub) hs hm hmem hkey hfind hn
  have hbelow : hierarchicalKey (vlHashMsgPackKey m.key) key ∈ used' → ∀ i n l,
      pack.node i = some n → n.key = hierarchicalKey (vlHashMsgPackKey
        (hierarchicalKey (vlHashMsgPackKey m.key) key)) l → n.key ≠ vlMsgPackRootKey →
      i ∈ (Forest.nil : Forest DomEntry).iters := fun hmem' i n l hn hnkey hroot =>
    absurd (h.fresh hinj hsub hmem' hnew hn hnkey) hroot
  -- the new node is not in one of its own slots
  have hself : type = .array → ∀ idx, idx < arrayLength data →
      VlMsgPackNode.stored ⟨hierarchicalKey (vlHashMsgPackKey m.key) key, default⟩ ≠
        slotKey (vlHashMsgPackKey (hierarchicalKey (vlHashMsgPackKey m.key) key)) idx := by
    intro htype idx _ hstored
    obtain ⟨-, rest, hK⟩ := key_of_stored_slot hstored
    obtain ⟨hhash, -⟩ := hierarchicalKey_inj hK
    exact hnew _ m hm (hinj (hsub hmem) (hused (Or.inr htype)) hhash)
  obtain ⟨hash, prev, next, hsound, hchange⟩ := h.spot hs
  obtain ⟨⟨e', he⟩, -, -⟩ := domLinked_cons.mp hsound.linked
  obtain rfl := Option.some_injective _ (he.get.symm.trans hm)
  refine (vlMsgPackInsertExt_append hsound hmap hkey hfind hext hdata
    (slotsFree fun htype => hbelow (hused (Or.inr htype))) hself hroom).mono ?_
  rintro r ⟨a, kids, hr, rfl, hmade, hsound', hbecomes, hkeeps⟩
  obtain ⟨hwhole, hknown⟩ := hchange r.2 _ hbecomes hsound'
  have hsplit : s.kids = s.kids ++ (.nil ++ .nil) := by simp
  exact ⟨a, kids, hr, rfl, hmade, h.inserted hinj hsub hs hm hmem List.not_mem_nil hsplit
    ⟨fun i n hn hnkey => absurd hnkey (hnew i n hn), hbelow⟩ hused hmade hwhole hknown
    hsound'.linked.child hsound'.proper.child hkeeps,
    fun i n hn => hkeeps.key_cases hsound'.linked.child hmade hn⟩

end VlMsgPack.Holds

/-! ### The first document -/

/-- **`vlMsgPackInit`** makes a document of one empty map. -/
theorem vlMsgPackInit_spec (nodePlace valuePlace : Placement) :
    Returns (vlMsgPackInit nodePlace valuePlace) fun pack => ∃ r, pack.root = r.iter ∧
      r.node.key = vlMsgPackRootString ∧ r.node.value.type = .map ∧
      pack.Holds [vlMsgPackRootKey] (.cons r .nil .nil) := by
  let pack₀ : VlMsgPack := ⟨.init nodePlace, .init valuePlace, 0⟩
  have hempty : ∀ i, pack₀.node i = none := fun _ => rfl
  have hfind : pack₀.nodes.find vlMsgPackRootKey = 0 :=
    find_eq_zero fun i n hn => absurd (hn.symm.trans (hempty i)) (Option.some_ne_none _)
  have hroom : pack₀.nodes.store.live.length < VlNodeTable.limit := Nat.succ_pos _
  obtain ⟨iter, hiter, hfresh, hsize, hinsert⟩ := insert_eq vlMsgPackRootKey hroom
  let pack₁ : VlMsgPack :=
    { pack₀ with nodes := pack₀.nodes.add iter hiter hfresh vlMsgPackRootKey hsize }
  have hn : pack₁.node iter = some ⟨vlMsgPackRootKey, default⟩ := Function.update_self _ _ _
  have hothers : ∀ i, i ≠ iter → pack₁.node i = none := fun i hi => Function.update_of_ne hi _ _
  have hdata : DataFits .map none 0 := ⟨fun h => absurd rfl h.2.1, fun h => by cases h⟩
  have hmake : Returns (vlMsgPackInitPlain .map vlMsgPackExtNone 0 none 0 pack₁ iter) _ :=
    vlMsgPackInitPlain_spec (by decide) hn rfl hdata
  obtain ⟨pack₂, hinit, r, rfl, hkey, hmade, hinitialised⟩ := hmake
  have hbegin : vlMsgPackKeyBegin pack₀ vlMsgPackRootHash vlMsgPackRootString =
      .ok (vlMsgPackRootKey, 0, pack₀) := by
    rw [vlMsgPackKeyBegin]
    exact if_pos (by decide)
  have hrun : vlMsgPackInsert pack₀ .map 0 vlMsgPackRootString none 0 = .ok (r.iter, pack₂) := by
    rw [vlMsgPackInsert, vlMsgPackInsertExt, if_neg (by decide), vlMsgPackInsertWith,
      if_neg (not_not.mpr rfl), ok_bind, hbegin, ok_bind]
    simp only [hfind, ne_eq, not_true_eq_false, if_false, hinsert, ok_bind, vlMsgPackKeyEnd]
    exact congrArg (· >>= fun pack => pure (r.iter, pack)) hinit
  have hmem : ∀ i n, pack₂.node i = some n → i = r.iter := fun i n hn' => by
    by_contra hne
    have hout : i ∉ (Forest.cons r .nil .nil).iters := by simpa using hne
    obtain ⟨-, hold⟩ := hinitialised.becomes.known i n hout hn'
    exact Option.some_ne_none _ (hold.symm.trans (hothers i hne))
  refine ⟨{ pack₂ with root := r.iter }, ?_, r, rfl, hkey, hmade.type_eq, ?_⟩
  · rw [vlMsgPackInit, hrun, ok_bind]
    rfl
  refine ⟨⟨_, _, hinitialised.linked.congr (fun _ _ => rfl) fun _ _ => rfl, hinitialised.proper,
    hinitialised.broken⟩, ⟨r, .nil, rfl, hkey⟩, fun i n hn' => ?_, fun i j m n hi hj _ => ?_,
    fun a ha _ n hn' => ?_⟩
  · rw [hmem i n hn']
    simp
  · rw [hmem i m hi, hmem j n hj]
  · obtain rfl : a = r := by simpa using ha
    rcases hinitialised.linked.made_node hmade (by simp) hn' with ⟨-, hnkey⟩ | ⟨htype, -⟩
    · rw [hnkey, hkey]
      exact List.mem_singleton_self _
    · cases htype

end VeritableLasagna
