import VeritableLasagna.Dom.Place

/-!
# The table and the document

The table finds a node by its key, which starts with the hash of its parent. `VlMsgPack.Holds` says that
the table holds a document and nothing else, and no key twice. As long as the hash tells the keys of the
**containers** apart, a key that starts with the hash of a node belongs to a child of that node
(`Holds.child`), and no key starts with the hash of a node that is yet to come (`Holds.fresh`). The keys
of leaves may have any hash: no key starts with it.
-/

namespace VeritableLasagna

/-! ### Keys -/

/-- A node that others can be below. -/
def VlMsgPackType.IsContainer (type : VlMsgPackType) : Prop := type = .map ∨ type = .array

instance {type : VlMsgPackType} : Decidable type.IsContainer := inferInstanceAs (Decidable (_ ∨ _))

/-- The hash tells these keys apart. -/
def HashInjective (keys : List (List UInt8)) : Prop := Set.InjOn vlHashMsgPackKey {k | k ∈ keys}

/-- The key of the root. -/
def vlMsgPackRootKey : List UInt8 := hierarchicalKey vlMsgPackRootHash vlMsgPackRootString

theorem HashInjective.mono {keys keys' : List (List UInt8)} (h : HashInjective keys')
    (hsub : keys ⊆ keys') : HashInjective keys :=
  Set.InjOn.mono (fun _ hk => hsub hk) h

/-- A key tells the hash it starts with. -/
theorem hierarchicalKey_inj {hash hash' : UInt64} {k k' : List UInt8}
    (h : hierarchicalKey hash k = hierarchicalKey hash' k') : hash = hash' ∧ k = k' := by
  obtain ⟨hhash, hk⟩ := List.append_inj h (length_natToLE.trans length_natToLE.symm)
  refine ⟨UInt64.toNat_inj.mp ?_, hk⟩
  have hlt : ∀ hash : UInt64, hash.toNat % 256 ^ 8 = hash.toNat := fun hash =>
    Nat.mod_eq_of_lt (hash.toNat_lt.trans_le (by norm_num))
  rw [← hlt hash, ← hlt hash', ← natOfLE_natToLE, ← natOfLE_natToLE, hhash]

/-- A node that is stored under the key of a slot is no root, and its key starts with the hash. -/
theorem key_of_stored_slot {n : VlMsgPackNode} {hash : UInt64} {idx : ℕ}
    (h : n.stored = slotKey hash idx) :
    n.key ≠ vlMsgPackRootKey ∧ ∃ rest, n.key = hierarchicalKey hash (natToLE 4 idx ++ rest) := by
  constructor
  · intro hroot
    have hlen : n.stored.length = 13 := by
      rw [VlMsgPackNode.stored_eq (by rw [hroot]; decide), hroot]
      decide
    rw [h, length_slotKey] at hlen
    omega
  · obtain ⟨rest, hkey⟩ := n.stored_prefix
    exact ⟨rest, by rw [hkey, h, slotKey, hierarchicalKey, hierarchicalKey, List.append_assoc]⟩

/-! ### New slots -/

section Slots

variable {pack : VlMsgPack} {parent prev next i j curIdx left : ℕ} {hash : UInt64}
  {f : Forest DomEntry} {a b : DomEntry} {m n : VlMsgPackNode}

/-- Nothing is below a new slot. -/
theorem labels_of_slots (h : f.erase = slotsFrom left curIdx) : f.labels = f.roots := by
  induction f generalizing left curIdx with
  | nil => rfl
  | cons a kids rest ih₁ ih₂ =>
    cases left with
    | zero => cases h
    | succ left =>
      rw [Forest.erase_cons, slotsFrom] at h
      obtain ⟨-, hkids, hrest⟩ := Forest.cons.inj h
      have hnil : kids = .nil := by
        cases kids with
        | nil => rfl
        | cons b k r => cases hkids
      rw [hnil, Forest.labels_cons, Forest.labels_nil, List.nil_append, ih₂ hrest, Forest.roots_cons]

/-- A new slot is `NIL`, and its key is its index. -/
theorem slot_of_mem (h : f.erase = slotsFrom left curIdx) (ha : a ∈ f.roots) :
    a.node.value.type = .nil ∧ ∃ idx, curIdx ≤ idx ∧ idx < curIdx + left ∧
      a.node.key = natToLE 4 idx := by
  induction f generalizing left curIdx with
  | nil => exact absurd ha List.not_mem_nil
  | cons b kids rest _ ih =>
    cases left with
    | zero => cases h
    | succ left =>
      rw [Forest.erase_cons, slotsFrom] at h
      obtain ⟨hb, -, hrest⟩ := Forest.cons.inj h
      rcases List.mem_cons.mp ha with rfl | ha
      · rw [hb]
        exact ⟨rfl, curIdx, le_rfl, by omega, rfl⟩
      · obtain ⟨htype, idx, hlo, hhi, hkey⟩ := ih hrest ha
        exact ⟨htype, idx, by omega, by omega, hkey⟩

/-- The node of a sibling. -/
theorem DomLinked.root_node (h : DomLinked pack parent hash prev next f) (ha : a ∈ f.roots) :
    ∃ e, pack.node a.iter = some ⟨hierarchicalKey hash a.node.key, e⟩ := by
  induction f generalizing prev with
  | nil => exact absurd ha List.not_mem_nil
  | cons b kids rest _ ih =>
    obtain ⟨⟨e, he⟩, -, hrest⟩ := h
    rcases List.mem_cons.mp ha with rfl | ha
    · exact ⟨e, he.get⟩
    · exact ih hrest ha

/-- Indices of 32 bits have different keys. -/
theorem nodup_slotKeys {n : ℕ} (h : n ≤ 2 ^ 32) : ((List.range n).map (natToLE 4)).Nodup := by
  refine List.Nodup.map_on (fun i hi j hj heq => ?_) List.nodup_range
  rw [List.mem_range] at hi hj
  exact natToLE_injective (by omega) (by omega) heq

theorem arrayLength_lt (data : Option (List UInt8)) : arrayLength data < 2 ^ 32 := by
  cases data with
  | none => exact Nat.two_pow_pos 32
  | some src =>
    have hlt : natOfLE (src.take 4) < 256 ^ (src.take 4).length := natOfLE_lt
    have hle : 256 ^ (src.take 4).length ≤ 256 ^ 4 :=
      Nat.pow_le_pow_right (by norm_num) (List.length_take_le _ _)
    exact hlt.trans_le (hle.trans (by norm_num))

end Slots

/-! ### The invariant -/

/-- **The table holds the document** `f`, and nothing else. The keys of its containers are among those
used. -/
structure VlMsgPack.Holds (pack : VlMsgPack) (used : List (List UInt8)) (f : Forest DomEntry) :
    Prop where
  sound : ∃ prev next, pack.Sound 0 vlMsgPackRootHash prev next f
  root : ∃ r k, f = .cons r k .nil ∧ r.node.key = vlMsgPackRootString
  known : ∀ i n, pack.node i = some n → i ∈ f.iters
  unique : ∀ i j m n, pack.node i = some m → pack.node j = some n → m.key = n.key → i = j
  used : ∀ a ∈ f.labels, a.node.value.type.IsContainer → ∀ n, pack.node a.iter = some n →
    n.key ∈ used

namespace VlMsgPack.Holds

variable {pack pack' : VlMsgPack} {used used' : List (List UInt8)} {f : Forest DomEntry}
  {s t : Spot DomEntry} {i : ℕ} {m n : VlMsgPackNode} {k K : List UInt8}

theorem nodup (h : pack.Holds used f) : (f.labels.map DomEntry.iter).Nodup := by
  obtain ⟨prev, next, hsound⟩ := h.sound
  exact hsound.proper.nodup

/-- The table has as many nodes as the document. -/
theorem total (h : pack.Holds used f) : pack.total = f.labels.length := by
  obtain ⟨prev, next, hsound⟩ := h.sound
  have hlen : f.iters.length = f.labels.length := List.length_map _
  rw [← hlen]
  refine Nat.le_antisymm (VlMsgPack.total_le_length fun i hi => ?_)
    (VlMsgPack.length_le_total hsound.proper.nodup fun i hi => hsound.linked.node_ne_none hi)
  obtain ⟨n, hn⟩ := Option.ne_none_iff_exists'.mp hi
  exact h.known i n hn

/-- Every node but the root is a child. -/
theorem owner (h : pack.Holds used f) (hn : pack.node i = some n) (hroot : n.key ≠ vlMsgPackRootKey) :
    ∃ s ∈ f.spots [], ∃ m, pack.node s.label.iter = some m ∧ m.key ∈ used ∧
      ∃ c ∈ s.kids.roots, c.iter = i ∧ n.key = hierarchicalKey (vlHashMsgPackKey m.key) c.node.key := by
  obtain ⟨prev, next, hsound⟩ := h.sound
  obtain ⟨r, kids, rfl, hr⟩ := h.root
  rcases hsound.linked.owner [] (h.known i n hn) hn with
    ⟨a, ha, -, hkey⟩ | ⟨s, hs, m, hm, c, hc, hiter, hkey⟩
  · obtain rfl : a = r := by simpa using ha
    exact absurd (hkey.trans (by rw [hr]; rfl)) hroot
  · obtain ⟨hash', prev', next', ⟨⟨e, he⟩, -, -⟩, -⟩ :=
      hsound.linked.change hsound.proper (show 0 = iterAbove [] from rfl) hs
    exact ⟨s, hs, m, hm, h.used _ (Forest.label_mem_of_mem_spots hs) (he.fits.container hc) m hm,
      c, hc, hiter, hkey⟩

/-- **A key that starts with the hash of a container** belongs to one of its children. -/
theorem child (h : pack.Holds used f) (hinj : HashInjective used') (hsub : used ⊆ used')
    (hs : s ∈ f.spots []) (hm : pack.node s.label.iter = some m) (hmem : m.key ∈ used')
    (hn : pack.node i = some n) (hkey : n.key = hierarchicalKey (vlHashMsgPackKey m.key) k)
    (hroot : n.key ≠ vlMsgPackRootKey) : ∃ c ∈ s.kids.roots, c.iter = i ∧ c.node.key = k := by
  obtain ⟨t, ht, m', hm', hmem', c, hc, hiter, hkey'⟩ := h.owner hn hroot
  obtain ⟨hhash, hk⟩ := hierarchicalKey_inj (hkey'.symm.trans hkey)
  have hsame : t.label.iter = s.label.iter := h.unique _ _ _ _ hm' hm (hinj (hsub hmem') hmem hhash)
  obtain rfl : t = s := Forest.eq_of_mem_spots h.nodup ht hs hsame
  exact ⟨c, hc, hiter, hk⟩

/-- **No key starts with the hash of a container that is new.** -/
theorem fresh (h : pack.Holds used f) (hinj : HashInjective used') (hsub : used ⊆ used')
    (hK : K ∈ used') (hfresh : ∀ i n, pack.node i = some n → n.key ≠ K)
    (hn : pack.node i = some n) (hkey : n.key = hierarchicalKey (vlHashMsgPackKey K) k) :
    n.key = vlMsgPackRootKey := by
  by_contra hroot
  obtain ⟨t, ht, m, hm, hmem, c, hc, hiter, hkey'⟩ := h.owner hn hroot
  obtain ⟨hhash, -⟩ := hierarchicalKey_inj (hkey'.symm.trans hkey)
  exact hfresh _ m hm (hinj (hsub hmem) hK hhash)

/-- A node of the document, in its place. -/
theorem spot (h : pack.Holds used f) (hs : s ∈ f.spots []) :
    ∃ hash prev next, pack.Sound (iterAbove s.above) hash prev next (.cons s.label s.kids .nil) ∧
      ∀ pack' g, pack.Becomes pack' (.cons s.label s.kids .nil) (.cons s.label g .nil) →
        pack'.Sound (iterAbove s.above) hash prev next (.cons s.label g .nil) →
        (∃ prev next, pack'.Sound 0 vlMsgPackRootHash prev next (f.setKids s.label.iter g)) ∧
          ∀ i n, pack'.node i = some n → i ∈ (f.setKids s.label.iter g).iters := by
  obtain ⟨x, y, hsound⟩ := h.sound
  obtain ⟨hash, prev, next, hlinked, hproper, hchange⟩ :=
    hsound.linked.change hsound.proper (show 0 = iterAbove [] from rfl) hs
  refine ⟨hash, prev, next, ⟨hlinked, hproper, hsound.unbroken⟩, fun pack' g hbecomes hsound' => ?_⟩
  obtain ⟨hlinked', hproper', haround⟩ :=
    hchange pack' g hbecomes.toEvolves hsound'.linked hsound'.proper
  refine ⟨⟨x, y, hlinked', hproper', hsound'.unbroken⟩, fun i n hn => ?_⟩
  by_contra hnot
  obtain ⟨hold, hn⟩ := (hbecomes.around haround).known i n hnot hn
  exact hold (h.known i n hn)

end VlMsgPack.Holds

end VeritableLasagna
