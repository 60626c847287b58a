import VeritableLasagna.Dom.Insert

/-!
# Making an array

A new array gets a `NIL` for every slot. The first pass inserts them (`vlMsgPackInitSlots_spec`), which
fills the slot table; the second finds them again by their keys and links them
(`vlMsgPackLinkSlots_spec`). The keys of the slots have to be new: a node that is in the table already
would be overwritten, and its slot would never be written.
-/

namespace VeritableLasagna

/-! ### Keys of slots -/

theorem hierarchicalKey_injective {hash : UInt64} {k k' : List UInt8}
    (h : hierarchicalKey hash k = hierarchicalKey hash k') : k = k' := List.append_cancel_left h

theorem natOfLE_take_natToLE {idx : ℕ} (h : idx < 2 ^ 32) : natOfLE ((natToLE 4 idx).take 4) = idx := by
  have htake : (natToLE 4 idx).take 4 = natToLE 4 idx := List.take_of_length_le length_natToLE.le
  rw [htake, natOfLE_natToLE, Nat.mod_eq_of_lt (by omega)]

theorem natToLE_injective {m n : ℕ} (hm : m < 2 ^ 32) (hn : n < 2 ^ 32)
    (h : natToLE 4 m = natToLE 4 n) : m = n := by
  rw [← natOfLE_take_natToLE hm, h, natOfLE_take_natToLE hn]

/-- The key of a slot. -/
def slotKey (hash : UInt64) (idx : ℕ) : List UInt8 := hierarchicalKey hash (natToLE 4 idx)

theorem slotKey_injective {hash : UInt64} {m n : ℕ} (hm : m < 2 ^ 32) (hn : n < 2 ^ 32)
    (h : slotKey hash m = slotKey hash n) : m = n :=
  natToLE_injective hm hn (hierarchicalKey_injective h)

theorem length_slotKey {hash : UInt64} {idx : ℕ} : (slotKey hash idx).length = 12 := by
  rw [slotKey, hierarchicalKey, List.length_append, length_natToLE, length_natToLE]

theorem length_slotKey_lt {hash : UInt64} {idx : ℕ} : (slotKey hash idx).length < 2 ^ 16 := by
  rw [length_slotKey]
  norm_num

theorem stored_slotKey {hash : UInt64} {idx : ℕ} {e : VlMsgPackElement} :
    VlMsgPackNode.stored ⟨slotKey hash idx, e⟩ = slotKey hash idx :=
  VlMsgPackNode.stored_eq length_slotKey_lt

/-- The document has no node with the key. -/
def VlMsgPack.Lacks (pack : VlMsgPack) (key : List UInt8) : Prop :=
  ∀ i n, pack.node i = some n → n.stored ≠ key

/-! ### The first pass -/

/-- A `NIL` of a new array. -/
def VlMsgPackElement.IsSlot (e : VlMsgPackElement) (iter : ℕ) : Prop :=
  e.type = .nil ∧ e.extType = vlMsgPackExtNone ∧ e.parent = iter

section FirstPass

variable {pack : VlMsgPack} {iter array x : ℕ} {np : VlMsgPackNode} {l₁ l₂ : List ℕ}

/-- **A `NIL` is inserted into a slot.** -/
theorem vlMsgPackInsertNil_spec (hn : pack.node iter = some np) (htype : np.element.type = .array)
    (hfirst : np.element.first = array) (hblock : pack.block array = some (.slots (l₁ ++ x :: l₂)))
    (hidx : l₁.length < 2 ^ 32) (hb : pack.values.broken = false)
    (hlacks : pack.Lacks (slotKey (vlHashMsgPackKey np.key) l₁.length))
    (hroom : pack.total < VlNodeTable.limit) :
    Returns (vlMsgPackInsertNil pack iter (natToLE 4 l₁.length)) fun r =>
      r.2.total = pack.total + 1 ∧ r.1 ≠ 0 ∧ pack.node r.1 = none ∧
      (∃ e, r.2.node r.1 = some ⟨slotKey (vlHashMsgPackKey np.key) l₁.length, e⟩ ∧ e.IsSlot iter) ∧
      (∀ i, i ≠ r.1 → r.2.node i = pack.node i) ∧
      r.2.block array = some (.slots (l₁ ++ r.1 :: l₂)) ∧
      (∀ q, q ≠ array → r.2.block q = pack.block q) ∧ r.2.values.broken = false := by
  obtain ⟨i, pack₁, hadd, hrun⟩ := vlMsgPackInsertWith_new hb hn (find_eq_zero hlacks) hroom
  let g : VlMsgPackElement → VlMsgPackElement := fun element =>
    { element with type := .nil, parent := iter, extType := vlMsgPackExtNone, first := 0 }
  have hself : (pack₁.edit i g).node i = some ⟨_, g default⟩ := VlMsgPack.node_edit_self hadd.node
  have hothers : ∀ j, j ≠ i → (pack₁.edit i g).node j = pack.node j := fun j hj =>
    (VlMsgPack.node_edit_of_ne hj).trans (hadd.others j hj)
  have hslots : (pack₁.edit i g).block array = some (.slots (l₁ ++ x :: l₂)) :=
    (hadd.block array).trans hblock
  refine ⟨(i, (pack₁.edit i g).setBlock array (.slots (l₁ ++ i :: l₂))), ?_, hadd.total, hadd.ne_zero,
    hadd.fresh, ⟨g default, hself, rfl, rfl, rfl⟩, hothers, VlMsgPack.block_setBlock_self _ hslots,
    fun q hq => (VlMsgPack.block_setBlock_of_ne hq).trans (hadd.block q), hadd.broken.trans hb⟩
  have hne : iter ≠ i := by
    rintro rfl
    exact Option.some_ne_none _ (hn.symm.trans hadd.fresh)
  rw [vlMsgPackInsertNil, hrun, vlMsgPackInitPlain, VlMsgPack.modify_eq hadd.node, ok_bind,
    vlMsgPackLinkChild, VlMsgPack.sample_eq ((hothers iter hne).trans hn), ok_bind]
  simp only [htype, hfirst, natOfLE_take_natToLE hidx]
  rw [VlMsgPack.setSlot_eq hslots]
  rfl

/-- The slots that are filled have their nodes, which are different. -/
structure VlMsgPack.Filled (pack : VlMsgPack) (iter : ℕ) (hash : UInt64) (is : List ℕ) : Prop where
  child : ∀ k i, is[k]? = some i → ∃ e, pack.node i = some ⟨slotKey hash k, e⟩ ∧ e.IsSlot iter
  nodup : is.Nodup

/-- **The first pass** fills the slots from an index on. -/
theorem vlMsgPackInitSlots_spec {left : ℕ} {l : List ℕ} (is : List ℕ) (hl : l.length = left)
    (hlen : is.length + left < 2 ^ 32) (hn : pack.node iter = some np)
    (htype : np.element.type = .array) (hfirst : np.element.first = array)
    (hblock : pack.block array = some (.slots (is ++ l))) (hb : pack.values.broken = false)
    (hfilled : pack.Filled iter (vlHashMsgPackKey np.key) is)
    (hlacks : ∀ idx, is.length ≤ idx → idx < is.length + left →
      pack.Lacks (slotKey (vlHashMsgPackKey np.key) idx))
    (hroom : pack.total + left ≤ VlNodeTable.limit) :
    Returns (vlMsgPackInitSlots iter left is.length pack) fun pack' =>
      ∃ js, js.length = left ∧ pack'.Filled iter (vlHashMsgPackKey np.key) (is ++ js) ∧
        pack'.block array = some (.slots (is ++ js)) ∧ (∀ j ∈ js, j ≠ 0 ∧ pack.node j = none) ∧
        (∀ i, i ∉ js → pack'.node i = pack.node i) ∧
        (∀ q, q ≠ array → pack'.block q = pack.block q) ∧ pack'.values.broken = false := by
  induction left generalizing pack is l with
  | zero =>
    obtain rfl : l = [] := List.length_eq_zero_iff.mp hl
    exact returns_ok ⟨[], rfl, by rwa [List.append_nil], hblock, fun _ h => absurd h List.not_mem_nil,
      fun _ _ => rfl, fun _ _ => rfl, hb⟩
  | succ left ih =>
    obtain ⟨x, l, rfl⟩ := List.exists_cons_of_length_pos (by omega : 0 < l.length)
    rw [vlMsgPackInitSlots]
    refine (vlMsgPackInsertNil_spec hn htype hfirst hblock (by omega) hb
      (hlacks _ le_rfl (by omega)) (by omega)).bind ?_
    rintro ⟨i, pack₁⟩ ⟨htotal, hne, hfresh, ⟨e, he, hslot⟩, hothers, hblock₁, hblocks₁, hb₁⟩
    have hiter : iter ≠ i := by
      rintro rfl
      exact Option.some_ne_none _ (hn.symm.trans hfresh)
    have hold : ∀ j n, pack.node j = some n → pack₁.node j = some n := fun j n hj => by
      rw [hothers j (by rintro rfl; exact Option.some_ne_none _ (hj.symm.trans hfresh)), hj]
    have hfilled₁ : pack₁.Filled iter (vlHashMsgPackKey np.key) (is ++ [i]) := by
      refine ⟨fun k j hj => ?_, ?_⟩
      · rcases Nat.lt_or_ge k is.length with hk | hk
        · rw [List.getElem?_append_left hk] at hj
          obtain ⟨e', he', hslot'⟩ := hfilled.child k j hj
          exact ⟨e', hold _ _ he', hslot'⟩
        · rw [List.getElem?_append_right hk] at hj
          obtain ⟨hk', rfl⟩ := List.getElem?_eq_some_iff.mp hj
          obtain rfl : k = is.length := by
            rw [List.length_singleton] at hk'
            omega
          simp only [Nat.sub_self, List.getElem_cons_zero]
          exact ⟨e, he, hslot⟩
      · refine List.nodup_append'.mpr ⟨hfilled.nodup, List.nodup_singleton i, ?_⟩
        refine List.disjoint_singleton.mpr fun hmem => ?_
        obtain ⟨k, hk⟩ := List.getElem?_of_mem hmem
        obtain ⟨e', he', -⟩ := hfilled.child k i hk
        exact Option.some_ne_none _ (he'.symm.trans hfresh)
    have hlen₁ : (is ++ [i]).length = is.length + 1 := by simp
    have hnext := ih (is ++ [i]) (by simpa using hl : l.length = left) (by omega)
      (hold _ _ hn) (by rw [hblock₁, List.append_assoc]; rfl) hb₁ hfilled₁ ?_
      (by rw [htotal]; omega)
    · rw [hlen₁] at hnext
      refine hnext.mono fun pack' ⟨js, hjs, hfilled', hblock', hnew, hothers', hblocks', hb'⟩ => ?_
      rw [List.append_assoc] at hfilled' hblock'
      refine ⟨i :: js, by rw [List.length_cons, hjs], hfilled', hblock', ?_, fun j hj => ?_,
        fun q hq => (hblocks' q hq).trans (hblocks₁ q hq), hb'⟩
      · refine List.forall_mem_cons.mpr ⟨⟨hne, hfresh⟩, fun j hj => ⟨(hnew j hj).1, ?_⟩⟩
        by_contra hsome
        obtain ⟨n, hsome⟩ := Option.ne_none_iff_exists'.mp hsome
        exact Option.some_ne_none _ ((hold j n hsome).symm.trans (hnew j hj).2)
      · rw [List.mem_cons, not_or] at hj
        exact (hothers' j hj.2).trans (hothers j hj.1)
    · intro idx hlo hhi j m hm hkey
      rw [hlen₁] at hlo hhi
      by_cases hj : j = i
      · rw [hj, he] at hm
        obtain rfl := Option.some_injective _ hm
        rw [stored_slotKey] at hkey
        have heq : is.length = idx := slotKey_injective (by omega) (by omega) hkey
        omega
      · rw [hothers j hj] at hm
        exact hlacks idx (by omega) (by omega) j m hm hkey

end FirstPass

/-! ### The second pass -/

/-- **The second pass** links the slots behind those that are linked. -/
theorem vlMsgPackLinkSlots_spec (is : List ℕ) {pack : VlMsgPack} {iter : ℕ} {np : VlMsgPackNode}
    {f : Forest DomEntry} (hn : pack.node iter = some np)
    (hf : DomLinked pack iter (vlHashMsgPackKey np.key) 0 0 f) (hproper : f.Proper)
    (hchild : ∀ k i, is[k]? = some i →
      ∃ e, pack.node i = some ⟨slotKey (vlHashMsgPackKey np.key) (f.length + k), e⟩ ∧ e.IsSlot iter)
    (honly : ∀ k i, is[k]? = some i → ∀ j m, pack.node j = some m →
      m.stored = slotKey (vlHashMsgPackKey np.key) (f.length + k) → j = i)
    (hnodup : (iter :: (f.iters ++ is)).Nodup) :
    Returns (vlMsgPackLinkSlots iter is.length f.length (f.lastIter 0) pack) fun pack' =>
      ∃ g : Forest DomEntry, g.iters = is ∧ g.blocks = [] ∧ g.roots.map DomEntry.iter = is ∧
        g.erase = slotsFrom is.length f.length ∧
        DomLinked pack' iter (vlHashMsgPackKey np.key) 0 0 (f ++ g) ∧
        pack.Relinks pack' (f.iters ++ is) := by
  induction is generalizing pack f with
  | nil =>
    refine returns_ok ⟨.nil, rfl, rfl, rfl, rfl, ?_, .refl⟩
    rwa [Forest.append_nil]
  | cons i is ih =>
    obtain ⟨hiter, hnodup⟩ := List.nodup_cons.mp hnodup
    obtain ⟨hf', his, hdisj⟩ := List.nodup_append'.mp hnodup
    obtain ⟨hi, his⟩ := List.nodup_cons.mp his
    rw [List.disjoint_cons_right] at hdisj
    obtain ⟨e, he, hslot⟩ := hchild 0 i rfl
    rw [Nat.add_zero] at he
    have hfind : pack.nodes.find (slotKey (vlHashMsgPackKey np.key) f.length) = i :=
      find_eq he rfl length_slotKey_lt fun j m hm hkey => honly 0 i rfl j m hm hkey
    obtain ⟨pack₁, hprev, hlinked₁, hr₁⟩ := relink_last (x := i) hf hproper
    have he₁ : pack₁.node i = _ := (hr₁.node i hdisj.1).trans he
    let a : DomEntry := ⟨i, 0, natToLE 4 f.length, .nil, vlMsgPackExtNone, []⟩
    let g : VlMsgPackElement → VlMsgPackElement := fun childElement =>
      { childElement with nextSibling := 0, prevSibling := f.lastIter 0 }
    have hr₂ : pack.Relinks (pack₁.edit i g) (f.iters ++ [i]) :=
      hr₁.trans (VlMsgPack.relinks_edit (List.mem_singleton_self i))
    have hlinked₂ : DomLinked (pack₁.edit i g) iter (vlHashMsgPackKey np.key) 0 0 (f ++ .cons a .nil .nil) := by
      refine domLinked_append.mpr ⟨hlinked₁.relinks (VlMsgPack.relinks_edit (List.mem_singleton_self i))
        (List.disjoint_singleton.mpr hdisj.1), ⟨g e, ?_⟩, domLinked_nil, domLinked_nil⟩
      exact ⟨VlMsgPack.node_edit_self he₁, hslot.2.2, rfl, rfl, hslot.1, hslot.2.1,
        .nil rfl rfl rfl rfl⟩
    have hproper₂ : (f ++ .cons a .nil .nil).Proper := by
      refine Forest.proper_append.mpr ⟨hproper, Forest.proper_single.mpr ⟨⟨List.nodup_nil,
        List.not_mem_nil, List.nodup_nil⟩, Store.ne_zero_of_get he, List.not_mem_nil,
        List.not_mem_nil⟩, ?_, ?_⟩
      · exact List.disjoint_singleton.mpr hdisj.1
      · exact List.disjoint_nil_right _
    have hlen : (f ++ .cons a .nil .nil).length = f.length + 1 := by simp
    have hlast : (f ++ .cons a .nil .nil).lastIter 0 = i := by simp [a]
    have hiters : (f ++ .cons a .nil .nil).iters = f.iters ++ [i] := by simp [a]
    have hiter₂ : (pack₁.edit i g).node iter = some np := by
      rw [hr₂.node iter fun hmem => hiter ?_, hn]
      rw [List.mem_append, List.mem_singleton] at hmem
      rcases hmem with hmem | rfl
      · exact List.mem_append_left _ hmem
      · exact List.mem_append_right _ List.mem_cons_self
    have hchild₂ : ∀ k j, is[k]? = some j → ∃ e, (pack₁.edit i g).node j = some
        ⟨slotKey (vlHashMsgPackKey np.key) ((f ++ .cons a .nil .nil).length + k), e⟩ ∧
          e.IsSlot iter := by
      intro k j hj
      obtain ⟨e', he', hslot'⟩ := hchild (k + 1) j hj
      have hmem : j ∈ is := List.mem_of_getElem? hj
      refine ⟨e', ?_, hslot'⟩
      rw [hr₂.node j ?_, he', hlen, Nat.add_assoc, Nat.add_comm 1]
      rw [List.mem_append, List.mem_singleton, not_or]
      exact ⟨fun h => hdisj.2 h hmem, fun h => hi (h ▸ hmem)⟩
    have honly₂ : ∀ k j, is[k]? = some j → ∀ j' m, (pack₁.edit i g).node j' = some m →
        m.stored = slotKey (vlHashMsgPackKey np.key) ((f ++ .cons a .nil .nil).length + k) →
          j' = j := by
      intro k j hj j' m hm hkey
      obtain ⟨m', hm', hkey'⟩ := hr₂.key j' m hm
      refine honly (k + 1) j hj j' m' hm' ((VlMsgPackNode.stored_congr hkey').trans (hkey.trans ?_))
      rw [hlen, Nat.add_assoc, Nat.add_comm 1]
    have hnodup₂ : (iter :: ((f ++ .cons a .nil .nil).iters ++ is)).Nodup := by
      rw [hiters, List.append_assoc]
      exact List.nodup_cons.mpr ⟨hiter, hnodup⟩
    obtain ⟨pack₂, hrun, g', hg₁, hg₂, hg₃, hg₄, hlinked, hr⟩ :=
      ih hiter₂ hlinked₂ hproper₂ hchild₂ honly₂ hnodup₂
    refine ⟨pack₂, ?_, .cons a .nil g', ?_, ?_, ?_, ?_, ?_, ?_⟩
    · rw [hlen, hlast] at hrun
      rw [List.length_cons, vlMsgPackLinkSlots, vlMsgPackFindChildIndexed, VlMsgPack.keyHash_eq hn,
        ok_bind]
      simp only [pure_eq_ok, ok_bind]
      have hfind' : pack.nodes.find (hierarchicalKey (vlHashMsgPackKey np.key)
        (natToLE 4 f.length)) = i := hfind
      rw [hfind', hprev, ok_bind, VlMsgPack.modify_eq he₁, ok_bind]
      exact hrun
    · rw [Forest.iters_cons, hg₁]
      rfl
    · rw [Forest.blocks_cons, hg₂]
      rfl
    · rw [Forest.roots_cons, List.map_cons, hg₃]
    · rw [Forest.erase_cons, hg₄, hlen]
      rfl
    · rwa [Forest.append_cons]
    · have hall := hr₂.trans hr
      refine ⟨fun j hj => hall.node j ?_, hall.key, hall.values⟩
      simp only [hiters, List.mem_append, List.mem_cons, List.not_mem_nil, or_false, not_or] at hj ⊢
      tauto

@[simp] theorem length_slotsFrom {left curIdx : ℕ} : (slotsFrom left curIdx).length = left := by
  induction left generalizing curIdx with
  | zero => rfl
  | succ left ih => rw [slotsFrom, Forest.length_cons, ih]

theorem keys_slotsFrom {left : ℕ} :
    (slotsFrom left 0).roots.map DomNode.key = (List.range left).map (natToLE 4) := by
  have hfrom : ∀ left idx, (slotsFrom left idx).roots.map DomNode.key =
      (List.range' idx left).map (natToLE 4) := by
    intro left
    induction left with
    | zero => exact fun _ => rfl
    | succ left ih =>
      intro idx
      rw [slotsFrom, Forest.roots_cons, List.map_cons, ih, List.range'_succ, List.map_cons]
  rw [hfrom, List.range_eq_range']

/-! ### Both passes -/

/-- The nodes of the slots are found by their keys. -/
theorem VlMsgPack.Filled.only {pack pack' : VlMsgPack} {iter i j k : ℕ} {hash : UInt64} {is : List ℕ}
    {m : VlMsgPackNode} (h : pack'.Filled iter hash is) (hlen : is.length < 2 ^ 32)
    (hothers : ∀ i, i ∉ is → pack'.node i = pack.node i)
    (hlacks : ∀ idx, idx < is.length → pack.Lacks (slotKey hash idx)) (hi : is[k]? = some i)
    (hm : pack'.node j = some m) (hkey : m.stored = slotKey hash k) : j = i := by
  obtain ⟨hk, -⟩ := List.getElem?_eq_some_iff.mp hi
  by_cases hj : j ∈ is
  · obtain ⟨k', hk'⟩ := List.getElem?_of_mem hj
    obtain ⟨hlt, -⟩ := List.getElem?_eq_some_iff.mp hk'
    obtain ⟨e, he, -⟩ := h.child k' j hk'
    rw [hm] at he
    obtain rfl := Option.some_injective _ he
    rw [stored_slotKey] at hkey
    obtain rfl : k' = k := slotKey_injective (by omega) (by omega) hkey
    exact Option.some_injective _ (hk'.symm.trans hi)
  · rw [hothers j hj] at hm
    exact absurd hkey (hlacks k hk j m hm)

section Both

variable {pack pack₁ pack₂ : VlMsgPack} {iter parent : ℕ} {key : List UInt8} {hash : UInt64}
  {extType : ℤ} {e₀ e₁ : VlMsgPackElement}

/-- Both passes over the slots of a new array, whose slot table is in its element already. -/
theorem slots_spec {array length : ℕ} {l : List ℕ} {np : VlMsgPackNode} (hl : l.length = length)
    (hlen : length < 2 ^ 32) (hn : pack.node iter = some np) (htype : np.element.type = .array)
    (hfirst : np.element.first = array) (harray : array = 0 ↔ length = 0)
    (hblock : array ≠ 0 → pack.block array = some (.slots l)) (hb : pack.values.broken = false)
    (hlacks : ∀ idx, idx < length → pack.Lacks (slotKey (vlHashMsgPackKey np.key) idx))
    (hroom : pack.total + length ≤ VlNodeTable.limit) :
    Returns (vlMsgPackInitSlots iter length 0 pack >>= vlMsgPackLinkSlots iter length 0 0) fun pack' =>
      ∃ g : Forest DomEntry, (iter :: g.iters).Nodup ∧ g.blocks = [] ∧
        g.roots.map DomEntry.iter = g.iters ∧ g.erase = slotsFrom length 0 ∧
        DomLinked pack' iter (vlHashMsgPackKey np.key) 0 0 g ∧
        (array ≠ 0 → pack'.block array = some (.slots g.iters)) ∧
        (∀ j ∈ g.iters, j ≠ 0 ∧ pack.node j = none) ∧
        (∀ i, i ∉ g.iters → pack'.node i = pack.node i) ∧
        (∀ q, q ≠ array → pack'.block q = pack.block q) ∧ pack'.values.broken = false := by
  rcases Nat.eq_zero_or_pos length with rfl | hpos
  · refine returns_ok ⟨.nil, List.nodup_singleton _, rfl, rfl, rfl, domLinked_nil, ?_, ?_, ?_, ?_, hb⟩
    · exact fun hne => absurd (harray.mpr rfl) hne
    · exact fun _ h => absurd h List.not_mem_nil
    · exact fun _ _ => rfl
    · exact fun _ _ => rfl
  have hne : array ≠ 0 := fun h => hpos.ne' (harray.mp h)
  have hempty : pack.Filled iter (vlHashMsgPackKey np.key) [] :=
    ⟨fun k i h => absurd (List.mem_of_getElem? h) List.not_mem_nil, List.nodup_nil⟩
  have hfirstPass := vlMsgPackInitSlots_spec [] hl (by simpa using hlen) hn htype hfirst
    (hblock hne) hb hempty (fun idx _ hidx => hlacks idx (by simpa using hidx)) hroom
  refine hfirstPass.bind fun pack₁ ⟨is, his, hfilled, hblock₁, hnew, hothers, hblocks, hb₁⟩ => ?_
  subst his
  have hiter : iter ∉ is := fun hmem => Option.some_ne_none _ (hn.symm.trans (hnew iter hmem).2)
  obtain ⟨pack₂, hrun, g, hg, hgblocks, hroots, herase, hlinked, hr⟩ :=
    vlMsgPackLinkSlots_spec (f := .nil) is ((hothers iter hiter).trans hn) domLinked_nil
      ⟨List.nodup_nil, List.not_mem_nil, List.nodup_nil⟩ (fun k i hi => by
        obtain ⟨e, he, hslot⟩ := hfilled.child k i hi
        exact ⟨e, by rwa [Forest.length_nil, Nat.zero_add], hslot⟩)
      (fun k i hi j m hm hkey => hfilled.only hlen hothers hlacks hi hm
        (by rwa [Forest.length_nil, Nat.zero_add] at hkey))
      (List.nodup_cons.mpr ⟨hiter, hfilled.nodup⟩)
  have hvalues : ∀ q, pack₂.block q = pack₁.block q := fun q => by
    rw [VlMsgPack.block, hr.values]
  subst hg
  refine ⟨pack₂, hrun, g, List.nodup_cons.mpr ⟨hiter, hfilled.nodup⟩, hgblocks, hroots, herase,
    hlinked, fun _ => (hvalues array).trans hblock₁, hnew, fun i hi => ?_,
    fun q hq => (hvalues q).trans (hblocks q hq), ?_⟩
  · exact (hr.node i hi).trans (hothers i hi)
  · rw [hr.values]
    exact hb₁

/-- **An array is initialised**, if the keys of its slots are new. -/
theorem vlMsgPackInitArray_spec {src : List UInt8} {dataLen : ℕ}
    (hn : pack.node iter = some ⟨hierarchicalKey hash key, e₀⟩) (hb : pack.values.broken = false)
    (hlacks : ∀ idx, idx < natOfLE (src.take 4) →
      pack.Lacks (slotKey (vlHashMsgPackKey (hierarchicalKey hash key)) idx))
    (hroom : pack.total + natOfLE (src.take 4) ≤ VlNodeTable.limit) :
    Returns (vlMsgPackInitNode .array extType parent (some src) dataLen pack iter) fun pack' =>
      ∃ a kids, a.iter = iter ∧ a.node.key = key ∧
        a.node.value.Made .array extType (some src) dataLen kids.erase ∧
        pack.Initialised pack' parent hash e₀ a kids := by
  set length := natOfLE (src.take 4)
  have hlen : length < 2 ^ 32 := by
    have htake : (src.take 4).length ≤ 4 := List.length_take_le _ _
    have hlt : length < 256 ^ (src.take 4).length := natOfLE_lt
    exact hlt.trans_le (Nat.pow_le_pow_right (by norm_num) htake)
  obtain ⟨array, values, halloc, harray, hfresh, hblock, hothers, hb₁⟩ :=
    memAlloc_spec (8 * length) (.slots (pack.values.garbageSlots length)) hb
  let g : VlMsgPackElement → VlMsgPackElement := fun element =>
    { element with type := .array, parent, extType, first := array, second := length }
  let pack₁ : VlMsgPack := ⟨pack.nodes, values, pack.root⟩
  have hn₁ : pack₁.node iter = some ⟨hierarchicalKey hash key, e₀⟩ := hn
  have hself : (pack₁.edit iter g).node iter = some ⟨hierarchicalKey hash key, g e₀⟩ :=
    VlMsgPack.node_edit_self hn₁
  have hlacks₁ : ∀ idx, idx < length → (pack₁.edit iter g).Lacks
      (slotKey (vlHashMsgPackKey (hierarchicalKey hash key)) idx) := by
    intro idx hidx i n hi
    obtain ⟨m, hm, hkey⟩ := VlMsgPack.node_of_edit hi
    rw [← VlMsgPackNode.stored_congr hkey]
    exact hlacks idx hidx i m hm
  have hzero : array = 0 ↔ length = 0 := harray.trans (by omega)
  have hslots := slots_spec length_garbageSlots hlen hself rfl rfl hzero hblock hb₁ hlacks₁ hroom
  have hrun : vlMsgPackInitNode .array extType parent (some src) dataLen pack iter =
      vlMsgPackInitSlots iter length 0 (pack₁.edit iter g) >>= vlMsgPackLinkSlots iter length 0 0 := by
    rw [vlMsgPackInitNode, Option.map_some, deref_some, ok_bind, halloc, ok_bind]
    change VlMsgPack.modify pack₁ iter g >>= _ = _
    rw [VlMsgPack.modify_eq hn₁, ok_bind]
  rw [hrun]
  refine hslots.mono fun pack' ⟨kids, hnodup, hblocks, hroots, herase, hlinked, hslots', hnew, hkept,
    hblocks', hb'⟩ => ?_
  obtain ⟨hiter, hnodup⟩ := List.nodup_cons.mp hnodup
  have hlength : kids.length = length := by
    have hcount : kids.erase.length = (slotsFrom length 0).length := congrArg Forest.length herase
    rwa [Forest.erase, Forest.length_map, length_slotsFrom] at hcount
  refine ⟨⟨iter, array, key, .array, extType, []⟩, kids, rfl, rfl,
    ⟨rfl, rfl, rfl, by rw [herase, if_pos rfl]; rfl⟩, ?_, ?_, ?_, hb'⟩
  · refine ⟨⟨g e₀, (hkept iter hiter).trans hself, rfl, rfl, rfl, rfl, rfl, ?_⟩, hlinked, domLinked_nil⟩
    refine .array rfl rfl rfl hlength.symm (by rwa [hlength]) ?_ (by rwa [hlength]) ?_
    · rw [hlength, ← keys_slotsFrom, ← herase, Forest.erase, Forest.roots_map, List.map_map]
      rfl
    · intro hne
      rw [hroots]
      exact hslots' hne
  · refine Forest.proper_single.mpr ⟨⟨hnodup, fun hmem => (hnew 0 hmem).1 rfl, ?_⟩,
      Store.ne_zero_of_get hn, hiter, ?_⟩
    · rw [hblocks]
      exact List.nodup_nil
    · rw [hblocks]
      exact List.not_mem_nil
  · have hmem : ∀ i, i ∈ (Forest.cons ⟨iter, array, key, .array, extType, []⟩ kids .nil).iters ↔
        i = iter ∨ i ∈ kids.iters := by simp
    have hmem' : ∀ q, q ∈ (Forest.cons ⟨iter, array, key, .array, extType, []⟩ kids .nil).blocks ↔
        q = array ∧ array ≠ 0 := by simp [hblocks]
    refine ⟨⟨fun i n hi h => ?_, fun i hi h => ?_, fun q b hq h => ?_, fun q hq _ => ?_⟩,
      fun i n hi h => ?_⟩
    · have hne : i ≠ iter := by simpa using hi
      rw [hkept i fun hi => ?_, VlMsgPack.node_edit_of_ne hne]
      · exact h
      · have hnone := (hnew i hi).2
        rw [VlMsgPack.node_edit_of_ne hne] at hnone
        exact Option.some_ne_none _ (h.symm.trans hnone)
    · have hne : i ≠ iter := by simpa using h
      have hnone := (hnew i (((hmem i).mp hi).resolve_left hne)).2
      rwa [VlMsgPack.node_edit_of_ne hne] at hnone
    · have hne : q ≠ array := by
        rintro rfl
        exact Option.some_ne_none _ (h.symm.trans hfresh)
      exact (hblocks' q hne).trans ((hothers q hne).trans h)
    · rw [((hmem' q).mp hq).1]
      exact hfresh
    · rw [hmem, not_or] at hi
      rw [hkept i hi.2, VlMsgPack.node_edit_of_ne hi.1] at h
      exact ⟨by simpa using hi.1, h⟩

end Both

end VeritableLasagna
