import VeritableLasagna.Dom.Edits
import VeritableLasagna.Dom.Items
import VeritableLasagna.MsgPack.Serial

/-!
# A document is written

`vlMsgPackIOEncodeFromDOM` writes the items of the tree of a node (`vlMsgPackIOEncodeRounds_spec`). The
induction is on the forest of its children: what is written for a node comes before what is written for
the next one, and each counts in the container that is open.
-/

namespace VeritableLasagna

open Forest VlMsgPackEncoder

section Get

variable {pack : VlMsgPack} {parent prev next : ℕ} {hash : UInt64} {a : DomEntry} {kids : Forest DomEntry}
  {e : VlMsgPackElement}

theorem DomEntry.Stored.ne_zero (he : a.Stored pack parent hash prev next kids e) : a.iter ≠ 0 :=
  Store.ne_zero_of_get he.get

theorem DomEntry.Stored.type_eq (he : a.Stored pack parent hash prev next kids e) :
    vlMsgPackType pack a.iter = .ok a.node.value.type := by
  rw [vlMsgPackType, VlMsgPack.sample_eq he.get, ok_bind, ← he.type]
  rfl

/-- **The value of a leaf**, read as the number it is. -/
theorem DomEntry.Stored.get_eq (he : a.Stored pack parent hash prev next kids e) (default : ℕ) {n : ℕ}
    (hlen : a.node.value.payload.length = n) (hpos : 0 < n) :
    vlMsgPackGet pack a.iter a.node.value.type n default = .ok (natOfLE a.node.value.payload) := by
  have hne : a.node.value.payload ≠ [] := List.length_pos_iff.mp (hlen ▸ hpos)
  rw [vlMsgPackGet, if_neg he.ne_zero, he.type_eq, ok_bind, if_neg (not_not.mpr rfl), he.sampleValue,
    if_neg hne, ok_bind]
  change (if n ≤ a.node.value.payload.length then _ else _) = _
  rw [if_pos hlen.ge, ← hlen, List.take_length]
  rfl

/-- The value of a leaf, with its size. -/
theorem DomEntry.Stored.sizedValue_eq (he : a.Stored pack parent hash prev next kids e) {size : ℕ → ℕ}
    (hne : a.node.value.payload ≠ []) : vlMsgPackSizedValue pack a.iter size =
      .ok (some a.node.value.payload, a.node.value.payload.length) := by
  rw [vlMsgPackSizedValue, he.sampleValue, if_neg hne]
  rfl

/-- The key of a node, behind the hash. -/
theorem DomEntry.Stored.sampleKey (he : a.Stored pack parent hash prev next kids e)
    (hshort : (hierarchicalKey hash a.node.key).length < 2 ^ 16) :
    vlMsgPackSampleKey pack a.iter = .ok a.node.key := by
  have hget : pack.nodes.store.get a.iter = _ := he.get
  have hstored : (⟨hierarchicalKey hash a.node.key, e⟩ : VlMsgPackNode).stored =
      hierarchicalKey hash a.node.key := VlMsgPackNode.stored_eq hshort
  have hhash : (natToLE 8 hash.toNat).length = 8 := length_natToLE
  have hlen : ¬ (hierarchicalKey hash a.node.key).length < 8 := by
    rw [hierarchicalKey, List.length_append, hhash]
    omega
  rw [vlMsgPackSampleKey, hget]
  change (if _ < 8 then _ else _) = _
  rw [hstored, if_neg hlen, hierarchicalKey, List.drop_left' hhash]
  rfl

end Get

/-! ### Leaves -/

section Leaves

variable {pack : VlMsgPack} {size : ℕ → ℕ} {parent prev next rounds : ℕ} {hash : UInt64} {a : DomEntry}
  {kids : Forest DomEntry} {e : VlMsgPackElement} {enc : VlMsgPackEncoder}

/-- The call that writes a leaf, unless it is an extension. -/
theorem vlMsgPackIOEncodeRounds_call (he : a.Stored pack parent hash prev next kids e)
    (hplain : a.node.value.Plain) (hleaf : ¬ a.node.value.type.IsContainer)
    (hext : a.node.value.type ≠ .ext) {children : ℕ} :
    ∃ call : MsgPackCall, call.item = some (a.node.value.item children) ∧
      vlMsgPackIOEncodeRounds size pack (rounds + 1) enc a.iter = vlMsgPackIOEncode enc call := by
  obtain ⟨-, hpayload⟩ := hplain
  have hfits {k n : ℕ} (hk : 2 ^ k = 256 ^ n) (hlen : a.node.value.payload.length = n) :
      natOfLE a.node.value.payload % 2 ^ k = natOfLE a.node.value.payload := by
    rw [hk, ← hlen]
    exact Nat.mod_eq_of_lt natOfLE_lt
  rw [vlMsgPackIOEncodeRounds, he.type_eq, ok_bind, DomValue.item]
  cases htype : a.node.value.type <;> rw [htype] at hpayload <;> dsimp only at hpayload ⊢
  case array => exact absurd (Or.inr htype) hleaf
  case map => exact absurd (Or.inl htype) hleaf
  case ext => exact absurd htype hext
  case nil => exact ⟨.nil, rfl, rfl⟩
  case bool =>
    have hlen : a.node.value.payload.length = 1 := hpayload.elim (congrArg _) (congrArg _)
    have hget := he.get_eq false.toNat hlen Nat.one_pos
    rw [htype] at hget
    refine ⟨.bool (natOfLE a.node.value.payload ≠ 0), rfl, ?_⟩
    rw [vlMsgPackGetBool, hget]
    rfl
  case int =>
    have hget := he.get_eq (0 : Int64).toUInt64.toNat hpayload (by norm_num)
    rw [htype] at hget
    refine ⟨.int (Int64.ofInt (natOfLE a.node.value.payload)), ?_, ?_⟩
    · rw [MsgPackCall.item, Int64.toInt_ofInt]
      rfl
    · rw [vlMsgPackGetInt, hget]
      rfl
  case uint =>
    have hget := he.get_eq (0 : UInt64).toNat hpayload (by norm_num)
    rw [htype] at hget
    refine ⟨.uint (UInt64.ofNat (natOfLE a.node.value.payload)), ?_, ?_⟩
    · rw [MsgPackCall.item, UInt64.toNat_ofNat', hfits (by norm_num) hpayload]
    · rw [vlMsgPackGetUInt, hget]
      rfl
  case float32 =>
    have hget := he.get_eq (0 : UInt32).toNat hpayload (by norm_num)
    rw [htype] at hget
    refine ⟨.float32 (UInt32.ofNat (natOfLE a.node.value.payload)), ?_, ?_⟩
    · rw [MsgPackCall.item, UInt32.toNat_ofNat', hfits (by norm_num) hpayload]
    · rw [vlMsgPackGetFloat32, hget]
      rfl
  case float64 =>
    have hget := he.get_eq (0 : UInt64).toNat hpayload (by norm_num)
    rw [htype] at hget
    refine ⟨.float64 (UInt64.ofNat (natOfLE a.node.value.payload)), ?_, ?_⟩
    · rw [MsgPackCall.item, UInt64.toNat_ofNat', hfits (by norm_num) hpayload]
    · rw [vlMsgPackGetFloat64, hget]
      rfl
  case string =>
    refine ⟨.string a.node.value.payload, if_pos hpayload.2, ?_⟩
    rw [he.sizedValue_eq hpayload.1, ok_bind, Nat.mod_eq_of_lt hpayload.2]
    rfl
  case binary =>
    refine ⟨.binary a.node.value.payload, if_pos hpayload.2, ?_⟩
    rw [he.sizedValue_eq hpayload.1, ok_bind, Nat.mod_eq_of_lt hpayload.2]
    rfl

/-- **A leaf** is written as its item. -/
theorem vlMsgPackIOEncodeRounds_leaf (he : a.Stored pack parent hash prev next kids e)
    (hplain : a.node.value.Plain) (hleaf : ¬ a.node.value.type.IsContainer) (h : enc.buffer.WellFormed)
    {children : ℕ} :
    Serves (vlMsgPackIOEncodeRounds size pack (rounds + 1) enc a.iter) fun enc' =>
      ∃ bs, (vlMsgPackEncodeIncrement enc).Appended bs enc' ∧
        Chunked MsgPackItem.Written bs [a.node.value.item children] := by
  by_cases hext : a.node.value.type = .ext
  · obtain ⟨-, hpayload⟩ := hplain
    rw [hext] at hpayload
    obtain ⟨-, hlo, hhi, hlength, hshort⟩ := hpayload
    have hne : a.node.value.payload ≠ [] := by
      intro hnil
      rw [hnil] at hlength
      cases hlength
    have hlen : a.node.value.payload.length < 2 ^ 32 := by omega
    have hread : vlMsgPackExtType pack a.iter = .ok a.node.value.extType := by
      rw [vlMsgPackExtType, VlMsgPack.sample_eq he.get, ok_bind, ← he.extType]
      rfl
    have hint : (Int8.ofInt a.node.value.extType).toInt = a.node.value.extType :=
      Int8.toInt_ofInt_of_le hlo hhi
    rw [vlMsgPackIOEncodeRounds, he.type_eq, ok_bind, hext]
    dsimp only
    rw [hread, ok_bind, he.sizedValue_eq hne, ok_bind, Nat.mod_eq_of_lt hlen]
    refine (vlMsgPackIOEncodeExt_spec h (Or.inl rfl)).mono fun enc' happ => ⟨_, happ, ?_⟩
    have hreadable : MsgPackItem.Readable
        (msgPackExtBytes (Int8.ofInt a.node.value.extType) a.node.value.payload) _ :=
      readable_extBytes hlength hshort
    rw [hint] at hreadable
    rw [DomValue.item, hext]
    exact Chunked.single ⟨rfl, hreadable⟩
  · have hcall : ∃ call : MsgPackCall, call.item = some (a.node.value.item children) ∧
        vlMsgPackIOEncodeRounds size pack (rounds + 1) enc a.iter = vlMsgPackIOEncode enc call :=
      vlMsgPackIOEncodeRounds_call he hplain hleaf hext
    obtain ⟨call, hitem, hcall⟩ := hcall
    rw [hcall]
    refine (vlMsgPackIOEncode_written h hitem).mono ?_
    rintro enc' ⟨bs, happ, hwritten⟩
    exact ⟨bs, happ, Chunked.single hwritten⟩

end Leaves

/-! ### Trees -/

section Trees

variable {pack : VlMsgPack} {size : ℕ → ℕ} {parent prev next rounds r : ℕ} {hash : UInt64} {a : DomEntry}
  {f kids : Forest DomEntry} {e : VlMsgPackElement} {enc : VlMsgPackEncoder} {isMap : Bool}

/-- **A node that can be written**: it is regular, its first child is found, and it has few children. -/
structure DomEntry.Writable (pack : VlMsgPack) (a : DomEntry) (kids : Forest DomEntry) : Prop where
  regular : a.node.Regular kids.erase
  firstChild : vlMsgPackFirstChild pack a.iter = .ok (kids.firstIter 0)
  length : kids.length < pack.rounds

/-- The items of the children are written, and count in the container that is open. -/
def WritesForest (pack : VlMsgPack) (size : ℕ → ℕ) (r : ℕ) (f : Forest DomEntry) : Prop :=
  ∀ {isMap : Bool} {rounds : ℕ} {enc : VlMsgPackEncoder}, f.length < rounds → enc.buffer.WellFormed →
    Serves (vlMsgPackIOEncodeChildren (vlMsgPackIOEncodeRounds size pack r) pack isMap rounds
      (f.firstIter 0) enc) fun enc' =>
        ∃ bs, ((vlMsgPackEncodeIncrement)^[(if isMap then 2 else 1) * f.length] enc).Appended bs enc' ∧
          Chunked MsgPackItem.Written bs (f.erase.items isMap)

/-- **A container** is written as its header, and the items of its children. -/
theorem writesForest_container (isArray : Bool) (hkids : WritesForest pack size r kids)
    (hlength : kids.length < pack.rounds) (h : enc.buffer.WellFormed) :
    Serves (vlMsgPackEncodePush (vlMsgPackEncodeIncrement enc) isArray >>= fun enc => do
      let enc ← vlMsgPackIOEncodeChildren (vlMsgPackIOEncodeRounds size pack r) pack (!isArray)
        pack.rounds (kids.firstIter 0) enc
      vlMsgPackIOEncode enc (if isArray then .arrayEnd else .mapEnd)) fun enc' =>
        ∃ bs, (vlMsgPackEncodeIncrement enc).Appended bs enc' ∧ Chunked MsgPackItem.Written bs
          (msgPackContainer isArray kids.length :: kids.erase.items (!isArray)) := by
  have hlimit : pack.total ≤ 1717986918 := pack.total_le
  have hfew : kids.length < 2 ^ 31 := by
    rw [VlMsgPack.rounds, ← VlMsgPack.total] at hlength
    omega
  have hcount : msgPackCount isArray ((if (!isArray) = true then 2 else 1) * kids.length) = kids.length := by
    cases isArray with
    | true => exact Nat.one_mul _
    | false => exact Nat.mul_div_cancel_left _ Nat.two_pos
  have hbound : (if (!isArray) = true then 2 else 1) * kids.length < 2 ^ 32 := by
    split_ifs <;> omega
  have heven : isArray = false → (if (!isArray) = true then 2 else 1) * kids.length % 2 = 0 := by
    rintro rfl
    exact Nat.mul_mod_right 2 _
  have hcontainer := vlMsgPackIOEncode_contained isArray h heven fun enc henc => hkids hlength henc
  rw [Nat.mod_eq_of_lt hbound, hcount] at hcontainer
  refine hcontainer.mono ?_
  rintro enc' ⟨content, happ, hcontent⟩
  have hheader : MsgPackItem.Encodes (msgPackContainerHeader isArray kids.length) _ :=
    encodes_container (by omega)
  refine ⟨_, happ, Chunked.cons ⟨bytes_container.symm, hheader.readable fun type bs heq => ?_⟩ hcontent⟩
  cases isArray <;> cases heq

/-- **A node is written** as the items of its tree, when its children are. -/
theorem vlMsgPackIOEncodeRounds_node (he : a.Stored pack parent hash prev next kids e)
    (hwritable : a.Writable pack kids) (hkids : WritesForest pack size r kids)
    (h : enc.buffer.WellFormed) :
    Serves (vlMsgPackIOEncodeRounds size pack (r + 1) enc a.iter) fun enc' =>
      ∃ bs, (vlMsgPackEncodeIncrement enc).Appended bs enc' ∧
        Chunked MsgPackItem.Written bs ((Forest.cons a.node kids.erase nil).items false) := by
  have hlength : kids.erase.length = kids.length := length_map
  rw [items_single, hlength]
  by_cases harray : a.node.value.type = .array
  · have hcontainer := writesForest_container true hkids hwritable.length h
    rw [vlMsgPackIOEncodeRounds, he.type_eq, ok_bind, harray, DomValue.item, harray]
    dsimp only
    simp only [hwritable.firstChild, ok_bind]
    exact hcontainer
  by_cases hmap : a.node.value.type = .map
  · have hcontainer := writesForest_container false hkids hwritable.length h
    rw [vlMsgPackIOEncodeRounds, he.type_eq, ok_bind, hmap, DomValue.item, hmap]
    dsimp only
    simp only [hwritable.firstChild, ok_bind]
    exact hcontainer
  · have hleaf : ¬ a.node.value.type.IsContainer := fun hcontainer => hcontainer.elim hmap harray
    rw [hwritable.regular.leaf hleaf]
    exact vlMsgPackIOEncodeRounds_leaf he hwritable.regular.plain hleaf h

/-- The key of a child is written in front of it, in a map. -/
theorem vlMsgPackIOEncode_key (he : a.Stored pack parent hash prev next kids e)
    (hshort : a.node.key.length + 8 < 2 ^ 16) (h : enc.buffer.WellFormed) (isMap : Bool) :
    Serves (if isMap then do
        let keyStr ← vlMsgPackSampleKey pack a.iter
        vlMsgPackIOEncodeStringLen enc (some keyStr) (keyStr.length % 2 ^ 32)
      else .ok enc) fun enc' =>
        ∃ bs, ((vlMsgPackEncodeIncrement)^[if isMap then 1 else 0] enc).Appended bs enc' ∧
          Chunked MsgPackItem.Written bs (if isMap then [.str a.node.key] else []) := by
  cases isMap with
  | false => exact serves_ok ⟨[], ⟨h, (List.append_nil _).symm, rfl, rfl⟩, chunked_nil.mpr rfl⟩
  | true =>
    have hlen : (hierarchicalKey hash a.node.key).length < 2 ^ 16 := by
      rw [hierarchicalKey, List.length_append, length_natToLE]
      omega
    have hmod : a.node.key.length % 2 ^ 32 = a.node.key.length := Nat.mod_eq_of_lt (by omega)
    have hitem : (MsgPackCall.string a.node.key).item = some (.str a.node.key) := if_pos (by omega)
    rw [if_pos rfl, if_pos rfl, if_pos rfl, he.sampleKey hlen, ok_bind, hmod]
    refine (vlMsgPackIOEncode_written h hitem).mono ?_
    rintro enc' ⟨bs, happ, hwritten⟩
    exact ⟨bs, happ, Chunked.single hwritten⟩

/-- **The children of a node are written.** -/
theorem DomLinked.writesForest (h : DomLinked pack parent hash prev 0 f)
    (hwritable : f.All (DomEntry.Writable pack)) (hdepth : f.depth ≤ r) : WritesForest pack size r f := by
  induction f generalizing parent hash prev r with
  | nil =>
    intro isMap rounds enc hlength hwf
    obtain ⟨rounds, rfl⟩ := Nat.exists_eq_succ_of_ne_zero (Nat.ne_of_gt hlength)
    exact serves_ok ⟨[], ⟨hwf, (List.append_nil _).symm, rfl, rfl⟩, chunked_nil.mpr rfl⟩
  | cons a kids rest ih₁ ih₂ =>
    intro isMap rounds enc hlength hwf
    obtain ⟨⟨e, he⟩, hkids, hrest⟩ := domLinked_cons.mp h
    obtain ⟨hnode, hwkids, hwrest⟩ := all_cons.mp hwritable
    rw [depth] at hdepth
    rw [length_cons] at hlength ⊢
    obtain ⟨rounds, rfl⟩ : ∃ n, rounds = n + 1 := ⟨rounds - 1, by omega⟩
    obtain ⟨r', rfl⟩ : ∃ n, r = n + 1 := ⟨r - 1, by omega⟩
    have hnext : vlMsgPackNextSibling pack a.iter = .ok (rest.firstIter 0) := by
      rw [vlMsgPackNextSibling, VlMsgPack.sample_eq he.get, ok_bind, ← he.next]
      rfl
    rw [Forest.firstIter_cons, vlMsgPackIOEncodeChildren, if_neg he.ne_zero, erase_cons, items_cons]
    have hcount : (if isMap then 2 else 1) * (rest.length + 1) =
        (if isMap then 1 else 0) + (1 + (if isMap then 2 else 1) * rest.length) := by
      split_ifs <;> omega
    rw [hcount]
    refine chunked_bind (vlMsgPackIOEncode_key he hnode.regular.short hwf isMap) fun enc₁ hwf₁ => ?_
    refine chunked_bind (n := 1) (vlMsgPackIOEncodeRounds_node he hnode (ih₁ hkids hwkids (by omega)) hwf₁)
      fun enc₂ hwf₂ => ?_
    rw [hnext, ok_bind]
    exact ih₂ hrest hwrest (by omega) (by omega) hwf₂

end Trees

end VeritableLasagna
