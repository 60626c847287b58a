import VeritableLasagna.Dom.Items

/-!
# Trees are read back

`readValue` reads the tree that a text stands for (`readValue_reads`), and fails when the text is cut short
(`readValue_cut`). The induction is on the rounds, and inside of it on the children of a container: those
that are read are in front, and in an array the slots of the others are behind them.
-/

namespace VeritableLasagna

open Forest VlMsgPackDecoder

variable {used : List (List UInt8)} {stack : ℕ → VlMsgPackIOToken} {p : DomPlace} {a : DomNode}
  {kids rest ks todo done : Forest DomNode} {decoder decoder' : VlMsgPackDecoder} {bs : List UInt8}
  {read : DomReader} {rounds n : ℕ}

/-- **A tree fits** among the children of a place: an array has a slot for it, no empty leaf is below the
child that is overwritten, the keys of its containers are among those that the hash tells apart, and there
is room. -/
structure DomPlace.Receives (used : List (List UInt8)) (p : DomPlace) (ks : Forest DomNode) (a : DomNode)
    (kids : Forest DomNode) : Prop where
  slot : p.isArray = true → a.key ∈ ks.roots.map DomNode.key
  hollow : (ks.under a.key).hollow = false
  containers : ∀ K ∈ (cons a kids nil).containers p.hash, K ∈ used
  room : p.outside + (ks.place a kids).labels.length ≤ VlNodeTable.limit

/-- **Trees fit** below a node that is new: the keys of their containers are among those that the hash tells
apart, and there is room. -/
structure DomPlace.Holds (used : List (List UInt8)) (p : DomPlace) (f : Forest DomNode) : Prop where
  containers : ∀ K ∈ f.containers p.hash, K ∈ used
  room : p.outside + f.labels.length ≤ VlNodeTable.limit

/-! ### The children of a container -/

/-- The keys of the children of an array, before and at one. -/
theorem keys_of_range {f g : Forest DomNode} (hlen : (f ++ cons a kids g).length ≤ 2 ^ 32)
    (hkeys : (f ++ cons a kids g).roots.map DomNode.key =
      (List.range (f ++ cons a kids g).length).map (natToLE 4)) :
    a.key = natToLE 4 f.length ∧ ∀ b ∈ f.roots, b.key ≠ a.key := by
  have hnodup : ((f ++ cons a kids g).roots.map DomNode.key).Nodup := hkeys ▸ nodup_slotKeys hlen
  rw [roots_append, roots_cons, List.map_append, List.map_cons, List.nodup_append'] at hnodup
  refine ⟨?_, fun b hb heq => hnodup.2.2 (List.mem_map_of_mem hb) (heq ▸ List.mem_cons_self)⟩
  have hget := congrArg (·[f.length]?) hkeys
  rw [roots_append, roots_cons, List.map_append, List.map_cons, length_append, length_cons] at hget
  simp only [List.getElem?_map] at hget
  rw [List.getElem?_append_right (by rw [List.length_map, length_roots]), List.length_map, length_roots,
    Nat.sub_self, List.getElem?_cons_zero, List.getElem?_range (by omega), Option.map_some] at hget
  exact Option.some_injective _ hget

theorem DomPlace.Holds.containers_of_mem (h : p.Holds used (done ++ cons a kids rest)) {K : List UInt8}
    (hK : K ∈ (cons a kids nil).containers p.hash) : K ∈ used := by
  refine h.containers K ?_
  rw [containers_append, List.mem_append, mem_containers_cons]
  rw [mem_containers_cons] at hK
  exact Or.inr (hK.imp_right fun hK => Or.inl (hK.resolve_right List.not_mem_nil))

/-- **The next slot of an array** takes the next of its children. -/
theorem DomPlace.Holds.slot (h : p.Holds used (done ++ cons a kids rest))
    (hkeys : (done ++ cons a kids rest).roots.map DomNode.key =
      (List.range (done ++ cons a kids rest).length).map (natToLE 4)) :
    a.key = natToLE 4 done.length ∧
      (∀ g, (done ++ slotsFrom (rest.length + 1) done.length).place a g =
        done ++ cons a g nil ++ slotsFrom rest.length (done.length + 1)) ∧
      p.Receives used (done ++ slotsFrom (rest.length + 1) done.length) a kids := by
  have hroom := h.room
  have hlimit : VlNodeTable.limit < 2 ^ 32 := by rw [VlNodeTable.limit]; norm_num
  have hle := length_le_length_labels (f := done ++ cons a kids rest)
  obtain ⟨hkey, hnew⟩ := keys_of_range (by omega) hkeys
  have hslots : slotsFrom (rest.length + 1) done.length =
      cons ⟨natToLE 4 done.length, ⟨.nil, vlMsgPackExtNone, []⟩⟩ nil
        (slotsFrom rest.length (done.length + 1)) := rfl
  have hplace : ∀ g, (done ++ slotsFrom (rest.length + 1) done.length).place a g =
      done ++ cons a g nil ++ slotsFrom rest.length (done.length + 1) := fun g => by
    rw [hslots, place_replace hnew hkey.symm, append_cons]
  refine ⟨hkey, hplace, fun _ => ?_, ?_, fun K hK => h.containers_of_mem hK, ?_⟩
  · rw [hslots, roots_append, roots_cons, List.map_append, List.map_cons, hkey]
    exact List.mem_append_right _ List.mem_cons_self
  · rw [hslots, under_replace hnew hkey.symm]
    rfl
  · have hfew := length_le_length_labels (f := rest)
    rw [append_cons, labels_append, List.length_append] at hroom
    rw [hplace, labels_append, List.length_append, length_labels_slotsFrom]
    omega

/-- **A map** takes a child under a new key. -/
theorem DomPlace.Holds.append (h : p.Holds used (done ++ cons a kids rest)) (hmap : p.isArray = false)
    (hkeys : ((done ++ cons a kids rest).roots.map DomNode.key).Nodup) :
    (∀ g, done.place a g = done ++ cons a g nil) ∧ p.Receives used done a kids := by
  have hnew : ∀ b ∈ done.roots, b.key ≠ a.key := by
    rw [roots_append, roots_cons, List.map_append, List.map_cons, List.nodup_append'] at hkeys
    exact fun b hb heq => hkeys.2.2 (List.mem_map_of_mem hb) (heq ▸ List.mem_cons_self)
  have hroom := h.room
  refine ⟨fun g => place_append hnew, fun harray => ?_, ?_, fun K hK => h.containers_of_mem hK, ?_⟩
  · exact absurd (hmap.symm.trans harray) Bool.false_ne_true
  · rw [under_eq_nil hnew]
    rfl
  · rw [append_cons, labels_append, List.length_append] at hroom
    rw [place_append hnew]
    omega

/-- The key of a pair, as its token has it. -/
theorem payload_key {tk : VlMsgPackIOToken} {key : List UInt8} (hitem : tk.item decoder.srcMem = .str key)
    (hin : tk.Inside decoder.srcLen) :
    tk.type = .string ∧ (decoder.advance n).payload tk.ptr tk.length = .ok key := by
  obtain ⟨htype, hkey⟩ := VlMsgPackIOToken.of_item_str hitem
  rw [VlMsgPackIOToken.Inside, htype] at hin
  have hsource : tk.ptr + tk.length ≤ (decoder.advance n).srcLen := hin
  refine ⟨htype, ?_⟩
  rw [payload_eq hsource]
  exact congrArg Except.ok hkey

/-! ### A node -/

/-- **What is read behind the item of a node**: the children of a container, in a place where they fit. -/
theorem readValue_node (hregular : a.Regular kids) (hreceives : p.Receives used ks a kids)
    {tk : VlMsgPackIOToken} {m : ℕ}
    (hnext : vlMsgPackIODecoderNext decoder (stack decoder.srcOffset) = .ok (true, decoder.advance m, tk))
    (hitem : tk.item decoder.srcMem = a.value.item kids.length) (hin : tk.Inside decoder.srcLen) :
    ∃ p' : DomPlace, p'.isArray = decide (a.value.type = .array) ∧ p'.Holds used kids ∧
      readValue used stack (rounds + 1) p ks decoder a.key =
        if a.value.type = .array then
          (readElements (readValue used stack rounds p') kids.length 0 (slotsFrom kids.length 0)
            (decoder.advance m)).map (DomRead.map fun kids => (a, kids))
        else if a.value.type = .map then
          (readPairs stack (readValue used stack rounds p') kids.length nil (decoder.advance m)).map
            (DomRead.map fun kids => (a, kids))
        else some (.done (a, nil) (decoder.advance m)) := by
  obtain ⟨base, hbase⟩ := exists_length_labels_place ks a
  have hroom := hreceives.room
  rw [hbase] at hroom
  have hcount : kids.length < 2 ^ 32 := by
    have hle := length_le_length_labels (f := kids)
    have hlimit : VlNodeTable.limit < 2 ^ 32 := by rw [VlNodeTable.limit]; norm_num
    omega
  -- the insertion that the token asks for
  generalize ho : (a.value.item kids.length).insertion 0 a.key = o
  have hins : (decoder.advance m).insertion tk 0 a.key = .ok o := by
    have hinside : tk.Inside (decoder.advance m).srcLen := hin
    rw [insertion_eq hinside, ← ho, ← hitem]
    rfl
  have htype : o.type = a.value.type := ho ▸ DomValue.type_item
  have hkey : o.key = a.key := ho ▸ MsgPackItem.key_insertion
  have hnode : o.node = a := ho ▸ hregular.plain.node_item
  have hbelow : o.below = if a.value.type = .array then slotsFrom kids.length 0 else nil :=
    ho ▸ DomValue.below_item hcount
  have hext : o.extType = a.value.extType := congrArg (·.value.extType) hnode
  have haccepted : Accepted o.type o.extType := by
    rw [htype, hext]
    exact hregular.plain.accepted
  have htakes : p.Takes used ks o := by
    refine ⟨hkey ▸ hregular.short, hkey ▸ hreceives.slot, fun hcontainer => ?_,
      hkey ▸ hreceives.hollow, ?_⟩
    · rw [hkey]
      exact hreceives.containers _ (mem_containers_cons.mpr (Or.inl ⟨htype ▸ hcontainer, rfl⟩))
    · have hle : o.below.labels.length ≤ kids.labels.length := by
        rw [hbelow]
        split_ifs
        · rw [length_labels_slotsFrom]
          exact length_le_length_labels
        · exact Nat.zero_le _
      rw [hnode, hbase]
      omega
  have hplace : p.below ks o = ⟨a.hash p.hash, decide (a.value.type = .array), p.outside + base⟩ := by
    rw [DomPlace.below, hnode, htype, hbase]
    rfl
  refine ⟨p.below ks o, by rw [hplace], ⟨?_, ?_⟩, ?_⟩
  · rw [hplace]
    exact fun K hK => hreceives.containers K (mem_containers_cons.mpr (Or.inr (Or.inl hK)))
  · rw [hplace, Nat.add_assoc]
    exact hroom
  · have helements : a.value.type = .array → tk.elements = kids.length := fun harray => by
      rw [DomValue.item, harray] at hitem
      exact VlMsgPackIOToken.of_item_array hitem
    have hpairs : a.value.type = .map → tk.keyValuePairs = kids.length := fun hmap => by
      rw [DomValue.item, hmap] at hitem
      exact VlMsgPackIOToken.of_item_map hitem
    rw [readValue, hnext]
    simp only [Except.toOption, Option.bind_eq_bind, Option.bind_some, hins, Bool.true_eq_false, if_false]
    rw [if_neg (not_not.mpr haccepted), if_neg (not_not.mpr htakes), htype, hnode, hbelow]
    by_cases harray : a.value.type = .array
    · rw [if_pos harray, if_pos harray, if_pos harray, helements harray]
    · rw [if_neg harray, if_neg harray, if_neg harray]
      by_cases hmap : a.value.type = .map
      · rw [if_pos hmap, if_pos hmap, hpairs hmap]
      · rw [if_neg hmap, if_neg hmap]

/-! ### Whole texts -/

/-- **Trees are read** from texts of fewer than `n` bytes. -/
def ReadsTrees (used : List (List UInt8)) (p : DomPlace) (n : ℕ) (read : DomReader) : Prop :=
  ∀ {a kids ks decoder bs}, (cons a kids nil).All DomNode.Regular → p.Receives used ks a kids →
    decoder.Before bs ((cons a kids nil).items false) → bs.length < n →
    read ks decoder a.key = some (.done (a, kids) (decoder.advance bs.length))

/-- **The elements of an array.** -/
theorem readElements_spec (hread : ReadsTrees used p n read)
    (hbefore : decoder.Before bs (todo.items false)) (hn : bs.length < n)
    (hregular : todo.All DomNode.Regular) (hkeys : (done ++ todo).roots.map DomNode.key =
      (List.range (done ++ todo).length).map (natToLE 4)) (hholds : p.Holds used (done ++ todo)) :
    readElements read todo.length done.length (done ++ slotsFrom todo.length done.length) decoder =
      some (.done (done ++ todo) (decoder.advance bs.length)) := by
  induction todo generalizing done decoder bs with
  | nil =>
    obtain rfl := hbefore.eq_nil
    rfl
  | cons a kids rest _ ih =>
    obtain ⟨hone, hkids, hrest⟩ := all_cons.mp hregular
    obtain ⟨hkey, hplace, hreceives⟩ := hholds.slot hkeys
    rw [items_cons, if_neg Bool.false_ne_true, List.nil_append] at hbefore
    obtain ⟨bs₁, bs₂, rfl, h₁, h₂⟩ := hbefore.append
    rw [List.length_append] at hn
    have hvalue := hread (all_cons.mpr ⟨hone, hkids, all_nil⟩) hreceives h₁ (Nat.lt_of_add_right_lt hn)
    rw [append_cons] at hkeys hholds ⊢
    have hnext := ih h₂ (Nat.lt_of_add_left_lt hn) hrest hkeys hholds
    rw [length_append, length_cons, length_nil, Nat.zero_add] at hnext
    rw [length_cons, readElements, ← hkey, hvalue]
    simp only [Option.bind_eq_bind, Option.bind_some]
    rw [hplace, hnext, advance_advance, List.length_append]

/-- **The pairs of a map.** -/
theorem readPairs_spec (hread : ReadsTrees used p n read) (hmap : p.isArray = false)
    (hbefore : decoder.Before bs (todo.items true)) (hn : bs.length < n)
    (hregular : todo.All DomNode.Regular) (hkeys : ((done ++ todo).roots.map DomNode.key).Nodup)
    (hholds : p.Holds used (done ++ todo)) :
    readPairs stack read todo.length done decoder =
      some (.done (done ++ todo) (decoder.advance bs.length)) := by
  induction todo generalizing done decoder bs with
  | nil =>
    obtain rfl := hbefore.eq_nil
    rw [append_nil]
    rfl
  | cons a kids rest _ ih =>
    obtain ⟨hone, hkids, hrest⟩ := all_cons.mp hregular
    obtain ⟨hplace, hreceives⟩ := hholds.append hmap hkeys
    rw [items_cons, if_pos rfl, List.singleton_append] at hbefore
    obtain ⟨chunk, bs', tk, rfl, -, hnext, hitem, hin, hbefore⟩ :=
      hbefore.next (stack decoder.srcOffset)
    obtain ⟨bs₁, bs₂, rfl, h₁, h₂⟩ := hbefore.append
    rw [List.length_append, List.length_append] at hn
    obtain ⟨htype, hpayload⟩ := payload_key (n := chunk.length) hitem hin
    have hvalue := hread (all_cons.mpr ⟨hone, hkids, all_nil⟩) hreceives h₁ (by omega)
    rw [append_cons] at hkeys hholds ⊢
    have hothers := ih h₂ (by omega) hrest hkeys hholds
    rw [length_cons, readPairs, hnext]
    simp only [Except.toOption, Option.bind_eq_bind, Option.bind_some, hpayload, hvalue, htype, ne_eq,
      not_true_eq_false, if_false, Bool.true_eq_false]
    rw [hplace, hothers, advance_advance, advance_advance, List.length_append, List.length_append]

/-- **A tree is read back.** -/
theorem readValue_reads : ReadsTrees used p rounds (readValue used stack rounds p) := by
  induction rounds generalizing p with
  | zero => exact fun _ _ _ hn => absurd hn (Nat.not_lt_zero _)
  | succ rounds ih =>
    intro a kids ks decoder bs hregular hreceives hbefore hn
    obtain ⟨hone, hkids, -⟩ := all_cons.mp hregular
    rw [items_single] at hbefore
    obtain ⟨chunk, bs', tk, rfl, hpos, hnext, hitem, hin, hbefore⟩ :=
      hbefore.next (stack decoder.srcOffset)
    rw [List.length_append] at hn
    obtain ⟨p', harray', hholds, hvalue⟩ := readValue_node hone hreceives hnext hitem hin
    rw [hvalue]
    have hdone : (decoder.advance chunk.length).advance bs'.length =
        decoder.advance (chunk ++ bs').length := by
      rw [advance_advance, List.length_append]
    by_cases harray : a.value.type = .array
    · rw [harray] at hbefore
      have hread : readElements (readValue used stack rounds p') kids.length
          (nil : Forest DomNode).length (nil ++ slotsFrom kids.length (nil : Forest DomNode).length)
          (decoder.advance chunk.length) = _ :=
        readElements_spec ih hbefore (by omega) hkids (hone.array harray) hholds
      rw [nil_append, nil_append, length_nil, hdone] at hread
      rw [if_pos harray, hread]
      rfl
    rw [if_neg harray]
    by_cases hmap : a.value.type = .map
    · rw [hmap] at hbefore
      have hread : readPairs stack (readValue used stack rounds p') kids.length nil
          (decoder.advance chunk.length) = _ :=
        readPairs_spec ih (harray'.trans (decide_eq_false harray)) hbefore (by omega) hkids
          (hone.map hmap) hholds
      rw [nil_append, hdone] at hread
      rw [if_pos hmap, hread]
      rfl
    · obtain rfl := hone.leaf fun hcontainer => hcontainer.elim hmap harray
      obtain rfl := hbefore.eq_nil
      rw [if_neg hmap, List.append_nil]

/-! ### Texts that are cut short -/

/-- **Trees are not read** from texts that are cut short to fewer than `n` bytes. -/
def FailsOnCuts (used : List (List UInt8)) (p : DomPlace) (n : ℕ) (read : DomReader) : Prop :=
  ∀ {a kids ks decoder bs}, (cons a kids nil).All DomNode.Regular → p.Receives used ks a kids →
    decoder.Cut bs ((cons a kids nil).items false) → decoder.rest.length < n →
    ∃ decoder', read ks decoder a.key = some (.failed decoder')

theorem length_rest_advance {m : ℕ} : (decoder.advance m).rest.length = decoder.rest.length - m := by
  rw [length_rest, length_rest]
  exact Nat.sub_add_eq _ _ _

/-- A text that the decoder is before is no longer than what is left. -/
theorem VlMsgPackDecoder.Before.length_le {items : List MsgPackItem} (h : decoder.Before bs items) :
    bs.length ≤ decoder.rest.length := by
  obtain ⟨tail, htail⟩ := h.rest
  rw [htail, List.length_append]
  exact Nat.le_add_right _ _

/-- **The elements of an array**, cut short. -/
theorem readElements_cut (hread : ReadsTrees used p n read) (hfails : FailsOnCuts used p n read)
    (hcut : decoder.Cut bs (todo.items false)) (hn : decoder.rest.length < n)
    (hregular : todo.All DomNode.Regular) (hkeys : (done ++ todo).roots.map DomNode.key =
      (List.range (done ++ todo).length).map (natToLE 4)) (hholds : p.Holds used (done ++ todo)) :
    ∃ decoder', readElements read todo.length done.length (done ++ slotsFrom todo.length done.length)
      decoder = some (.failed decoder') := by
  induction todo generalizing done decoder bs with
  | nil => exact absurd rfl hcut.ne_nil
  | cons a kids rest _ ih =>
    obtain ⟨hone, hkids, hrest⟩ := all_cons.mp hregular
    obtain ⟨hkey, hplace, hreceives⟩ := hholds.slot hkeys
    have htree := all_cons.mpr ⟨hone, hkids, all_nil⟩
    rw [items_cons, if_neg Bool.false_ne_true, List.nil_append] at hcut
    rw [length_cons, readElements, ← hkey]
    obtain ⟨bs₁, bs₂, rfl, h₁ | ⟨h₁, h₂⟩⟩ := hcut.append
    · obtain ⟨decoder', hvalue⟩ := hfails htree hreceives h₁ hn
      exact ⟨decoder', by rw [hvalue]; rfl⟩
    · have hvalue := hread htree hreceives h₁ (h₁.length_le.trans_lt hn)
      rw [append_cons] at hkeys hholds
      have hless : (decoder.advance bs₁.length).rest.length < n := by
        rw [length_rest_advance]
        omega
      obtain ⟨decoder', hnext⟩ := ih h₂ hless hrest hkeys hholds
      rw [length_append, length_cons, length_nil, Nat.zero_add] at hnext
      refine ⟨decoder', ?_⟩
      rw [hvalue]
      simp only [Option.bind_eq_bind, Option.bind_some]
      rw [hplace, hnext]

/-- **The pairs of a map**, cut short. -/
theorem readPairs_cut (hread : ReadsTrees used p n read) (hfails : FailsOnCuts used p n read)
    (hmap : p.isArray = false) (hcut : decoder.Cut bs (todo.items true)) (hn : decoder.rest.length < n)
    (hregular : todo.All DomNode.Regular) (hkeys : ((done ++ todo).roots.map DomNode.key).Nodup)
    (hholds : p.Holds used (done ++ todo)) :
    ∃ decoder', readPairs stack read todo.length done decoder = some (.failed decoder') := by
  induction todo generalizing done decoder bs with
  | nil => exact absurd rfl hcut.ne_nil
  | cons a kids rest _ ih =>
    obtain ⟨hone, hkids, hrest⟩ := all_cons.mp hregular
    obtain ⟨hplace, hreceives⟩ := hholds.append hmap hkeys
    have htree := all_cons.mpr ⟨hone, hkids, all_nil⟩
    rw [items_cons, if_pos rfl, List.singleton_append] at hcut
    rw [length_cons, readPairs]
    rcases hcut.next (stack decoder.srcOffset) with
      ⟨decoder', tk, hnext⟩ | ⟨chunk, bs', tk, rfl, -, hnext, hitem, hin, hcut⟩
    · exact ⟨{ decoder' with error := .unexpectedEof, errorOffset := decoder'.srcOffset }, by
        rw [hnext]; rfl⟩
    obtain ⟨htype, hpayload⟩ := payload_key (n := chunk.length) hitem hin
    rw [hnext]
    simp only [Except.toOption, Option.bind_eq_bind, Option.bind_some, hpayload, htype, ne_eq,
      not_true_eq_false, if_false, Bool.true_eq_false]
    have hless : (decoder.advance chunk.length).rest.length < n := by
      rw [length_rest_advance]
      omega
    obtain ⟨bs₁, bs₂, rfl, h₁ | ⟨h₁, h₂⟩⟩ := hcut.append
    · obtain ⟨decoder', hvalue⟩ := hfails htree hreceives h₁ hless
      exact ⟨decoder', by rw [hvalue]; rfl⟩
    · have hvalue := hread htree hreceives h₁ (h₁.length_le.trans_lt hless)
      rw [append_cons] at hkeys hholds
      have hless' : ((decoder.advance chunk.length).advance bs₁.length).rest.length < n := by
        rw [length_rest_advance]
        omega
      obtain ⟨decoder', hothers⟩ := ih h₂ hless' hrest hkeys hholds
      refine ⟨decoder', ?_⟩
      rw [hvalue]
      simp only [Option.bind_some]
      rw [hplace, hothers]

/-- **A tree that is cut short is not read.** -/
theorem readValue_cut : FailsOnCuts used p rounds (readValue used stack rounds p) := by
  induction rounds generalizing p with
  | zero => exact fun _ _ _ hn => absurd hn (Nat.not_lt_zero _)
  | succ rounds ih =>
    intro a kids ks decoder bs hregular hreceives hcut hn
    obtain ⟨hone, hkids, -⟩ := all_cons.mp hregular
    rw [items_single] at hcut
    rcases hcut.next (stack decoder.srcOffset) with
      ⟨decoder', tk, hnext⟩ | ⟨chunk, bs', tk, rfl, hpos, hnext, hitem, hin, hcut'⟩
    · exact ⟨decoder', by rw [readValue, hnext]; rfl⟩
    obtain ⟨p', harray', hholds, hvalue⟩ := readValue_node hone hreceives hnext hitem hin
    have hless : (decoder.advance chunk.length).rest.length < rounds := by
      have hle : decoder.srcOffset + chunk.length ≤ decoder.srcLen := hcut'.le
      rw [length_rest] at hn
      rw [length_rest_advance, length_rest]
      omega
    rw [hvalue]
    by_cases harray : a.value.type = .array
    · rw [harray] at hcut'
      have hread : ∃ decoder', readElements (readValue used stack rounds p') kids.length
          (nil : Forest DomNode).length (nil ++ slotsFrom kids.length (nil : Forest DomNode).length)
          (decoder.advance chunk.length) = some (.failed decoder') :=
        readElements_cut readValue_reads ih hcut' hless hkids (hone.array harray) hholds
      obtain ⟨decoder', hread⟩ := hread
      rw [nil_append, length_nil] at hread
      exact ⟨decoder', by rw [if_pos harray, hread]; rfl⟩
    rw [if_neg harray]
    by_cases hmap : a.value.type = .map
    · rw [hmap] at hcut'
      have hread : ∃ decoder', readPairs stack (readValue used stack rounds p') kids.length nil
          (decoder.advance chunk.length) = some (.failed decoder') :=
        readPairs_cut readValue_reads ih (harray'.trans (decide_eq_false harray)) hcut' hless hkids
          (hone.map hmap) hholds
      obtain ⟨decoder', hread⟩ := hread
      exact ⟨decoder', by rw [if_pos hmap, hread]; rfl⟩
    · obtain rfl := hone.leaf fun hcontainer => hcontainer.elim hmap harray
      exact absurd rfl hcut'.ne_nil

end VeritableLasagna
