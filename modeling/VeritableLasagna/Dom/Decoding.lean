import VeritableLasagna.Dom.Around

/-!
# The decoder on a document

`vlMsgPackIODecodeToDOM` does to a document what `readValue` says (`vlMsgPackIODecodeRounds_spec`): when
that reads a value, its tree is put among the children of the parent, and when it fails, so does the call.
The induction is on the rounds, and inside of it on the elements or pairs of a container. What fails has
begun containers, and each is taken away again by the call that has put it there.
-/

namespace VeritableLasagna

open Forest

/-- The text begins with the header of a container. -/
def VlMsgPackDecoder.BeginsContainer (decoder : VlMsgPackDecoder) (stack : ℕ → VlMsgPackIOToken) : Prop :=
  ∃ decoder' curToken, vlMsgPackIODecoderNext decoder (stack decoder.srcOffset) =
    .ok (true, decoder', curToken) ∧ curToken.type.IsContainer

section Decode

variable {stack : ℕ → VlMsgPackIOToken} {used : List (List UInt8)} {fr new : Shell DomEntry}
  {ctx : List (Shell DomEntry)} {ks k : Forest DomEntry} {pack pack' : VlMsgPack}
  {decoder decoder' : VlMsgPackDecoder} {curToken : VlMsgPackIOToken} {key : List UInt8} {o : DomInsert}
  {rounds parent : ℕ}

/-- **The content of a place has been taken back** to `ks'`: the document is linked, and since it last held
one, `ks₁` in the place, the table has only lost nodes. -/
structure Reverted (used : List (List UInt8)) (ctx : List (Shell DomEntry)) (ks₁ ks' : Forest DomEntry)
    (pack' : VlMsgPack) : Prop where
  torn : pack'.Torn (fill ctx ks')
  opened : ∃ pack₁ : VlMsgPack, pack₁.Open used (fill ctx ks₁) ∧ pack₁.Shrinks pack'

/-- **What a call leaves behind**: the document with the tree, or one that is linked still. When no container
has been begun, that is the document from before. Otherwise the container is in the table under its key,
and below a map, under a new key, the document has the nodes from before. -/
def ReadsTo (used : List (List UInt8)) (pack : VlMsgPack) (fr : Shell DomEntry) (ctx : List (Shell DomEntry))
    (ks : Forest DomEntry) (key : List UInt8) (begun : Prop) :
    DomRead (DomNode × Forest DomNode) → VlDecodeToDOMResult → Prop
  | .done tree decoder, res => res.2.1 = decoder ∧ ∃ new k, new.label.iter = res.1 ∧
      new.label.node = tree.1 ∧ k.erase = tree.2 ∧
      (∀ g, (new.fill g).erase = ks.erase.place tree.1 g.erase) ∧
      res.2.2.Open used (fill (new :: fr :: ctx) k)
  | .failed decoder, res => res.1 = 0 ∧ res.2.1 = decoder ∧
      (∃ ks₁ ks', Reverted used (fr :: ctx) ks₁ ks' res.2.2 ∧ (fr.label.node.value.type = .map →
        key ∉ ks.roots.map (·.node.key) →
          ks' = ks ∧ ∃ g, ks₁ = ks ++ g ∧ ∀ b ∈ g.roots, b.node.key = key)) ∧
      (¬ begun → res.2.2 = pack) ∧
      (begun → ∃ i n, res.2.2.node i = some n ∧ n.key = hierarchicalKey (ctxHash (fr :: ctx)) key)

/-- What the loop over the content of a container leaves behind. A container that fails is taken away. -/
def FillsTo (used : List (List UInt8)) (new fr : Shell DomEntry) (ctx : List (Shell DomEntry)) :
    DomRead (Forest DomNode) → VlDecodeToDOMResult → Prop
  | .done kids decoder, res => res.1 = new.label.iter ∧ res.2.1 = decoder ∧
      ∃ k, k.erase = kids ∧ res.2.2.Open used (fill (new :: fr :: ctx) k)
  | .failed decoder, res => res.1 = 0 ∧ res.2.1 = decoder ∧
      (∃ k₁, Reverted used (fr :: ctx) (new.fill k₁) (new.without fr.label.node.value.type) res.2.2) ∧
      ∃ i n, res.2.2.node i = some n ∧
        n.key = hierarchicalKey (ctxHash (fr :: ctx)) new.label.node.key

/-- A call of `vlMsgPackIODecodeToDOM` below a container follows `read`. -/
def DecodesBy (used : List (List UInt8)) (stack : ℕ → VlMsgPackIOToken) (fr : Shell DomEntry)
    (ctx : List (Shell DomEntry)) (read : DomReader)
    (decode : VlMsgPackDecoder → VlMsgPack → ℕ → List UInt8 → Except Fault VlDecodeToDOMResult) : Prop :=
  ∀ {pack ks decoder key r}, pack.Open used (fill (fr :: ctx) ks) → read ks.erase decoder key = some r →
    Returns (decode decoder pack fr.label.iter key)
      (ReadsTo used pack fr ctx ks key (decoder.BeginsContainer stack) r)

/-! ### The loops -/

theorem VlMsgPack.Open.reverted {ks : Forest DomEntry} (h : pack.Open used (fill ctx ks)) :
    Reverted used ctx ks ks pack :=
  ⟨h.torn, pack, h, .refl pack⟩

/-- A container that fails is taken away. -/
theorem Reverted.collapse {k₁ : Forest DomEntry} (h : Reverted used (new :: fr :: ctx) k₁ k pack)
    (hnew : new.label.node.value.type.IsContainer) (htype : fr.label.node.value.type.IsContainer) :
    Returns (vlMsgPackRemove pack new.label.iter >>= fun dest => pure (0, decoder, dest))
      (FillsTo used new fr ctx (.failed decoder)) := by
  obtain ⟨htorn, pack₁, hopen, hshrinks⟩ := h
  refine (htorn.remove hnew htype).bind ?_
  rintro pack' ⟨htorn', hshrinks', e, hnode⟩
  exact returns_ok ⟨rfl, rfl, ⟨k₁, htorn', pack₁, hopen, hshrinks.trans hshrinks'⟩, _, _, hnode, rfl⟩

/-- What is put among the children of a container is there. -/
theorem ReadsTo.next {tree : DomNode × Forest DomNode} {begun : Prop} {res : VlDecodeToDOMResult}
    (h : ReadsTo used pack new (fr :: ctx) k key begun (.done tree decoder) res) :
    res.1 ≠ 0 ∧ res.2.1 = decoder ∧ ∃ k', k'.erase = k.erase.place tree.1 tree.2 ∧
      res.2.2.Open used (fill (new :: fr :: ctx) k') := by
  obtain ⟨hdecoder, new', k', hiter, hnode, hbelow, hfill, hopen⟩ := h
  obtain ⟨e, hget, -⟩ := hopen.frame
  refine ⟨hiter ▸ Store.ne_zero_of_get hget, hdecoder, new'.fill k', ?_, hopen⟩
  rw [hfill, hbelow]

/-- A container that is filled is read, and one that is not fails. -/
theorem FillsTo.reads {r : DomRead (Forest DomNode)} {res : VlDecodeToDOMResult} {begun : Prop}
    (h : FillsTo used new fr ctx r res) (hbegun : begun) (hnode : new.label.node = o.node)
    (hkey : o.key = key) (hfill : ∀ g, (new.fill g).erase = ks.erase.place o.node g.erase)
    (hnew : o.key ∉ ks.roots.map (·.node.key) → new.before = ks ∧ new.behind = nil) :
    ReadsTo used pack fr ctx ks key begun (r.map fun kids => (o.node, kids)) res := by
  cases r with
  | done kids decoder =>
    obtain ⟨hiter, hdecoder, k, hk, hopen⟩ := h
    exact ⟨hdecoder, new, k, hiter.symm, hnode, hk, hfill, hopen⟩
  | failed decoder =>
    obtain ⟨hzero, hdecoder, ⟨k₁, hreverted⟩, hfound⟩ := h
    -- The container is taken away again; if its key was new, the children are those from before.
    have hnewkey : new.label.node.key = key := (congrArg DomNode.key hnode).trans hkey
    refine ⟨hzero, hdecoder, ⟨_, _, hreverted, fun hmap hfree => ?_⟩, fun hnot => absurd hbegun hnot,
      fun _ => hnewkey ▸ hfound⟩
    obtain ⟨hbefore, hbehind⟩ := hnew (hkey ▸ hfree)
    rw [Shell.without, if_neg (by rw [hmap]; decide), Shell.fill, hbefore, hbehind, append_nil, append_nil]
    refine ⟨rfl, _, rfl, fun b hb => ?_⟩
    rw [roots_cons, roots_nil, List.mem_singleton] at hb
    rw [hb, hnewkey]

/-- **The elements of an array.** -/
theorem vlMsgPackIODecodeElements_spec {read : DomReader}
    {decode : VlMsgPackDecoder → VlMsgPack → ℕ → List UInt8 → Except Fault VlDecodeToDOMResult}
    (hread : DecodesBy used stack new (fr :: ctx) read decode)
    (hnew : new.label.node.value.type.IsContainer) (htype : fr.label.node.value.type.IsContainer)
    {left curIndex : ℕ} {r : DomRead (Forest DomNode)} (h : pack.Open used (fill (new :: fr :: ctx) k))
    (hr : readElements read left curIndex k.erase decoder = some r) :
    Returns (vlMsgPackIODecodeElements decode new.label.iter left curIndex decoder pack)
      (FillsTo used new fr ctx r) := by
  induction left generalizing curIndex k decoder pack with
  | zero =>
    obtain rfl := Option.some_injective _ hr
    exact returns_ok ⟨rfl, rfl, k, rfl, h⟩
  | succ left ih =>
    obtain ⟨r₁, hr₁, hr⟩ := Option.bind_eq_some_iff.mp hr
    refine (hread h hr₁).bind ?_
    rintro ⟨iter, decoder₁, dest⟩ hres
    cases r₁ with
    | done tree decoder₂ =>
      obtain ⟨hne, rfl, k', hk', hopen⟩ := hres.next
      dsimp only at hne hr ⊢
      rw [if_neg hne]
      rw [← hk'] at hr
      exact ih hopen hr
    | failed decoder₂ =>
      obtain ⟨hzero, rfl, ⟨ks₁, ks', hreverted, -⟩, -⟩ := hres
      obtain rfl := Option.some_injective _ hr
      dsimp only at hzero ⊢
      rw [if_pos hzero]
      exact hreverted.collapse hnew htype

/-- **The pairs of a map.** -/
theorem vlMsgPackIODecodePairs_spec {read : DomReader}
    {decode : VlMsgPackDecoder → VlMsgPack → ℕ → List UInt8 → Except Fault VlDecodeToDOMResult}
    (hread : DecodesBy used stack new (fr :: ctx) read decode)
    (hnew : new.label.node.value.type.IsContainer) (htype : fr.label.node.value.type.IsContainer)
    {left : ℕ} {r : DomRead (Forest DomNode)} (h : pack.Open used (fill (new :: fr :: ctx) k))
    (hr : readPairs stack read left k.erase decoder = some r) :
    Returns (vlMsgPackIODecodePairs stack decode new.label.iter left decoder pack)
      (FillsTo used new fr ctx r) := by
  induction left generalizing k decoder pack with
  | zero =>
    obtain rfl := Option.some_injective _ hr
    exact returns_ok ⟨rfl, rfl, k, rfl, h⟩
  | succ left ih =>
    obtain ⟨⟨more, decoder₁, keyToken⟩, hnext, hr⟩ := Option.bind_eq_some_iff.mp hr
    have hnext := eq_ok_of_toOption hnext
    rw [vlMsgPackIODecodePairs, hnext, ok_bind]
    dsimp only at hr ⊢
    split_ifs at hr ⊢ with hmore hstring
    · -- The source ends before the key, or there is something else than a key.
      obtain rfl := Option.some_injective _ hr
      exact h.reverted.collapse hnew htype
    · obtain rfl := Option.some_injective _ hr
      exact h.reverted.collapse hnew htype
    · obtain ⟨key, hkey, hr⟩ := Option.bind_eq_some_iff.mp hr
      obtain ⟨r₁, hr₁, hr⟩ := Option.bind_eq_some_iff.mp hr
      rw [eq_ok_of_toOption hkey, ok_bind]
      refine (hread h hr₁).bind ?_
      rintro ⟨iter, decoder₂, dest⟩ hres
      cases r₁ with
      | done tree decoder₃ =>
        obtain ⟨hne, rfl, k', hk', hopen⟩ := hres.next
        dsimp only at hne hr ⊢
        rw [if_neg hne]
        rw [← hk'] at hr
        exact ih hopen hr
      | failed decoder₃ =>
        obtain ⟨hzero, rfl, ⟨ks₁, ks', hreverted, -⟩, -⟩ := hres
        obtain rfl := Option.some_injective _ hr
        dsimp only at hzero ⊢
        rw [if_pos hzero]
        exact hreverted.collapse hnew htype

/-! ### The recursion -/

/-- The parent of an insertion does not matter to what it makes. -/
theorem VlMsgPackDecoder.insertion_parent (h : decoder.insertion curToken 0 key = .ok o) :
    decoder.insertion curToken parent key = .ok { o with parent := parent } := by
  rw [insertion] at h ⊢
  cases htype : curToken.type <;> simp only [htype] at h ⊢
  case string | binary | ext =>
    obtain ⟨src, hsrc, h⟩ := exists_of_bind_eq_ok h
    obtain rfl := Except.ok.inj h
    rw [hsrc]
    rfl
  all_goals
    obtain rfl := Except.ok.inj h
    rfl

/-- **A call** reads a token, and inserts what it asks for. -/
theorem vlMsgPackIODecodeRounds_eq {type : VlMsgPackType} (htype : vlMsgPackType pack parent = .ok type)
    (hcontainer : type.IsContainer)
    (hnext : vlMsgPackIODecoderNext decoder (stack decoder.srcOffset) = .ok (true, decoder', curToken))
    (ho : decoder'.insertion curToken parent key = .ok o) :
    vlMsgPackIODecodeRounds stack (rounds + 1) decoder pack parent key = (do
      let r ← o.apply pack
      if o.type = .array then
        vlMsgPackIODecodeElements (vlMsgPackIODecodeRounds stack rounds) r.1 curToken.elements 0 decoder' r.2
      else if o.type = .map then
        vlMsgPackIODecodePairs stack (vlMsgPackIODecodeRounds stack rounds) r.1 curToken.keyValuePairs
          decoder' r.2
      else .ok (r.1, decoder', r.2)) := by
  have hparent : ¬(type ≠ .array ∧ type ≠ .map) := by
    rintro ⟨harray, hmap⟩
    exact hcontainer.elim hmap harray
  obtain ⟨hotype, -⟩ := VlMsgPackDecoder.insertion_spec ho
  rw [vlMsgPackIODecodeRounds, htype, ok_bind, if_neg hparent, hnext, ok_bind, hotype]
  dsimp only
  rw [if_neg Bool.noConfusion]
  have hterminal (harray : curToken.type ≠ .array) (hmap : curToken.type ≠ .map) :
      vlMsgPackIODecodeTerminal decoder' curToken pack parent key = o.apply pack := by
    rw [vlMsgPackIODecodeTerminal_eq harray hmap, ho, ok_bind]
  cases hcur : curToken.type with
  | array =>
    rw [VlMsgPackDecoder.insertion, hcur] at ho
    obtain rfl := Except.ok.inj ho
    rfl
  | map =>
    rw [VlMsgPackDecoder.insertion, hcur] at ho
    obtain rfl := Except.ok.inj ho
    rfl
  | _ =>
    rw [hterminal (by rw [hcur]; decide) (by rw [hcur]; decide)]
    rfl

/-- The type of the node above a place. -/
theorem VlMsgPack.Open.type_eq (h : pack.Open used (fill (fr :: ctx) ks)) :
    vlMsgPackType pack fr.label.iter = .ok fr.label.node.value.type := by
  obtain ⟨e, hnode, htype⟩ := h.frame
  rw [vlMsgPackType, VlMsgPack.sample_eq hnode, ok_bind, ← htype]
  rfl

/-- An extension whose type stands for none is not inserted. -/
theorem DomInsert.apply_rejected (h : ¬ Accepted o.type o.extType) : o.apply pack = .ok (0, pack) := by
  rw [DomInsert.apply, vlMsgPackInsertExt, if_pos (not_not.mp h)]

/-- **A call** that finds no token fails. -/
theorem vlMsgPackIODecodeRounds_end {type : VlMsgPackType} (htype : vlMsgPackType pack parent = .ok type)
    (hcontainer : type.IsContainer)
    (hnext : vlMsgPackIODecoderNext decoder (stack decoder.srcOffset) = .ok (false, decoder', curToken)) :
    vlMsgPackIODecodeRounds stack (rounds + 1) decoder pack parent key = .ok (0, decoder', pack) := by
  have hparent : ¬(type ≠ .array ∧ type ≠ .map) := by
    rintro ⟨harray, hmap⟩
    exact hcontainer.elim hmap harray
  rw [vlMsgPackIODecodeRounds, htype, ok_bind, if_neg hparent, hnext, ok_bind]
  rfl

/-- A call that inserts nothing leaves the document alone. -/
theorem VlMsgPack.Open.unread (h : pack.Open used (fill (fr :: ctx) ks)) :
    ∃ ks₁ ks', Reverted used (fr :: ctx) ks₁ ks' pack ∧ (fr.label.node.value.type = .map →
      key ∉ ks.roots.map (·.node.key) → ks' = ks ∧ ∃ g, ks₁ = ks ++ g ∧ ∀ b ∈ g.roots, b.node.key = key) :=
  ⟨ks, ks, h.reverted, fun _ _ => ⟨rfl, nil, append_nil.symm, fun _ hb => absurd hb List.not_mem_nil⟩⟩

/-- **The decoder does to a document what it reads.** -/
theorem vlMsgPackIODecodeRounds_spec (hcontainer : fr.label.node.value.type.IsContainer) :
    DecodesBy used stack fr ctx (readValue used stack rounds (ctxPlace fr ctx))
      (vlMsgPackIODecodeRounds stack rounds) := by
  induction rounds generalizing fr ctx with
  | zero =>
    intro pack ks decoder key r h hr
    cases hr
  | succ rounds ih =>
    intro pack ks decoder key r h hr
    obtain ⟨⟨more, decoder₁, curToken⟩, hnext, hr⟩ := Option.bind_eq_some_iff.mp hr
    replace hnext := eq_ok_of_toOption hnext
    dsimp only at hr
    split_ifs at hr with hmore
    · -- nothing is read
      obtain rfl := hmore
      obtain rfl := Option.some_injective _ hr
      rw [vlMsgPackIODecodeRounds_end h.type_eq hcontainer hnext]
      refine returns_ok ⟨rfl, rfl, h.unread, fun _ => rfl, ?_⟩
      rintro ⟨decoder₂, curToken₂, hnext₂, -⟩
      cases hnext.symm.trans hnext₂
    obtain rfl : more = true := by simpa using hmore
    obtain ⟨o, ho, hr⟩ := Option.bind_eq_some_iff.mp hr
    replace ho := eq_ok_of_toOption ho
    obtain ⟨htype, -, hkey, hfits, hdata⟩ := VlMsgPackDecoder.insertion_spec ho
    rw [vlMsgPackIODecodeRounds_eq h.type_eq hcontainer hnext (VlMsgPackDecoder.insertion_parent ho)]
    dsimp only
    by_cases haccepted : Accepted o.type o.extType
    · rw [if_neg (not_not.mpr haccepted)] at hr
      by_cases htakes : (ctxPlace fr ctx).Takes used ks.erase o
      · rw [if_neg (not_not.mpr htakes)] at hr
        refine (h.insert (o := { o with parent := fr.label.iter }) hcontainer htakes haccepted hfits hdata
          rfl).bind ?_
        rintro ⟨childIter, dest⟩ ⟨new, k, hiter, hnode, hbelow, hfill, hopen, hnew₀⟩
        obtain rfl : new.label.iter = childIter := hiter
        have hnode : new.label.node = o.node := hnode
        have hbelow : k.erase = o.below := hbelow
        have hfill : ∀ g, (new.fill g).erase = ks.erase.place o.node g.erase := hfill
        have hnewtype : new.label.node.value.type = o.type := congrArg (fun n => n.value.type) hnode
        have hdone : ∀ {r : DomRead (Forest DomNode)} {res : VlDecodeToDOMResult}, o.type.IsContainer →
            FillsTo used new fr ctx r res → ReadsTo used pack fr ctx ks key (decoder.BeginsContainer stack)
              (r.map fun kids => (o.node, kids)) res := fun hbegun hres =>
          hres.reads ⟨decoder₁, curToken, hnext, htype ▸ hbegun⟩ hnode hkey hfill hnew₀
        rw [ctxPlace_below hnode hfill, ← hbelow] at hr
        dsimp only
        by_cases harray : o.type = .array
        · have hnew : new.label.node.value.type.IsContainer := Or.inr (hnewtype.trans harray)
          rw [if_pos harray] at hr ⊢
          obtain ⟨r', hr', rfl⟩ := Option.map_eq_some_iff.mp hr
          exact (vlMsgPackIODecodeElements_spec (ih hnew) hnew hcontainer hopen hr').mono
            fun res => hdone (Or.inr harray)
        · rw [if_neg harray] at hr ⊢
          by_cases hmap : o.type = .map
          · have hnew : new.label.node.value.type.IsContainer := Or.inl (hnewtype.trans hmap)
            rw [if_pos hmap] at hr ⊢
            obtain ⟨r', hr', rfl⟩ := Option.map_eq_some_iff.mp hr
            exact (vlMsgPackIODecodePairs_spec (ih hnew) hnew hcontainer hopen hr').mono
              fun res => hdone (Or.inl hmap)
          · rw [if_neg hmap] at hr ⊢
            obtain rfl := Option.some_injective _ hr
            have hbare : k.erase = nil := hbelow.trans (if_neg harray)
            exact returns_ok ⟨rfl, new, k, rfl, hnode, hbare, hfill, hopen⟩
      · rw [if_pos htakes] at hr
        cases hr
    · -- an extension of the type that stands for none
      rw [if_pos haccepted] at hr
      obtain rfl := Option.some_injective _ hr
      have hext : o.type = .ext := (not_not.mp haccepted).1
      have hrejected : DomInsert.apply { o with parent := fr.label.iter } pack = .ok (0, pack) :=
        DomInsert.apply_rejected haccepted
      rw [hrejected, ok_bind, if_neg (by rw [hext]; decide), if_neg (by rw [hext]; decide)]
      refine returns_ok ⟨rfl, rfl, h.unread, fun _ => rfl, ?_⟩
      rintro ⟨decoder₂, curToken₂, hnext₂, hcontainer₂⟩
      obtain ⟨rfl, rfl⟩ : decoder₁ = decoder₂ ∧ curToken = curToken₂ := by
        cases hnext.symm.trans hnext₂
        exact ⟨rfl, rfl⟩
      rw [← htype, hext] at hcontainer₂
      exact absurd hcontainer₂ (by decide)

end Decode

end VeritableLasagna
