import VeritableLasagna.Dom.Parsing
import VeritableLasagna.Dom.Rollback
import VeritableLasagna.Dom.Writing

/-!
# Documents, there and back

What `vlMsgPackIOEncodeFromDOM` writes for a node of a document, `vlMsgPackIODecodeToDOM` reads below a node
of another one, or of the same: the new node has the value of the old one, and what is below it is below
the new one, with all keys and in the same order (`vlMsgPackIOEncodeFromDOM_decodeToDOM`).
-/

namespace VeritableLasagna

open Forest

section RoundTrip

variable {pack pack' : VlMsgPack} {used used' : List (List UInt8)} {f f' : Forest DomEntry}
  {s t : Spot DomEntry} {key : List UInt8}

/-- What a document asks of a node, the texts ask too; only its bytes have to be plain. -/
theorem DomEntry.Stored.regular {parent prev next : ℕ} {hash : UInt64} {a : DomEntry}
    {kids : Forest DomEntry} {e : VlMsgPackElement} (he : a.Stored pack parent hash prev next kids e)
    (hplain : a.node.value.Plain) (hshort : (hierarchicalKey hash a.node.key).length < 2 ^ 16) :
    a.node.Regular kids.erase := by
  have hkeys : kids.erase.roots.map DomNode.key = kids.roots.map (·.node.key) := by
    rw [erase, roots_map, List.map_map]
    rfl
  have hlength : kids.erase.length = kids.length := length_map
  refine ⟨hplain, ?_, fun hleaf => ?_, fun hmap => ?_, fun harray => ?_⟩
  · rw [hierarchicalKey, List.length_append, length_natToLE] at hshort
    omega
  · cases he.fits with
    | nil type payload ptr hnil => rw [hnil]; rfl
    | leaf type first hnil ptr block => rw [hnil]; rfl
    | map type => exact absurd (Or.inl type) hleaf
    | array type => exact absurd (Or.inr type) hleaf
  · rw [hkeys]
    cases he.fits with
    | nil type => exact absurd (type.symm.trans hmap) (by decide)
    | leaf type => exact absurd hmap type.2.1
    | map type payload ptr first second length totalChildren keys => exact keys
    | array type => exact absurd (type.symm.trans hmap) (by decide)
  · rw [hkeys, hlength]
    cases he.fits with
    | nil type => exact absurd (type.symm.trans harray) (by decide)
    | leaf type => exact absurd harray type.2.2
    | map type => exact absurd (type.symm.trans harray) (by decide)
    | array type payload first second length keys => exact keys

/-- **A node of a document can be written**, when its bytes are plain. -/
theorem VlMsgPack.Open.writable (h : pack.Open used f) (hs : s ∈ f.spots [])
    (hplain : s.label.node.value.Plain) : s.label.Writable pack s.kids := by
  obtain ⟨hash, prev, next, hsound, -⟩ := h.holds.spot hs
  obtain ⟨⟨e, he⟩, hkids, -⟩ := domLinked_cons.mp hsound.linked
  refine ⟨he.regular hplain (h.short _ _ he.get), h.holds.firstChild h.distinguished.1 hs, ?_⟩
  exact length_le_length_iters.trans_lt
    (VlMsgPack.length_lt_rounds hsound.proper.kids.nodup fun i hi => hkids.node_ne_none hi)

theorem Forest.All.regular (h : f.All (DomEntry.Writable pack)) : f.erase.All DomNode.Regular := by
  induction f with
  | nil => exact all_nil
  | cons a kids rest ih₁ ih₂ =>
    obtain ⟨hone, hkids, hrest⟩ := all_cons.mp h
    exact all_cons.mpr ⟨hone.regular, ih₁ hkids, ih₂ hrest⟩

/-- **The tree of a node is written** as its items; under any key that is short enough, it is regular. -/
theorem VlMsgPack.Open.encodes (h : pack.Open used f) (hs : s ∈ f.spots [])
    (hplain : ∀ a ∈ s.label :: s.kids.labels, a.node.value.Plain) {size : ℕ → ℕ} {enc : VlMsgPackEncoder}
    (henc : enc.buffer.WellFormed) {key : List UInt8} (hshort : key.length + 8 < 2 ^ 16) :
    (cons ⟨key, s.label.node.value⟩ s.kids.erase nil).All DomNode.Regular ∧
      Serves (vlMsgPackIOEncodeFromDOM size enc pack s.label.iter) fun enc' =>
        ∃ bs, (vlMsgPackEncodeIncrement enc).Appended bs enc' ∧ Chunked MsgPackItem.Written bs
          ((cons ⟨key, s.label.node.value⟩ s.kids.erase nil).items false) := by
  have hone := h.writable hs (hplain _ List.mem_cons_self)
  have hkids : s.kids.All (DomEntry.Writable pack) := all_of_spots fun t ht =>
    h.writable (mem_spots_of_mem_spots hs ht)
      (hplain _ (List.mem_cons_of_mem _ (label_mem_of_mem_spots ht)))
  obtain ⟨hplain', -, hleaf, hmap, harray⟩ := hone.regular
  refine ⟨all_cons.mpr ⟨⟨hplain', hshort, hleaf, hmap, harray⟩, hkids.regular, all_nil⟩, ?_⟩
  obtain ⟨hash, prev, next, hsound, -⟩ := h.holds.spot hs
  obtain ⟨⟨e, he⟩, hlinked, -⟩ := domLinked_cons.mp hsound.linked
  have hdepth : s.kids.depth ≤ pack.nodes.store.live.length := depth_le_length_iters.trans
    (VlMsgPack.length_le_total hsound.proper.kids.nodup fun i hi => hlinked.node_ne_none hi)
  exact vlMsgPackIOEncodeRounds_node he hone (hlinked.writesForest hkids hdepth) henc

/-- **What was written for a tree is read** below a node that has room for it. -/
theorem VlMsgPack.Open.decodesWritten (h : pack'.Open used' f') (ht : t ∈ f'.spots [])
    (hcontainer : t.label.node.value.type.IsContainer) {v : DomValue} {below : Forest DomNode}
    (hregular : (cons ⟨key, v⟩ below nil).All DomNode.Regular)
    (hreceives : (domPlace f' t).Receives used' t.kids.erase ⟨key, v⟩ below) {bs tail : List UInt8}
    (hchunked : Chunked MsgPackItem.Written bs ((cons ⟨key, v⟩ below nil).items false))
    (stack : ℕ → VlMsgPackIOToken) {decoder : VlMsgPackDecoder} (ho : decoder.srcOffset ≤ decoder.srcLen)
    (hrest : decoder.rest = bs ++ tail) :
    Returns (vlMsgPackIODecodeToDOM stack decoder pack' t.label.iter key) fun res =>
      res.2.1 = decoder.advance bs.length ∧ ∃ c k ks, res.1 = c.iter ∧ c.node = ⟨key, v⟩ ∧ k.erase = below ∧
        ks.erase = t.kids.erase.place c.node k.erase ∧
        ⟨t.label :: t.above, c, k⟩ ∈ (f'.setKids t.label.iter ks).spots [] ∧
        res.2.2.Open used' (f'.setKids t.label.iter ks) := by
  have hlen := congrArg List.length hrest
  rw [VlMsgPackDecoder.length_rest, List.length_append] at hlen
  have hbefore : decoder.Before bs ((cons ⟨key, v⟩ below nil).items false) :=
    ⟨ho, ⟨tail, hrest⟩, hchunked.mono fun _ _ hwritten => hwritten.readable⟩
  have hread : readValue used' stack (decoder.srcLen - decoder.srcOffset + 1) (domPlace f' t)
      t.kids.erase decoder key = _ :=
    readValue_reads hregular hreceives hbefore (by omega)
  refine (h.decodes ht hcontainer hread).mono ?_
  rintro res ⟨hdecoder, c, k, ks, hiter, hnode, hk, hks, hspot, hopen⟩
  exact ⟨hdecoder, c, k, ks, hiter, hnode, hk, by rw [hks, hnode, hk], hspot, hopen⟩

/-- **A text that is cut short is never read.** When the source ends anywhere inside of what is written for
a node of a document, `vlMsgPackIODecodeToDOM` returns no iterator, below whatever node of another document
that the whole tree fits in; and when it has not come to the header of a container, it has not changed that
document. -/
theorem vlMsgPackIODecodeToDOM_cut (h : pack.Open used f) (hs : s ∈ f.spots [])
    (hplain : ∀ a ∈ s.label :: s.kids.labels, a.node.value.Plain) (h' : pack'.Open used' f')
    (ht : t ∈ f'.spots []) (hcontainer : t.label.node.value.type.IsContainer)
    (hshort : key.length + 8 < 2 ^ 16)
    (hreceives : (domPlace f' t).Receives used' t.kids.erase ⟨key, s.label.node.value⟩ s.kids.erase)
    {enc : VlMsgPackEncoder} (henc : enc.buffer.WellFormed) (size : ℕ → ℕ) (stack : ℕ → VlMsgPackIOToken) :
    Serves (vlMsgPackIOEncodeFromDOM size enc pack s.label.iter) fun enc' =>
      ∃ bs, (vlMsgPackEncodeIncrement enc).Appended bs enc' ∧
        ∀ (decoder : VlMsgPackDecoder) (n : ℕ), decoder.srcOffset ≤ decoder.srcLen → n < bs.length →
          decoder.rest = bs.take n →
          Returns (vlMsgPackIODecodeToDOM stack decoder pack' t.label.iter key) fun res =>
            res.1 = 0 ∧ (¬ decoder.BeginsContainer stack → res.2.2 = pack') := by
  obtain ⟨hregular, hserves⟩ := h.encodes hs hplain henc hshort
  refine hserves.mono ?_
  rintro enc' ⟨bs, happ, hchunked⟩
  refine ⟨bs, happ, fun decoder n ho hn hrest => ?_⟩
  have hcut : decoder.Cut bs ((cons ⟨key, s.label.node.value⟩ s.kids.erase nil).items false) := by
    refine ⟨ho, ?_, ?_, hchunked.mono fun _ _ hwritten => hwritten.readable⟩
    · rw [hrest]
      exact List.take_prefix n bs
    · rw [hrest, List.length_take]
      omega
  have hrounds : decoder.rest.length < decoder.srcLen - decoder.srcOffset + 1 := by
    rw [VlMsgPackDecoder.length_rest]
    exact Nat.lt_succ_self _
  have hread : ∃ decoder', readValue used' stack (decoder.srcLen - decoder.srcOffset + 1) (domPlace f' t)
      t.kids.erase decoder key = some (.failed decoder') :=
    readValue_cut hregular hreceives hcut hrounds
  obtain ⟨decoder', hread⟩ := hread
  obtain ⟨fr, ctx, rfl, htree, hplace⟩ := exists_place ht
  obtain ⟨above, label, ks⟩ := t
  obtain ⟨rfl, rfl, -⟩ := Spot.mk.inj htree
  rw [hplace] at hread
  refine (vlMsgPackIODecodeRounds_spec hcontainer h' hread).mono ?_
  rintro res ⟨hzero, -, -, hsame, -⟩
  exact ⟨hzero, hsame⟩

end RoundTrip

/-- The key of a child of the root. -/
def rootChildKey (key : List UInt8) : List UInt8 :=
  hierarchicalKey (vlHashMsgPackKey vlMsgPackRootKey) key

/-- A decoder before an array of one element. -/
def unitArrayDecoder : VlMsgPackDecoder :=
  vlMsgPackIODecoderStart (fun i => [0x91, 0xC0].getD i 0) 2 (by norm_num)

/-- A document with an array of one element below its root, and another with a root only. -/
theorem exists_unitArray : ∃ (pack : VlMsgPack) (used : List (List UInt8)) (f : Forest DomEntry)
    (u : Spot DomEntry) (s : DomState) (root : DomEntry), pack.Open used f ∧ u ∈ f.spots [] ∧
      (∀ a ∈ u.label :: u.kids.labels, a.node.value.Plain) ∧
      (u.label.node.value.type = .array ∧ u.kids.erase.labels.length = 1) ∧
      domInit .bump .bump = .ok s ∧ s.pack.Open [rootChildKey [98], vlMsgPackRootKey] (cons root nil nil) ∧
      root.node.value.type = .map ∧ (domPlace (cons root nil nil) ⟨[], root, nil⟩).Receives
        [rootChildKey [98], vlMsgPackRootKey] nil ⟨[98], u.label.node.value⟩ u.kids.erase := by
  have hinit : ∀ key, Distinguished [rootChildKey key, vlMsgPackRootKey] → ∃ s root,
      domInit .bump .bump = .ok s ∧ root.node.key = vlMsgPackRootString ∧ root.node.value.type = .map ∧
        s.pack.Open [rootChildKey key, vlMsgPackRootKey] (cons root nil nil) := by
    intro key hdistinguished
    obtain ⟨s, hs, root, hkey, htype, hopen⟩ := vlMsgPackInit_opened (by simp) hdistinguished .bump .bump
    exact ⟨s, root, hs, hkey, htype, hopen⟩
  obtain ⟨s, root, hs, hkey, htype, hopen⟩ := hinit [97] (by decide +kernel)
  obtain ⟨s', root', hs', hkey', htype', hopen'⟩ := hinit [98] (by decide +kernel)
  have hread : ((readValue [rootChildKey [97], vlMsgPackRootKey] (fun _ => default) 3
      ⟨vlHashMsgPackKey vlMsgPackRootKey, false, 1⟩ nil unitArrayDecoder [97]).any fun r =>
        r.value.any fun tree => tree.1.value.type = .array ∧ tree.2.labels.length = 1 ∧
          (∀ a ∈ tree.1 :: tree.2.labels, a.value.Plain) ∧
          (cons ⟨[98], tree.1.value⟩ tree.2 nil).containers (vlHashMsgPackKey vlMsgPackRootKey) =
            [rootChildKey [98]]) = true := by
    decide +kernel
  obtain ⟨r, hr, hvalue⟩ := (Option.any_eq_true _ _).mp hread
  cases r with
  | failed decoder' => cases hvalue
  | done tree decoder' =>
    obtain ⟨a, kids⟩ := tree
    obtain ⟨harray, hlength, hplain, hcontainers⟩ := of_decide_eq_true hvalue
    dsimp only at harray hlength hplain hcontainers
    rw [← domPlace_root hkey htype] at hr
    have hroot : (⟨[], root, nil⟩ : Spot DomEntry) ∈ (cons root nil nil).spots [] := by simp
    have hdecoded : Returns (vlMsgPackIODecodeToDOM (fun _ => default) unitArrayDecoder s.pack root.iter
        [97]) _ := hopen.decodes hroot (Or.inl htype) hr
    obtain ⟨res, -, -, c, k, ks, -, rfl, rfl, -, hspot, hsource⟩ := hdecoded
    refine ⟨res.2.2, _, _, ⟨[root], c, k⟩, s', root', hsource, hspot, ?_, ⟨harray, hlength⟩, hs', hopen',
      htype', ?_⟩
    · intro b hb
      refine hplain b.node ?_
      rw [erase, labels_map, ← List.map_cons]
      exact List.mem_map_of_mem hb
    · rw [domPlace_root hkey' htype']
      refine ⟨fun hslots => absurd hslots Bool.false_ne_true, rfl, fun K hK => ?_, ?_⟩
      · rw [hcontainers, List.mem_singleton] at hK
        rw [hK]
        exact List.mem_cons_self
      · rw [place_append (by simp), nil_append, labels_cons, labels_nil, List.append_nil,
          List.length_cons, hlength]
        decide

/-- An array of one element is cut short, and not read. -/
theorem vlMsgPackIODecodeToDOM_cut_array : ∃ s pack iter root, domInit .bump .bump = .ok s ∧
    Serves (vlMsgPackIOEncodeFromDOM (fun _ => 0) (vlMsgPackIOEncoderInit fun _ => 0) pack iter) fun enc =>
      ∃ bs, enc.buffer.written = [] ++ bs ∧ ∀ (decoder : VlMsgPackDecoder) (n : ℕ),
        decoder.srcOffset ≤ decoder.srcLen → n < bs.length → decoder.rest = bs.take n →
        Returns (vlMsgPackIODecodeToDOM (fun _ => default) decoder s.pack root [98]) fun res =>
          res.1 = 0 := by
  obtain ⟨pack, used, f, u, s, root, hsource, hu, hplain, -, hs, hopen, hmap, hreceives⟩ :=
    exists_unitArray
  have hroot : (⟨[], root, nil⟩ : Spot DomEntry) ∈ (cons root nil nil).spots [] := by simp
  refine ⟨s, pack, u.label.iter, root.iter, hs, ?_⟩
  refine (vlMsgPackIODecodeToDOM_cut hsource hu hplain hopen hroot (Or.inl hmap)
    (show ([98] : List UInt8).length + 8 < 2 ^ 16 by decide) hreceives vlBufferInit_wellFormed (fun _ => 0)
    fun _ => default).mono ?_
  rintro enc ⟨bs, happ, hdecode⟩
  refine ⟨bs, happ.written, fun decoder n ho hn hrest => (hdecode decoder n ho hn hrest).mono ?_⟩
  exact fun res hres => hres.1

end VeritableLasagna
