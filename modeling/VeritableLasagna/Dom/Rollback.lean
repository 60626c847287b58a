import VeritableLasagna.Dom.Decoding

/-!
# Decoding into a document

What `vlMsgPackIODecodeToDOM` does below a node of a document, in terms of the document alone. A value that
is read is put among the children of the node (`Open.decodes`). A value that is not read
below a map, under a new key, leaves every node as it was (`vlMsgPackIODecodeToDOM_failed`): its value, its
links and the children that are found below it. **The exception** is the key itself: once a container has
been begun, the table keeps its node, and the key still finds it.
-/

namespace VeritableLasagna

open Forest

variable {pack pack' : VlMsgPack} {used : List (List UInt8)} {f : Forest DomEntry} {t u : Spot DomEntry}
  {stack : ℕ → VlMsgPackIOToken} {decoder decoder' : VlMsgPackDecoder} {key k : List UInt8}

/-- The place below a node of a document. -/
def domPlace (f : Forest DomEntry) (t : Spot DomEntry) : DomPlace :=
  ⟨hashAbove (t.label :: t.above), decide (t.label.node.value.type = .array),
    f.labels.length - t.kids.labels.length⟩

theorem domPlace_fill {fr : Shell DomEntry} {ctx : List (Shell DomEntry)} {ks : Forest DomEntry} :
    domPlace (fill (fr :: ctx) ks) ⟨ctx.map Shell.label, fr.label, ks⟩ = ctxPlace fr ctx := by
  have hlength : (fill (fr :: ctx) ks).labels.length = _ := length_labels_fill
  rw [domPlace, ctxPlace, hlength, Nat.add_sub_cancel]
  rfl

/-- A node of a document, and the place below it. -/
theorem exists_place (ht : t ∈ f.spots []) : ∃ fr ctx, f = fill (fr :: ctx) t.kids ∧
    t = ⟨ctx.map Shell.label, fr.label, t.kids⟩ ∧ domPlace f t = ctxPlace fr ctx := by
  obtain ⟨fr, ctx, hf, hlabel, habove⟩ := exists_fill_of_mem_spots ht
  rw [List.append_nil] at habove
  have ht : t = ⟨ctx.map Shell.label, fr.label, t.kids⟩ := by rw [habove, hlabel]
  refine ⟨fr, ctx, hf, ht, ?_⟩
  have hplace : domPlace (fill (fr :: ctx) t.kids) ⟨ctx.map Shell.label, fr.label, t.kids⟩ =
      ctxPlace fr ctx := domPlace_fill
  rwa [← hf, ← ht] at hplace

/-! ### Documents -/

/-- The document that insertions make, with more keys in use. -/
theorem DomState.Separated.opened {s : DomState} (h : s.Separated f) (hsub : s.containers ⊆ used)
    (hused : Distinguished used) : s.pack.Open used f :=
  ⟨h.holds.settle fun _ ha htype _ hn => hsub (DomState.mem_containers h.doc ha htype hn), h.short, hused⟩

/-- The first document. -/
theorem vlMsgPackInit_opened (hroot : vlMsgPackRootKey ∈ used) (hused : Distinguished used)
    (nodePlace valuePlace : Placement) : Returns (domInit nodePlace valuePlace) fun s => ∃ r : DomEntry,
      r.node.key = vlMsgPackRootString ∧ r.node.value.type = .map ∧
        s.pack.Open used (cons r nil nil) := by
  obtain ⟨s, hrun, hseparated⟩ := domInit_separated nodePlace valuePlace
  refine ⟨s, hrun, ?_⟩
  obtain ⟨r, -, hone, hkey, htype, hholds⟩ := (domInit_holds nodePlace valuePlace).of_ok hrun
  obtain ⟨f, hf⟩ := hseparated
  refine ⟨r, hkey, htype, hholds.settle fun a ha htype n hn => ?_, hf.short, hused⟩
  have hmem := hholds.used a ha htype n hn
  rw [hone, List.mem_singleton] at hmem
  rwa [hmem]

/-- The place below the first node of a document. -/
theorem domPlace_root {r : DomEntry} (hkey : r.node.key = vlMsgPackRootString)
    (htype : r.node.value.type = .map) :
    domPlace (cons r nil nil) ⟨[], r, nil⟩ = ⟨vlHashMsgPackKey vlMsgPackRootKey, false, 1⟩ := by
  have hhash : hashAbove [r] = vlHashMsgPackKey vlMsgPackRootKey :=
    congrArg (fun key => vlHashMsgPackKey (hierarchicalKey vlMsgPackRootHash key)) hkey
  rw [domPlace, hhash, htype]
  rfl

/-- **A value that is read** is a child of the node, under the key. -/
theorem VlMsgPack.Open.decodes {a : DomNode} {kids : Forest DomNode} (h : pack.Open used f)
    (ht : t ∈ f.spots []) (hcontainer : t.label.node.value.type.IsContainer)
    (hr : readValue used stack (decoder.srcLen - decoder.srcOffset + 1) (domPlace f t) t.kids.erase decoder
      key = some (.done (a, kids) decoder')) :
    Returns (vlMsgPackIODecodeToDOM stack decoder pack t.label.iter key) fun res =>
      res.2.1 = decoder' ∧ ∃ c k ks, res.1 = c.iter ∧ c.node = a ∧ k.erase = kids ∧
        ks.erase = t.kids.erase.place a kids ∧
        ⟨t.label :: t.above, c, k⟩ ∈ (f.setKids t.label.iter ks).spots [] ∧
        res.2.2.Open used (f.setKids t.label.iter ks) := by
  obtain ⟨fr, ctx, hf, ht, hplace⟩ := exists_place ht
  obtain ⟨above, label, kids₀⟩ := t
  obtain ⟨rfl, rfl, -⟩ := Spot.mk.inj ht
  rw [hplace] at hr
  dsimp only at hcontainer hf hr ⊢
  have hset : ∀ g, f.setKids fr.label.iter g = fill (fr :: ctx) g := fun g => by
    have hnodup := h.holds.nodup
    rw [hf] at hnodup ⊢
    exact updateAt_fill hnodup
  rw [hf] at h
  refine (vlMsgPackIODecodeRounds_spec hcontainer h hr).mono ?_
  rintro ⟨iter, decoder₁, dest⟩ ⟨hdecoder, new, k, hiter, hnode, hk, hfill, hopen⟩
  refine ⟨hdecoder, new.label, k, new.fill k, hiter.symm, hnode, hk, ?_, ?_, ?_⟩
  · rw [hfill, hk]
  · rw [hset]
    have hspot : ⟨(fr :: ctx).map Shell.label ++ [], new.label, k⟩ ∈ (fill (new :: fr :: ctx) k).spots [] :=
      mem_spots_fill
    rwa [List.append_nil] at hspot
  · rw [hset]
    exact hopen

/-! ### What a linked document answers -/

/-- A node of a linked document is stored, above its children. -/
theorem DomLinked.stored {x y : ℕ} (h : DomLinked pack 0 vlMsgPackRootHash x y f) (hu : u ∈ f.spots []) :
    ∃ prev next e, u.label.Stored pack (iterAbove u.above) (hashAbove u.above) prev next u.kids e ∧
      DomLinked pack u.label.iter (hashAbove (u.label :: u.above)) 0 0 u.kids := by
  obtain ⟨fr, ctx, hf, hu, -⟩ := exists_place hu
  rw [hf] at h
  have h : DomLinked pack 0 vlMsgPackRootHash x y (fill ctx (fr.fill u.kids)) := h
  obtain ⟨prev, next, hlinked⟩ := h.focus
  obtain ⟨-, hbehind⟩ := domLinked_append.mp hlinked
  obtain ⟨hcons, -⟩ := domLinked_append.mp hbehind
  obtain ⟨⟨e, he⟩, hkids, -⟩ := domLinked_cons.mp hcons
  rw [hu]
  exact ⟨_, _, e, he, hkids⟩

/-- **Two documents answer the same** about a node, and about the order of its children. -/
structure VlMsgPack.AnswersLike (pack' pack : VlMsgPack) (u : Spot DomEntry) : Prop where
  type : vlMsgPackType pack' u.label.iter = vlMsgPackType pack u.label.iter
  extType : vlMsgPackExtType pack' u.label.iter = vlMsgPackExtType pack u.label.iter
  value : vlMsgPackSampleValue pack' u.label.iter = vlMsgPackSampleValue pack u.label.iter
  parent : vlMsgPackParent pack' u.label.iter = vlMsgPackParent pack u.label.iter
  totalChildren : vlMsgPackTotalChildren pack' u.label.iter = vlMsgPackTotalChildren pack u.label.iter
  firstChild : vlMsgPackFirstChild pack' u.label.iter = vlMsgPackFirstChild pack u.label.iter
  nextSibling : ∀ c ∈ u.kids.roots, vlMsgPackNextSibling pack' c.iter = vlMsgPackNextSibling pack c.iter
  prevSibling : ∀ c ∈ u.kids.roots, vlMsgPackPrevSibling pack' c.iter = vlMsgPackPrevSibling pack c.iter

/-- The siblings of a child. -/
theorem DomLinked.siblings {parent : ℕ} {hash : UInt64} {ks : Forest DomEntry} {c : DomEntry}
    (h : DomLinked pack parent hash 0 0 ks) (h' : DomLinked pack' parent hash 0 0 ks) (hc : c ∈ ks.roots) :
    vlMsgPackNextSibling pack' c.iter = vlMsgPackNextSibling pack c.iter ∧
      vlMsgPackPrevSibling pack' c.iter = vlMsgPackPrevSibling pack c.iter := by
  obtain ⟨f₁, k, f₂, rfl⟩ := exists_append_of_mem_roots hc
  obtain ⟨⟨e, he⟩, -, -⟩ := domLinked_cons.mp (domLinked_append.mp h).2
  obtain ⟨⟨e', he'⟩, -, -⟩ := domLinked_cons.mp (domLinked_append.mp h').2
  rw [nextSibling_eq he.get, nextSibling_eq he'.get, prevSibling_eq he.get, prevSibling_eq he'.get, he.next,
    he'.next, he.prev, he'.prev]
  exact ⟨rfl, rfl⟩

/-- **Two documents with the same links answer the same**, when they find the same first slots. -/
theorem DomLinked.answersLike {x y x' y' : ℕ} (h : DomLinked pack 0 vlMsgPackRootHash x y f)
    (h' : DomLinked pack' 0 vlMsgPackRootHash x' y' f) (hu : u ∈ f.spots [])
    (hslot : u.label.node.value.type = .array →
      vlMsgPackFindChildIndexed pack' u.label.iter 0 = .ok (u.kids.firstIter 0) ∧
        vlMsgPackFindChildIndexed pack u.label.iter 0 = .ok (u.kids.firstIter 0)) :
    pack'.AnswersLike pack u := by
  obtain ⟨_, _, e, he, hkids⟩ := h.stored hu
  obtain ⟨_, _, e', he', hkids'⟩ := h'.stored hu
  refine ⟨?_, ?_, he'.sampleValue.trans he.sampleValue.symm, ?_,
    he'.totalChildren.trans he.totalChildren.symm,
    (he'.firstChild fun harray => (hslot harray).1).trans (he.firstChild fun harray => (hslot harray).2).symm,
    fun c hc => (hkids.siblings hkids' hc).1, fun c hc => (hkids.siblings hkids' hc).2⟩
  · rw [vlMsgPackType, vlMsgPackType, VlMsgPack.sample_eq he.get, VlMsgPack.sample_eq he'.get, ok_bind,
      ok_bind, he.type, he'.type]
  · rw [vlMsgPackExtType, vlMsgPackExtType, VlMsgPack.sample_eq he.get, VlMsgPack.sample_eq he'.get, ok_bind,
      ok_bind, he.extType, he'.extType]
  · rw [vlMsgPackParent, vlMsgPackParent, VlMsgPack.sample_eq he.get, VlMsgPack.sample_eq he'.get, ok_bind,
      ok_bind, he.parent, he'.parent]

/-! ### Keys -/

section Keys

variable {fr : Shell DomEntry} {ctx : List (Shell DomEntry)} {ks g : Forest DomEntry}

/-- A node is there with more children in a place, and has no others unless it is the one above the place. -/
theorem exists_spot_of_fill (hnodup : (fill (fr :: ctx) ks).iters.Nodup)
    (hu : u ∈ (fill (fr :: ctx) ks).spots []) : ∃ v ∈ (fill (fr :: ctx) (ks ++ g)).spots [],
      v.label = u.label ∧ v.above = u.above ∧
        ∀ b ∈ v.kids.roots, b ∈ u.kids.roots ∨ u.label.iter = fr.label.iter ∧ b ∈ g.roots := by
  have hset : fill (fr :: ctx) (ks ++ g) = (fill (fr :: ctx) ks).setKids fr.label.iter (ks ++ g) :=
    (updateAt_fill hnodup).symm
  have hspot : ⟨ctx.map Shell.label ++ [], fr.label, ks⟩ ∈ (fill (fr :: ctx) ks).spots [] := mem_spots_fill
  rw [hset]
  rcases mem_spots_updateAt_of_mem (p := fun a => a.iter = fr.label.iter) (φ := fun _ => ks ++ g) hu with
    ⟨s, hs, hiter, hbelow⟩ | hkept
  · obtain rfl := eq_of_mem_spots hnodup hs hspot (of_decide_eq_true hiter)
    exact ⟨u, mem_spots_updateAt_self hnodup hspot (mem_spots_append.mpr (Or.inl hbelow)), rfl, rfl,
      fun b hb => Or.inl hb⟩
  · refine ⟨_, hkept, rfl, rfl, fun b hb => ?_⟩
    dsimp only at hb
    split_ifs at hb with hiter
    · obtain rfl := eq_of_mem_spots hnodup hu hspot (of_decide_eq_true hiter)
      rw [roots_append, List.mem_append] at hb
      exact hb.imp id fun hb => ⟨rfl, hb⟩
    · rw [roots_updateAt] at hb
      exact Or.inl hb

/-- **After a call that fails** a key finds a child where it is, and nothing where there is none; all but the
key of the call. -/
theorem Reverted.find (h : Reverted used (fr :: ctx) (ks ++ g) ks pack')
    (hg : ∀ b ∈ g.roots, b.node.key = key) (hu : u ∈ (fill (fr :: ctx) ks).spots [])
    (hcontainer : u.label.node.value.type.IsContainer) (hk : u.label.iter = fr.label.iter → k ≠ key) :
    pack'.nodes.find (hierarchicalKey (hashAbove (u.label :: u.above)) k) =
      ((u.kids.roots.find? fun a => a.node.key = k).map DomEntry.iter).getD 0 := by
  obtain ⟨⟨⟨x, y, hlinked⟩, hproper⟩, pack₁, hopen, hshrinks⟩ := h
  have hshort : ∀ i n, pack'.node i = some n → n.key.length < 2 ^ 16 := by
    intro i n hn
    obtain ⟨m, hm, hkey⟩ := hshrinks i n hn
    exact hkey ▸ hopen.short i m hm
  have hchild : ∀ i n, pack'.node i = some n →
      n.stored = hierarchicalKey (hashAbove (u.label :: u.above)) k →
        ∃ c ∈ u.kids.roots, c.iter = i ∧ c.node.key = k := by
    intro i n hn hstored
    obtain ⟨m, hm, hkey⟩ := hshrinks i n hn
    have hmkey := (hkey.trans (VlMsgPackNode.stored_eq (hshort i n hn)).symm).trans hstored
    obtain ⟨v, hv, hlabel, habove, hroots⟩ := exists_spot_of_fill (g := g) hproper.nodup hu
    obtain ⟨fr', ctx', hfill, hv', -⟩ := exists_place hv
    have hcontainer' : fr'.label.node.value.type.IsContainer := by
      have hfr : fr'.label = u.label := by rw [← hlabel, hv']
      rwa [hfr]
    rw [hfill] at hopen
    have hfind := hopen.find hcontainer' k
    have hhash : ctxHash (fr' :: ctx') = hashAbove (u.label :: u.above) := by
      rw [← hlabel, ← habove, hv']
      rfl
    have hi : pack₁.nodes.find (hierarchicalKey (hashAbove (u.label :: u.above)) k) = i := by
      refine find_eq hm hmkey (hmkey ▸ hopen.short i m hm) fun j l hl hlstored => ?_
      have hlkey := (VlMsgPackNode.stored_eq (hopen.short j l hl)).symm.trans hlstored
      exact hopen.holds.unique j i l m hl hm (hlkey.trans hmkey.symm)
    rw [hhash, hi] at hfind
    cases hfound : v.kids.roots.find? fun a => a.node.key = k with
    | none =>
      rw [hfound] at hfind
      exact absurd hfind (Store.ne_zero_of_get hm)
    | some c =>
      rw [hfound] at hfind
      have hckey : c.node.key = k := by simpa using List.find?_some hfound
      rcases hroots c (List.mem_of_find?_eq_some hfound) with hc | ⟨hiter, hc⟩
      · exact ⟨c, hc, hfind.symm, hckey⟩
      · exact absurd (hckey.symm.trans (hg c hc)) (hk hiter)
  obtain ⟨_, _, e, he, hkids⟩ := hlinked.stored hu
  cases hfound : u.kids.roots.find? fun a => a.node.key = k with
  | none =>
    refine find_eq_zero fun i n hn hstored => ?_
    obtain ⟨c, hc, -, hkey⟩ := hchild i n hn hstored
    exact absurd (decide_eq_true hkey) (List.find?_eq_none.mp hfound c hc)
  | some c =>
    have hc := List.mem_of_find?_eq_some hfound
    have hckey : c.node.key = k := by simpa using List.find?_some hfound
    obtain ⟨f₁, kc, f₂, hsplit⟩ := exists_append_of_mem_roots hc
    rw [hsplit] at hkids
    obtain ⟨⟨ec, hec⟩, -, -⟩ := domLinked_cons.mp (domLinked_append.mp hkids).2
    have hget := hec.get
    rw [hckey] at hget
    refine find_eq hget rfl (hshort _ _ hget) fun i n hn hstored => ?_
    obtain ⟨m, hm, hmkey⟩ := hshrinks i n hn
    obtain ⟨l, hl, hlkey⟩ := hshrinks _ _ hget
    have hnkey := (VlMsgPackNode.stored_eq (hshort i n hn)).symm.trans hstored
    exact hopen.holds.unique i _ m l hm hl ((hmkey.trans hnkey).trans hlkey.symm)

end Keys

/-- What `vlMsgPackFindChild` finds, if it returns. -/
theorem find_of_vlMsgPackFindChild {i : ℕ} {n : VlMsgPackNode} {r : ℕ × VlMsgPack}
    (hn : pack.node i = some n) (hr : vlMsgPackFindChild pack i k = .ok r) :
    r.1 = pack.nodes.find (hierarchicalKey (vlHashMsgPackKey n.key) k) := by
  rw [vlMsgPackFindChild, VlMsgPack.keyHash_eq hn, ok_bind] at hr
  obtain ⟨⟨keyData, arenaAlloc, pack₁⟩, hbegin, hr⟩ := exists_of_bind_eq_ok hr
  obtain rfl := Except.ok.inj hr
  rw [vlMsgPackKeyBegin] at hbegin
  dsimp only at hbegin ⊢
  split_ifs at hbegin
  · cases hbegin
    rfl
  · obtain ⟨⟨ptr, values⟩, -, hbegin⟩ := exists_of_bind_eq_ok hbegin
    obtain ⟨values', -, hbegin⟩ := exists_of_bind_eq_ok hbegin
    cases hbegin
    rfl

/-- **The document answers as before** about every node: about the node itself, the order of its children,
and the child under any key but one of one node. -/
structure VlMsgPack.RolledBack (pack' pack : VlMsgPack) (f : Forest DomEntry) (t : Spot DomEntry)
    (key : List UInt8) : Prop where
  answers : ∀ u ∈ f.spots [], pack'.AnswersLike pack u
  finds : ∀ u ∈ f.spots [], u.label.node.value.type.IsContainer → ∀ k,
    (u.label.iter = t.label.iter → k ≠ key) → ∀ r, vlMsgPackFindChild pack' u.label.iter k = .ok r →
      (vlMsgPackFindChild pack u.label.iter k).map Prod.fst = .ok r.1

/-- A call that fails leaves the document to answer as before. -/
theorem Reverted.rolledBack {fr : Shell DomEntry} {ctx : List (Shell DomEntry)} {ks g : Forest DomEntry}
    (hrev : Reverted used (fr :: ctx) (ks ++ g) ks pack') (hg : ∀ b ∈ g.roots, b.node.key = key)
    (h : pack.Open used (fill (fr :: ctx) ks)) (hfr : fr.label.node.value.type = .map) :
    pack'.RolledBack pack (fill (fr :: ctx) ks) ⟨ctx.map Shell.label, fr.label, ks⟩ key := by
  obtain ⟨⟨x', y', hlinked'⟩, -⟩ := hrev.torn
  obtain ⟨x, y, hsound⟩ := h.holds.sound
  -- the key of a child is looked up as before
  have hsame : ∀ u ∈ (fill (fr :: ctx) ks).spots [], u.label.node.value.type.IsContainer → ∀ k,
      (u.label.iter = fr.label.iter → k ≠ key) →
        pack'.nodes.find (hierarchicalKey (hashAbove (u.label :: u.above)) k) =
          pack.nodes.find (hierarchicalKey (hashAbove (u.label :: u.above)) k) := by
    intro u hu hcontainer k hk
    have hself : Reverted used (fr :: ctx) (ks ++ nil) ks pack := append_nil.symm ▸ h.reverted
    exact (hrev.find hg hu hcontainer hk).trans
      (hself.find (fun b hb => absurd hb List.not_mem_nil) hu hcontainer hk).symm
  refine ⟨fun u hu => hsound.linked.answersLike hlinked' hu fun harray => ?_,
    fun u hu hcontainer k hk r hr => ?_⟩
  · obtain ⟨_, _, e, he, -⟩ := hsound.linked.stored hu
    obtain ⟨_, _, e', he', -⟩ := hlinked'.stored hu
    -- an array is another node than the one above the place
    have hother : u.label.iter ≠ fr.label.iter := by
      intro hiter
      obtain rfl := eq_of_mem_spots h.holds.nodup hu
        (mem_spots_fill : ⟨ctx.map Shell.label ++ [], fr.label, ks⟩ ∈ (fill (fr :: ctx) ks).spots []) hiter
      rw [hfr] at harray
      cases harray
    have hslot := h.holds.findChildIndexed h.distinguished.1 hu harray (Nat.two_pow_pos 32)
    rw [← firstIter_eq] at hslot
    refine ⟨Eq.trans ?_ hslot, hslot⟩
    rw [vlMsgPackFindChildIndexed, vlMsgPackFindChildIndexed, VlMsgPack.keyHash_eq he.get,
      VlMsgPack.keyHash_eq he'.get]
    exact congrArg Except.ok (hsame u hu (Or.inr harray) _ fun hiter => absurd hiter hother)
  · obtain ⟨_, _, e, he, -⟩ := hsound.linked.stored hu
    obtain ⟨_, _, e', he', -⟩ := hlinked'.stored hu
    obtain ⟨n, hrun⟩ : ∃ n, vlMsgPackFindChild pack u.label.iter k = _ :=
      vlMsgPackFindChild_spec hsound.unbroken he.get
    rw [hrun, find_of_vlMsgPackFindChild he'.get hr]
    exact congrArg Except.ok (hsame u hu hcontainer k hk).symm

end VeritableLasagna
