import VeritableLasagna.Dom.Shown

/-!
# Arrays in a document

A table that holds a document shows it (`Holds.shows`), and every insertion that has room makes a
document the client expects (`domStep_spec`), so the children of every array keep their indices, their
order and their number over whole runs (`vlMsgPackArray_indexed`). What ends this is the number of
buckets: an array that takes the table to 1717986918 nodes makes it grow to `2 ^ 32` buckets, which is
zero as a `vl_dsidx_t` (`not_vlMsgPackArray_full`).
-/

namespace VeritableLasagna

/-! ### Leaves with no bytes -/

/-- No leaf with no bytes is below an array: what is below a slot can be freed. -/
def Forest.Firm (f : Forest DomEntry) : Prop :=
  ∀ s ∈ f.spots [], s.label.node.hollow → ∀ a ∈ s.above, a.node.value.type ≠ .array

namespace Forest.Firm

variable {f f₁ f₂ old kids k : Forest DomEntry} {s : Spot DomEntry} {a c : DomEntry}
  {type : VlMsgPackType} {extType : ℤ} {data : Option (List UInt8)} {dataLen : ℕ}

/-- What is below a child of an array. -/
theorem not_hollow (h : f.Firm) (hs : s ∈ f.spots []) (harray : s.label.node.value.type = .array)
    (hkids : s.kids = f₁ ++ .cons c k f₂) : k.erase.hollow = false := by
  refine Forest.hollow_eq_false fun b hb hhollow => ?_
  obtain ⟨t, ht, rfl, habove⟩ : ∃ t ∈ k.spots (c :: s.label :: s.above), t.label = b ∧
      c :: s.label :: s.above ⊆ t.above := Forest.exists_spot_of_mem_labels hb
  have hspot : t ∈ s.kids.spots (s.label :: s.above) := by
    rw [hkids, Forest.mem_spots_append, Forest.mem_spots_cons]
    exact Or.inr (Or.inr (Or.inl ht))
  exact h t (Forest.mem_spots_of_mem_spots hs hspot) hhollow s.label (habove (by simp)) harray

/-- An insertion keeps this, when it does not put such a leaf there. -/
theorem inserted (h : f.Firm) (hnodup : (f.labels.map DomEntry.iter).Nodup) (hs : s ∈ f.spots [])
    (hkids : s.kids = f₁ ++ (old ++ f₂))
    (hmade : a.node.value.Made type extType data dataLen kids.erase)
    (hfirm : type.IsLeaf → dataLen = 0 → ∀ b ∈ s.label :: s.above, b.node.value.type ≠ .array) :
    (f.setKids s.label.iter (f₁ ++ (.cons a kids .nil ++ f₂))).Firm := by
  intro t ht hhollow
  rcases Forest.mem_spots_updateAt ht with ⟨s', hs', habove, hlabel⟩ | ⟨s', hs', hiter, ht'⟩
  · rw [← habove]
    exact h s' hs' (by rwa [hlabel])
  · obtain rfl : s' = s := Forest.eq_of_mem_spots hnodup hs' hs (of_decide_eq_true hiter)
    have hthere : ∀ g : Forest DomEntry, (∀ t, t ∈ g.spots (s'.label :: s'.above) →
        t ∈ s'.kids.spots (s'.label :: s'.above)) → t ∈ g.spots (s'.label :: s'.above) →
        ∀ b ∈ t.above, b.node.value.type ≠ .array := fun g hsubset ht =>
      h t (Forest.mem_spots_of_mem_spots hs (hsubset t ht)) hhollow
    rw [Forest.mem_spots_append, Forest.mem_spots_append, Forest.mem_spots_cons] at ht'
    rcases ht' with ht' | (rfl | ht' | ht') | ht'
    · refine hthere f₁ (fun t ht => ?_) ht'
      rw [hkids, Forest.mem_spots_append]
      exact Or.inl ht
    · obtain ⟨hleaf, hpayload⟩ := of_decide_eq_true hhollow
      have hmade' := hmade.payload_eq
      dsimp only at hleaf hpayload
      rw [hmade.type_eq] at hleaf
      rw [if_pos hleaf, hpayload] at hmade'
      exact hfirm hleaf hmade'.1.symm
    · obtain ⟨-, -, hnil, -⟩ := hmade.slot (Forest.label_mem_of_mem_spots ht')
      obtain ⟨hleaf, -⟩ := of_decide_eq_true hhollow
      exact absurd hnil hleaf.1
    · exact absurd ht' List.not_mem_nil
    · refine hthere f₂ (fun t ht => ?_) ht'
      rw [hkids, Forest.mem_spots_append, Forest.mem_spots_append]
      exact Or.inr (Or.inr ht)

end Forest.Firm

/-- The table holds the document that the client knows. -/
def DomState.Inv (s : DomState) : Prop :=
  ∃ f : Forest DomEntry, s.doc = f.map DomEntry.item ∧ s.pack.Holds s.used f ∧ f.Firm

theorem DomState.Inv.right {s : DomState} (h : s.Inv) (hinj : HashInjective s.used) : s.Right := by
  obtain ⟨f, hdoc, hholds, -⟩ := h
  exact hholds.right hdoc hinj

/-! ### Steps -/

section Step

variable {s : DomState} {o : DomInsert}

theorem DomState.used_subset_uses : s.used ⊆ s.uses o := by
  rw [uses]
  split
  · split_ifs
    · exact List.subset_cons_self _ _
    · exact List.Subset.refl _
  · exact List.Subset.refl _

/-- The key of a new container is used. -/
theorem DomState.mem_uses {n : VlMsgPackNode} (hn : s.pack.node o.parent = some n)
    (hcontainer : o.type.IsContainer) :
    hierarchicalKey (vlHashMsgPackKey n.key) o.key ∈ s.uses o := by
  rw [uses, VlMsgPack.keyHash_eq hn]
  dsimp only
  rw [if_pos hcontainer]
  exact List.mem_cons_self

/-- What an insertion has done, its client knows. -/
theorem DomInsert.Done.inv {f f₁ f₂ old kids : Forest DomEntry} {u : Spot DomEntry} {a : DomEntry}
    {m : VlMsgPackNode} {r : ℕ × List ℕ × VlMsgPack}
    (h : o.Done s.pack (s.uses o) f u m f₁ f₂ r a kids) (hdoc : s.doc = f.map DomEntry.item)
    (hfirm₀ : f.Firm) (hnodup : (f.labels.map DomEntry.iter).Nodup) (hu : u ∈ f.spots [])
    (hkids : u.kids = f₁ ++ (old ++ f₂))
    (hfirm : o.type.IsLeaf → o.dataLen = 0 → ∀ b ∈ u.label :: u.above, b.node.value.type ≠ .array) :
    DomState.Inv ⟨r.2.2, o.applied r.1 r.2.1 s.doc, s.uses o⟩ :=
  ⟨_, (congrArg _ hdoc).trans h.doc, h.holds, hfirm₀.inserted hnodup hu hkids h.made hfirm⟩

/-- **A child of an array is overwritten.** -/
theorem domStep_overwrites (h : s.Inv) (hinj : HashInjective (s.uses o))
    (hext : Accepted o.type o.extType) (hdata : DataFits o.type o.data o.dataLen)
    (hover : s.Overwrites o) (hroom : (o.applied 0 [] s.doc).labels.length ≤ VlNodeTable.limit) :
    Returns (domStep s o) DomState.Inv := by
  obtain ⟨f, hdoc, hholds, hfirm₀⟩ := h
  obtain ⟨t, ht, hparent, harray, ⟨index, hindex, hkey⟩, hfirm⟩ := hover
  rw [hdoc] at ht hroom
  obtain ⟨u, hu, rfl⟩ := exists_spot_of_mem_item ht
  obtain ⟨m, hm⟩ := hholds.node hu
  have hparent : u.label.iter = o.parent := hparent
  have harray : u.label.node.value.type = .array := harray
  obtain ⟨hkeys, hlength⟩ := hholds.array_keys hu harray
  have hindex : index < u.kids.roots.length := by
    rwa [Spot.map, Forest.length_map, ← Forest.length_roots] at hindex
  -- the child with the index
  have hc : u.kids.roots[index]? = some u.kids.roots[index] := List.getElem?_eq_getElem hindex
  have hckey := (hholds.array_key hu harray hc).trans hkey.symm
  obtain ⟨f₁, k, f₂, hkids⟩ := Forest.exists_append_of_mem_roots (List.mem_of_getElem? hc)
  generalize u.kids.roots[index] = c at hc hckey hkids
  have hbefore : ∀ b ∈ f₁.roots, b.node.key ≠ o.key := by
    have hnodup := nodup_slotKeys hlength.le
    rw [← hkeys, hkids, Forest.roots_append, List.map_append, List.nodup_append'] at hnodup
    intro b hb heq
    refine hnodup.2.2 (List.mem_map_of_mem hb) ?_
    rw [heq, ← hckey, Forest.roots_cons, List.map_cons]
    exact List.mem_cons_self
  have hfind : s.pack.nodes.find (hierarchicalKey (vlHashMsgPackKey m.key) c.node.key) = c.iter := by
    have hslot := hholds.find_slot (hinj.mono DomState.used_subset_uses) hu harray hm
      ((hindex.trans_eq Forest.length_roots).trans hlength)
    rwa [hc, slotKey, ← hkey, ← hckey] at hslot
  refine (DomInsert.run_replace hholds hinj DomState.used_subset_uses hu hparent hm hkids hckey hbefore
    hfind (hfirm₀.not_hollow hu harray hkids) hext hdata
    (fun hcontainer => DomState.mem_uses (hparent ▸ hm) hcontainer) hroom).bind ?_
  rintro r ⟨a, kids, hdone⟩
  have hsplit : u.kids = f₁ ++ (.cons c k .nil ++ f₂) := hkids
  exact returns_ok (hdone.inv hdoc hfirm₀ hholds.nodup hu hsplit fun hleaf hzero =>
    absurd hzero (hfirm hleaf))

/-- **A map gets a new key.** -/
theorem domStep_adds (h : s.Inv) (hinj : HashInjective (s.uses o))
    (hext : Accepted o.type o.extType) (hdata : DataFits o.type o.data o.dataLen) (hadds : s.Adds o)
    (hroom : s.Roomy o) : Returns (domStep s o) DomState.Inv := by
  obtain ⟨hnodes, hunfound⟩ := hroom
  have hfound := hunfound hadds
  obtain ⟨f, hdoc, hholds, hfirm₀⟩ := h
  obtain ⟨t, ht, hparent, hmap, hkey, hfirm⟩ := hadds
  rw [hdoc] at ht hnodes
  obtain ⟨u, hu, rfl⟩ := exists_spot_of_mem_item ht
  obtain ⟨m, hm⟩ := hholds.node hu
  obtain ⟨_, _, hsound⟩ := hholds.sound
  have hparent : u.label.iter = o.parent := hparent
  have hmap : u.label.node.value.type = .map := hmap
  rw [Spot.map, Forest.roots_map, List.map_map] at hkey
  have hnew : ∀ b ∈ u.kids.roots, b.node.key ≠ o.key := fun b hb heq =>
    hkey (List.mem_map.mpr ⟨b, hb, heq⟩)
  have hfind : s.pack.nodes.find (hierarchicalKey (vlHashMsgPackKey m.key) o.key) = 0 := by
    obtain ⟨k, hchild⟩ : ∃ k, vlMsgPackFindChild s.pack u.label.iter o.key = _ :=
      vlMsgPackFindChild_spec hsound.unbroken hm
    rw [← hparent, hchild] at hfound
    exact Except.ok.inj hfound
  have hfirm' : o.type.IsLeaf → o.dataLen = 0 →
      ∀ b ∈ u.label :: u.above, b.node.value.type ≠ .array := by
    intro hleaf hzero b hb
    rcases List.mem_cons.mp hb with rfl | hb
    · rw [hmap]
      decide
    · exact hfirm hleaf hzero b.item (List.mem_map_of_mem hb)
  refine (DomInsert.run_add hholds hinj DomState.used_subset_uses hu hparent hmap hm hnew hfind hext
    hdata (fun hcontainer => DomState.mem_uses (hparent ▸ hm) hcontainer) hnodes).bind ?_
  rintro r ⟨a, kids, hdone⟩
  have hsplit : u.kids = u.kids ++ (.nil ++ .nil) := by simp
  exact returns_ok (hdone.inv hdoc hfirm₀ hholds.nodup hu hsplit hfirm')

/-- **A step that has room** makes a document the client knows. -/
theorem domStep_spec (h : s.Inv) (hg : (domMachine.restrict DomState.Roomy).guard s o)
    (hinj : HashInjective (s.uses o)) : Returns (domStep s o) DomState.Inv := by
  obtain ⟨⟨hext, hdata, hplace⟩, hroom⟩ := hg
  rcases hplace with hadds | hover
  · exact domStep_adds h hinj hext hdata hadds hroom
  · exact domStep_overwrites h hinj hext hdata hover hroom.nodes

/-- The keys are used up to the end. -/
theorem domStep_used {s' : DomState} (h : domStep s o = .ok s') : s'.used = s.uses o := by
  obtain ⟨r, -, h⟩ := exists_of_bind_eq_ok h
  obtain rfl := Except.ok.inj h
  rfl

end Step

/-! ### Runs -/

/-- The first document. -/
theorem domInit_spec (nodePlace valuePlace : Placement) :
    Returns (domInit nodePlace valuePlace) fun s => s.Inv ∧ ∃ root,
      s.doc = .cons ⟨root, vlMsgPackRootString, .map⟩ .nil .nil ∧ s.used = [vlMsgPackRootKey] := by
  refine (domInit_holds nodePlace valuePlace).mono fun s ⟨r, hdoc, hused, hkey, htype, hholds⟩ =>
    ⟨⟨.cons r .nil .nil, hdoc, hholds, fun s hs _ => ?_⟩, r.iter, ?_, hused⟩
  · obtain rfl : s = ⟨[], r, .nil⟩ := by simpa using hs
    exact fun a ha => absurd ha List.not_mem_nil
  · rw [hdoc, DomEntry.item, hkey, htype]

/-- Every document that is reached by insertions that have room is the one its client knows. -/
theorem domRun_inv {s s' : DomState} {os : List DomInsert}
    (hrun : (domMachine.restrict DomState.Roomy).Run s os s') (hs : s.Inv)
    (hinj : HashInjective s'.used) : s'.Inv := by
  have hstep : ∀ s o s', (HashInjective s.used → s.Inv) →
      (domMachine.restrict DomState.Roomy).guard s o →
      (domMachine.restrict DomState.Roomy).step s o = .ok s' → HashInjective s'.used → s'.Inv := by
    intro s o s' ih hg hstep hinj
    have hinj' : HashInjective (s.uses o) := domStep_used hstep ▸ hinj
    exact (domStep_spec (ih (hinj'.mono DomState.used_subset_uses)) hg hinj').of_ok hstep
  exact hrun.invariant hstep (fun _ => hs) hinj

/-- **The children of an array keep their indices, their order and their number**, and everything a
client knows of a document is right, over all runs of insertions that have room. -/
theorem vlMsgPackArray_indexed (nodePlace valuePlace : Placement) (s₀ : DomState)
    (hinit : domInit nodePlace valuePlace = .ok s₀) (os : List DomInsert) (s : DomState)
    (hrun : (domMachine.restrict DomState.Roomy).Run s₀ os s) (hinj : HashInjective s.used) :
    s.Right ∧ ∀ o, (domMachine.restrict DomState.Roomy).guard s o → HashInjective (s.uses o) →
      Returns (domMachine.step s o) DomState.Right := by
  obtain ⟨hs₀, -⟩ := (domInit_spec nodePlace valuePlace).of_ok hinit
  have hs := domRun_inv hrun hs₀ hinj
  refine ⟨hs.right hinj, fun o hg hinj' => ?_⟩
  obtain ⟨s', hstep, hs'⟩ := domStep_spec hs hg hinj'
  exact ⟨s', hstep, hs'.right (domStep_used hstep ▸ hinj')⟩

/-- An array of two below the root, and a map and another array in its slots. -/
theorem vlMsgPackArray_indexed_nested : ∃ s₀ s, domInit .bump .bump = .ok s₀ ∧
    (domMachine.restrict DomState.Roomy).Run s₀
      [⟨.array, vlMsgPackExtNone, 1, [97], some (natToLE 4 2), 4⟩,
        ⟨.array, vlMsgPackExtNone, 2, natToLE 4 1, some (natToLE 4 1), 4⟩,
        ⟨.map, vlMsgPackExtNone, 2, natToLE 4 0, none, 0⟩] s ∧
    HashInjective s.used ∧ s.Right := by
  have hexec : ((domInit .bump .bump).toOption.any fun s₀ =>
      ((domMachine.restrict DomState.Roomy).exec s₀
        [⟨.array, vlMsgPackExtNone, 1, [97], some (natToLE 4 2), 4⟩,
          ⟨.array, vlMsgPackExtNone, 2, natToLE 4 1, some (natToLE 4 1), 4⟩,
          ⟨.map, vlMsgPackExtNone, 2, natToLE 4 0, none, 0⟩]).any
        fun s => decide (HashInjective s.used)) = true := by decide +kernel
  obtain ⟨s₀, hinit, hexec⟩ := (Option.any_eq_true _ _).mp hexec
  obtain ⟨s, hrun, hinj⟩ := Machine.exists_run_of_exec hexec
  have hinj := of_decide_eq_true hinj
  have hinit := eq_ok_of_toOption hinit
  exact ⟨s₀, s, hinit, hrun, hinj, (vlMsgPackArray_indexed .bump .bump s₀ hinit _ s hrun hinj).1⟩

/-! ### A full table -/

/-- A document that is right has no more nodes than the table can have. -/
theorem DomState.Right.length_le {s : DomState} (h : s.Right) :
    s.doc.labels.length ≤ VlNodeTable.limit := by
  rw [← List.length_map DomItem.iter]
  refine (VlMsgPack.length_le_total h.nodup fun i hi hnone => ?_).trans s.pack.total_le
  obtain ⟨a, ha, rfl⟩ := List.mem_map.mp hi
  obtain ⟨t, ht, rfl, -⟩ : ∃ t ∈ s.doc.spots [], t.label = a ∧ [] ⊆ t.above :=
    Forest.exists_spot_of_mem_labels ha
  obtain ⟨e, he, -⟩ := exists_of_bind_eq_ok (h.shows t ht).type
  obtain ⟨n, hn, -⟩ := exists_of_bind_eq_ok he
  have hget : s.pack.nodes.store.get t.label.iter = none := hnone
  rw [hget] at hn
  cases hn

/-- An array that is too long for the table is not made in a new document. -/
theorem not_right_of_full {s : DomState} {o : DomInsert} {root : DomItem}
    (hdoc : s.doc = .cons root .nil .nil) (hparent : root.iter = o.parent)
    (hfull : VlNodeTable.limit < slotCount o.type o.data + 2) :
    ¬ Returns (domStep s o) DomState.Right := by
  rintro ⟨s', hstep, hright⟩
  have hle := hright.length_le
  obtain ⟨r, -, hstep⟩ := exists_of_bind_eq_ok hstep
  obtain rfl := Except.ok.inj hstep
  have happlied : o.applied r.1 r.2.1 s.doc = .cons root (.cons ⟨r.1, o.key, o.type⟩
      (slotItems (slotCount o.type o.data) 0 r.2.1) .nil) .nil := by
    rw [hdoc, DomInsert.applied, Forest.updateAt_cons, if_pos (decide_eq_true hparent)]
    rfl
  dsimp only at hle
  rw [happlied, Forest.labels_cons, Forest.labels_cons, Forest.labels_nil, List.append_nil,
    List.append_nil, List.length_cons, List.length_cons, length_labels_slotItems] at hle
  omega

/-- **The longest array does not fit**: the table grows until it has no buckets. -/
theorem not_vlMsgPackArray_full : ∃ s₀ o, domInit .bump .bump = .ok s₀ ∧ domMachine.guard s₀ o ∧
    HashInjective (s₀.uses o) ∧ o.type = .array ∧ o.data = some (natToLE 4 (2 ^ 32 - 1)) ∧
    ¬ Returns (domMachine.step s₀ o) DomState.Right := by
  obtain ⟨s₀, hinit, ⟨f, hf, hholds, -⟩, root, hdoc, hused⟩ := domInit_spec .bump .bump
  have hcount : slotCount .array (some (natToLE 4 (2 ^ 32 - 1))) = 2 ^ 32 - 1 :=
    natOfLE_take_natToLE (by norm_num)
  have hdata : DataFits .array (some (natToLE 4 (2 ^ 32 - 1))) 4 :=
    ⟨fun h => absurd rfl h.2.2, fun _ h => by cases h⟩
  have hspot : ⟨[], ⟨root, vlMsgPackRootString, .map⟩, .nil⟩ ∈ s₀.doc.spots [] := by
    rw [hdoc]
    exact List.mem_cons_self
  generalize natToLE 4 (2 ^ 32 - 1) = src at hcount hdata ⊢
  refine ⟨s₀, ⟨.array, vlMsgPackExtNone, root, [97], some src, 4⟩, hinit, ⟨?_, hdata, ?_⟩, ?_, rfl, rfl,
    not_right_of_full hdoc rfl ?_⟩
  · exact fun h => by cases h.1
  · exact Or.inl ⟨_, hspot, rfl, rfl, List.not_mem_nil, fun _ _ a ha => absurd ha List.not_mem_nil⟩
  · -- the keys of the two containers
    obtain ⟨u, hu, hroot⟩ := exists_spot_of_mem_item (hf ▸ hspot)
    obtain ⟨n, hn⟩ := hholds.node hu
    have htype : u.label.node.value.type = .map := congrArg (fun t => t.label.type) hroot
    have hiter : u.label.iter = root := congrArg (fun t => t.label.iter) hroot
    have hkey := hholds.used _ (Forest.label_mem_of_mem_spots hu) (Or.inl htype) n hn
    rw [hused, List.mem_singleton] at hkey
    have hkeys : HashInjective [hierarchicalKey (vlHashMsgPackKey vlMsgPackRootKey) [97],
        vlMsgPackRootKey] := by decide +kernel
    rw [DomState.uses, ← hiter, VlMsgPack.keyHash_eq hn, hkey, hused]
    exact hkeys
  · rw [hcount, VlNodeTable.limit]
    norm_num

end VeritableLasagna
