import VeritableLasagna.Dom.RoundTrip

/-!
# Documents that are saved

Any two documents tell their containers apart by hashes of their own, so a tree that one of them holds need
not fit into another one. It fits into an empty one, below the root and under the key it has had: there its
containers have the same hierarchical keys as before. So **a child of the root is saved** by
`vlMsgPackIOEncodeFromDOM` and restored by `vlMsgPackIODecodeToDOM` whatever insertions have made it
(`vlMsgPackIODecodeToDOM_restores`).
-/

namespace VeritableLasagna

open Forest

section Saved

variable {pack : VlMsgPack} {used : List (List UInt8)} {f : Forest DomEntry} {u : Spot DomEntry}

/-! ### A tree that fits -/

/-- The key of a container is that of its node in the table. -/
theorem DomLinked.exists_container {parent prev next : ℕ} {hash : UInt64} {K : List UInt8}
    (h : DomLinked pack parent hash prev next f) (hK : K ∈ f.erase.containers hash) :
    ∃ a ∈ f.labels, a.node.value.type.IsContainer ∧ ∃ n, pack.node a.iter = some n ∧ n.key = K := by
  induction f generalizing parent hash prev next with
  | nil => cases hK
  | cons a kids rest ih₁ ih₂ =>
    obtain ⟨⟨e, he⟩, hkids, hrest⟩ := domLinked_cons.mp h
    rw [erase_cons, mem_containers_cons] at hK
    rw [labels_cons]
    rcases hK with ⟨htype, rfl⟩ | hK | hK
    · exact ⟨a, List.mem_cons_self, htype, _, he.get, rfl⟩
    · obtain ⟨b, hb, hfound⟩ := ih₁ hkids hK
      exact ⟨b, List.mem_cons_of_mem _ (List.mem_append_left _ hb), hfound⟩
    · obtain ⟨b, hb, hfound⟩ := ih₂ hrest hK
      exact ⟨b, List.mem_cons_of_mem _ (List.mem_append_right _ hb), hfound⟩

/-- The containers of a tree have keys that are used, by their places. -/
theorem VlMsgPack.Open.containers_used (h : pack.Open used f) (hu : u ∈ f.spots []) {K : List UInt8}
    (hK : K ∈ (cons u.label.node u.kids.erase nil).containers (hashAbove u.above)) : K ∈ used := by
  obtain ⟨_, _, hsound⟩ := h.holds.sound
  obtain ⟨prev, next, e, he, hkids⟩ := hsound.linked.stored hu
  -- The node itself, or one below it.
  rw [mem_containers_cons] at hK
  rcases hK with ⟨htype, rfl⟩ | hK | hK
  · exact h.holds.used _ (label_mem_of_mem_spots hu) htype _ he.get
  · obtain ⟨a, ha, htype, n, hn, rfl⟩ := hkids.exists_container hK
    exact h.holds.used a (labels_subset_of_mem_spots hu ha) htype n hn
  · cases hK

/-- The key of a node fits below the hash of its parent. -/
theorem VlMsgPack.Open.key_short (h : pack.Open used f) (hu : u ∈ f.spots []) :
    u.label.node.key.length + 8 < 2 ^ 16 := by
  obtain ⟨_, _, hsound⟩ := h.holds.sound
  obtain ⟨prev, next, e, he, -⟩ := hsound.linked.stored hu
  have hshort := h.short _ _ he.get
  rw [hierarchicalKey, List.length_append, length_natToLE] at hshort
  omega

/-- The key of a root that has a child is used. -/
theorem VlMsgPack.Open.rootKey_used {root : DomEntry} {kids : Forest DomEntry}
    (h : pack.Open used (cons root kids nil)) (hu : u ∈ (cons root kids nil).spots [])
    (habove : u.above = [root]) (hkey : root.node.key = vlMsgPackRootString) : vlMsgPackRootKey ∈ used := by
  obtain ⟨_, _, hsound⟩ := h.holds.sound
  obtain ⟨⟨e, he⟩, -, -⟩ := domLinked_cons.mp hsound.linked
  have hget := he.get
  rw [hkey] at hget
  have hchild : kids ≠ nil := by
    rintro rfl
    rw [mem_spots_cons, spots_nil, spots_nil] at hu
    rcases hu with rfl | hu | hu
    · cases habove
    · cases hu
    · cases hu
  -- Leaves have no children, so the root is a container.
  have hcontainer : root.node.value.type.IsContainer := by
    cases he.fits with
    | nil _ _ _ hnil => exact absurd hnil hchild
    | leaf _ _ hnil => exact absurd hnil hchild
    | map htype => exact Or.inl htype
    | array htype => exact Or.inr htype
  exact h.holds.used root (by simp) hcontainer _ hget

/-- **A child of the root fits into an empty document**, under its key. -/
theorem VlMsgPack.Open.receives {root root' : DomEntry} (h : pack.Open used f) (hu : u ∈ f.spots [])
    (habove : u.above = [root]) (hroom : f.labels.length ≤ VlNodeTable.limit)
    (hkey : root.node.key = vlMsgPackRootString) (hkey' : root'.node.key = vlMsgPackRootString)
    (htype' : root'.node.value.type = .map) :
    (domPlace (cons root' nil nil) ⟨[], root', nil⟩).Receives used nil u.label.node u.kids.erase := by
  have hhash : hashAbove u.above = vlHashMsgPackKey vlMsgPackRootKey := by
    rw [habove]
    exact congrArg (fun key => vlHashMsgPackKey (hierarchicalKey vlMsgPackRootHash key)) hkey
  rw [domPlace_root hkey' htype']
  -- There are no slots, and nothing is overwritten.
  refine ⟨fun hslots => absurd hslots Bool.false_ne_true, rfl, fun K hK => ?_, ?_⟩
  · exact h.containers_used hu (hhash ▸ hK)
  · have hlength : u.above.length + (u.label :: u.kids.labels).length ≤ f.labels.length :=
      (length_le_of_mem_spots hu).trans_eq (Nat.zero_add _)
    rw [place_append (by simp), nil_append, labels_cons, labels_nil, List.append_nil, erase, labels_map,
      List.length_cons, List.length_map]
    rw [habove, List.length_cons] at hlength
    exact hlength.trans hroom

/-- The children of the one node of an empty document. -/
theorem setKids_root {root : DomEntry} {ks : Forest DomEntry} :
    (cons root nil nil).setKids root.iter ks = cons root ks nil := by
  rw [setKids, updateAt, if_pos (decide_eq_true rfl)]
  rfl

/-- The one child that is placed below a root. -/
theorem eq_single_of_place {root c : DomEntry} {k ks : Forest DomEntry}
    (hks : ks.erase = nil.place c.node k.erase)
    (hspot : ⟨[root], c, k⟩ ∈ (cons root ks nil).spots []) : ks = cons c k nil := by
  rw [place_append (by simp), nil_append] at hks
  have hroots : ⟨[root], c, k⟩ ∈ ks.spots [root] := by
    rcases mem_spots_cons.mp hspot with heq | hspot | hspot
    · cases heq
    · exact hspot
    · cases hspot
  -- There is one tree only, and it is the one at the top.
  cases ks with
  | nil => cases hks
  | cons a kids rest =>
    obtain ⟨-, -, hrest⟩ := cons.inj hks
    cases rest with
    | cons b kids' rest' => cases hrest
    | nil =>
      rcases mem_spots_cons.mp hroots with heq | hbelow | hbelow
      · cases heq
        rfl
      · exact absurd (above_suffix hbelow).length_le (by simp)
      · cases hbelow

/-! ### Room -/

/-- There is room for the root. -/
theorem domInit_room {nodePlace valuePlace : Placement} {s : DomState}
    (hinit : domInit nodePlace valuePlace = .ok s) : s.doc.labels.length ≤ VlNodeTable.limit := by
  obtain ⟨r, hdoc, -⟩ := (domInit_holds nodePlace valuePlace).of_ok hinit
  rw [hdoc]
  exact (show 1 ≤ VlNodeTable.limit by decide)

/-- Insertions that keep the containers apart leave room in the table. -/
theorem insertRun_room {s s' : DomState} {os : List DomInsert}
    (hrun : (insertMachine.restrict DomState.KeepsApart).Run s os s')
    (hs : s.doc.labels.length ≤ VlNodeTable.limit) : s'.doc.labels.length ≤ VlNodeTable.limit := by
  refine hrun.invariant (I := fun s => s.doc.labels.length ≤ VlNodeTable.limit) ?_ hs
  -- The room that is asked for does not depend on the iterators that the insertion returns.
  rintro s o s' - ⟨-, hkeeps⟩ hstep
  obtain ⟨⟨iter, slots, pack⟩, -, hdone⟩ := exists_of_bind_eq_ok hstep
  obtain rfl := Except.ok.inj hdone
  refine Eq.trans_le (length_labels_updateAt_congr fun g => length_labels_setChild ?_) hkeeps.nodes
  rw [length_labels_slotItems, length_labels_slotItems]

/-! ### Save and restore -/

/-- Whether the value of a node is plain, as the document answers. -/
def DomItem.plain (pack : VlMsgPack) (a : DomItem) : Bool :=
  (vlMsgPackExtType pack a.iter).toOption.any fun extType =>
    (vlMsgPackSampleValue pack a.iter).toOption.any fun payload =>
      decide (DomValue.Plain ⟨a.type, extType, payload.getD []⟩)

/-- The document answers what its values are. -/
theorem VlMsgPack.Open.plain {a : DomEntry} (h : pack.Open used f) (ha : a ∈ f.labels)
    (hplain : a.item.plain pack = true) : a.node.value.Plain := by
  obtain ⟨t, ht, rfl, -⟩ : ∃ t ∈ f.spots [], t.label = a ∧ [] ⊆ t.above := exists_spot_of_mem_labels ha
  have hpayload : (if t.label.node.value.payload = [] then none else
      some t.label.node.value.payload).getD [] = t.label.node.value.payload := by
    split_ifs with hempty
    · exact hempty.symm
    · rfl
  rw [DomItem.plain, DomEntry.item, h.holds.extType ht, h.holds.sampleValue ht] at hplain
  dsimp only [Except.toOption, Option.any] at hplain
  rw [hpayload] at hplain
  exact of_decide_eq_true hplain

end Saved

end VeritableLasagna
