import VeritableLasagna.Dom.RoundTrip

/-!
# Canonical texts

What `vlMsgPackIOEncodeFromDOM` appends for a node depends on its tree only, not on the document, on the
encoder or on what was written before. It is `DomValue.text`. The tree can be told from the text
(`items_unique`), so that two nodes have the same text exactly if they have the same value with the same
tree below it, and a node that was read from a text is written as this text again.
-/

namespace VeritableLasagna

open Forest

/-- **The text of a node**: the bytes of its item, then those of the items of the trees below it. -/
def DomValue.text (v : DomValue) (kids : Forest DomNode) : List UInt8 :=
  (v.item kids.length :: kids.items (decide (v.type = .map))).flatMap MsgPackItem.bytes

theorem Chunked.eq_text {bs key : List UInt8} {v : DomValue} {kids : Forest DomNode}
    (h : Chunked MsgPackItem.Written bs ((Forest.cons ⟨key, v⟩ kids nil).items false)) :
    bs = v.text kids := by
  rw [items_single] at h
  exact h.eq_bytes

/-! ### A tree is told from its items -/

section Unique

variable {v w : DomValue} {f g : Forest DomNode} {isMap : Bool} {m n : ℕ}

/-- A plain value is told from its item, and so is the number of the children. -/
theorem DomValue.Plain.item_unique (hv : v.Plain) (hw : w.Plain) (h : v.item m = w.item n) :
    v = w ∧ (v.type.IsContainer → m = n) := by
  have hnode : (⟨[], v⟩ : DomNode) = ⟨[], w⟩ := by
    have hnode : ((v.item m).insertion 0 []).node = ⟨[], v⟩ := hv.node_item
    rw [← hnode, h, hw.node_item]
  obtain rfl : v = w := congrArg DomNode.value hnode
  refine ⟨rfl, fun hcontainer => ?_⟩
  rw [item, item] at h
  rcases hcontainer with hmap | harray
  · rw [hmap] at h
    exact MsgPackItem.map.inj h
  · rw [harray] at h
    exact MsgPackItem.array.inj h

/-- **As many trees side by side** are told from the items they begin with; those of an array, whose keys
are not written, by their keys too. -/
theorem Forest.items_unique (hf : f.All DomNode.Regular) (hg : g.All DomNode.Regular)
    (hlength : f.length = g.length)
    (hkeys : isMap = false → f.roots.map DomNode.key = g.roots.map DomNode.key) {r r' : List MsgPackItem}
    (h : f.items isMap ++ r = g.items isMap ++ r') : f = g ∧ r = r' := by
  induction f generalizing g isMap r r' with
  | nil =>
    obtain rfl : g = nil := by
      cases g with
      | nil => rfl
      | cons b kids' rest' => cases hlength
    exact ⟨rfl, h⟩
  | cons a kids rest ih₁ ih₂ =>
    cases g with
    | nil => cases hlength
    | cons b kids' rest' =>
      obtain ⟨ha, hkids, hrest⟩ := all_cons.mp hf
      obtain ⟨hb, hkids', hrest'⟩ := all_cons.mp hg
      rw [length_cons, length_cons] at hlength
      rw [items, items] at h
      have hsame : a.key = b.key ∧
          a.value.item kids.length :: (kids.items (decide (a.value.type = .map)) ++
              (rest.items isMap ++ r)) =
            b.value.item kids'.length :: (kids'.items (decide (b.value.type = .map)) ++
              (rest'.items isMap ++ r')) := by
        simp only [List.append_assoc, List.cons_append] at h
        cases isMap with
        | false =>
          have hroots := hkeys rfl
          rw [roots_cons, roots_cons, List.map_cons, List.map_cons] at hroots
          exact ⟨(List.cons.inj hroots).1, h⟩
        | true =>
          obtain ⟨hstr, hitems⟩ := List.cons.inj h
          exact ⟨MsgPackItem.str.inj hstr, hitems⟩
      obtain ⟨hkey, hitems⟩ := hsame
      obtain ⟨hitem, hbelow⟩ := List.cons.inj hitems
      obtain ⟨hvalue, hchildren⟩ := ha.plain.item_unique hb.plain hitem
      obtain rfl : a = b := by
        cases a
        cases b
        simp_all
      have hkidsLength : kids.length = kids'.length := by
        by_cases hcontainer : a.value.type.IsContainer
        · exact hchildren hcontainer
        · rw [ha.leaf hcontainer, hb.leaf hcontainer]
      have hkidsKeys : decide (a.value.type = .map) = false →
          kids.roots.map DomNode.key = kids'.roots.map DomNode.key := by
        intro hmap
        by_cases harray : a.value.type = .array
        · rw [ha.array harray, hb.array harray, hkidsLength]
        · have hleaf : ¬ a.value.type.IsContainer :=
            fun hcontainer => hcontainer.elim (of_decide_eq_false hmap) harray
          rw [ha.leaf hleaf, hb.leaf hleaf]
      obtain ⟨rfl, hbehind⟩ := ih₁ hkids hkids' hkidsLength hkidsKeys hbelow
      have hrestKeys : isMap = false → rest.roots.map DomNode.key = rest'.roots.map DomNode.key := by
        intro hfalse
        have hroots := hkeys hfalse
        rw [roots_cons, roots_cons, List.map_cons, List.map_cons] at hroots
        exact (List.cons.inj hroots).2
      obtain ⟨rfl, hr⟩ := ih₂ hrest hrest' (Nat.succ.inj hlength) hrestKeys hbehind
      exact ⟨rfl, hr⟩

end Unique

section Canonical

variable {pack pack' : VlMsgPack} {used used' : List (List UInt8)} {f f' : Forest DomEntry}
  {s t : Spot DomEntry}

/-- **The text of a node** is appended. -/
theorem VlMsgPack.Open.writes (h : pack.Open used f) (hs : s ∈ f.spots [])
    (hplain : ∀ a ∈ s.label :: s.kids.labels, a.node.value.Plain) (size : ℕ → ℕ) {enc : VlMsgPackEncoder}
    (henc : enc.buffer.WellFormed) :
    Serves (vlMsgPackIOEncodeFromDOM size enc pack s.label.iter)
      ((vlMsgPackEncodeIncrement enc).Appended (s.label.node.value.text s.kids.erase)) := by
  have hshort : ([] : List UInt8).length + 8 < 2 ^ 16 := by decide
  refine (h.encodes hs hplain henc hshort).2.mono ?_
  rintro enc' ⟨bs, happ, hchunked⟩
  rwa [hchunked.eq_text] at happ

end Canonical

end VeritableLasagna
