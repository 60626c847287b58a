import VeritableLasagna.LinkedList.Layout

/-!
# The mutators of the list

Every mutator of `vl_linked_list` returns and keeps the list invariant: what it does to the sequence
of entries is what its name says, wherever in the sequence it is called. The counter is a different
matter: `vlListRemove` leaves it as it is, and so do `vlListPopFront` and `vlListPopBack` when they
take the only entry.
-/

namespace VeritableLasagna

open VlLinkedList

variable {α : Type} {list s : VlLinkedList α} {l l₁ l₂ : List (VlPoolIdx × α)}
  {e : VlPoolIdx × α} {i : VlPoolIdx} {left right : Option VlPoolIdx} {a : α}

namespace VlLinkedList

theorem relink_none_left (next prev : Option VlPoolIdx) :
    list.relink none right next prev = list.modifyValid right (·.setPrev prev) := rfl

theorem relink_none_right (next prev : Option VlPoolIdx) :
    list.relink left none next prev = list.modifyValid left (·.setNext next) := by
  rw [relink]
  cases list.modifyValid left (·.setNext next) with
  | ok list => rfl
  | error f => rfl

/-- A write to a node does not look at the ends of the list. -/
theorem modify_setEnds {mem : Slot → Option (VlLinkedListNode α)} {o : Option VlPoolIdx}
    {f : VlLinkedListNode α → VlLinkedListNode α} (hop : list.modify o f = .ok { list with mem })
    (head tail : Option VlPoolIdx) :
    modify { list with head, tail } o f = .ok { list with mem, head, tail } := by
  obtain ⟨i, hi, hop⟩ := exists_of_bind_eq_ok hop
  obtain ⟨slot, hslot, hop⟩ := exists_of_bind_eq_ok hop
  obtain ⟨node, hnode, hop⟩ := exists_of_bind_eq_ok hop
  obtain rfl := congrArg VlLinkedList.mem (Except.ok.inj hop)
  rw [modify, hi, ok_bind]
  dsimp only
  rw [hslot, ok_bind, hnode]
  rfl

/-- The tail of an empty list is its new head. -/
theorem setTail_eq (htail : s.tail = tailIter none l) :
    (if s.tail.isNone then { s with tail := some i } else s) =
      { s with tail := tailIter (some i) l } := by
  rcases l.eq_nil_or_concat' with rfl | ⟨l', e, rfl⟩
  · rw [htail]
    rfl
  · rw [tailIter_concat] at htail ⊢
    rw [← htail]
    split_ifs with hnone
    · rw [htail] at hnone
      cases hnone
    · rfl

/-- The head of an empty list is its new tail. -/
theorem setHead_eq (hhead : s.head = headIter l none) :
    (if s.head.isNone then { s with head := some i } else s) =
      { s with head := headIter l (some i) } := by
  cases l with
  | nil =>
    rw [hhead]
    rfl
  | cons e l =>
    rw [headIter_cons] at hhead ⊢
    rw [← hhead]
    split_ifs with hnone
    · rw [hhead] at hnone
      cases hnone
    · rfl

end VlLinkedList

/-! ### Insertion -/

/-- **`vlListPushFront`**. -/
theorem vlListPushFront_spec (h : list.Inv l) (a : α) :
    ∃ i s, vlListPushFront list a = .ok (i, s) ∧ s.Inv ((i, a) :: l) ∧
      s.length = list.length + 1 := by
  have h' : list.Inv ([] ++ l) := h
  obtain ⟨i, nodePool, mem, mem', hnew, hlink, hinv⟩ := h'.insert a
  rw [tailIter_nil] at hnew hlink
  rw [relink_none_left] at hlink
  refine ⟨i, _, ?_, hinv (list.length + 1), rfl⟩
  rw [vlListPushFront, h.head_eq, hnew, ok_bind]
  dsimp only
  have htail : VlLinkedList.tail { list with nodePool := nodePool, mem := mem' } =
      tailIter none l := h.tail_eq
  rw [hlink, ok_bind, setTail_eq htail]
  rfl

/-- **`vlListPushBack`**. -/
theorem vlListPushBack_spec (h : list.Inv l) (a : α) :
    ∃ i s, vlListPushBack list a = .ok (i, s) ∧ s.Inv (l ++ [(i, a)]) ∧
      s.length = list.length + 1 := by
  have h' : list.Inv (l ++ []) := by rwa [List.append_nil]
  obtain ⟨i, nodePool, mem, mem', hnew, hlink, hinv⟩ := h'.insert a
  rw [headIter_nil] at hnew hlink
  rw [relink_none_right] at hlink
  refine ⟨i, _, ?_, hinv (list.length + 1), rfl⟩
  rw [vlListPushBack, h.tail_eq, hnew, ok_bind]
  dsimp only
  have hhead : VlLinkedList.head { list with nodePool := nodePool, mem := mem' } =
      headIter l none := h.head_eq
  rw [hlink, ok_bind, setHead_eq hhead, headIter_append, tailIter_concat]
  rfl

/-- The end of `vlListInsertAfter` and `vlListInsertBefore`, between two entries. -/
theorem vlListInsertBetween_spec {e₁ e₂ : VlPoolIdx × α} (h : list.Inv (l₁ ++ e₁ :: e₂ :: l₂))
    (a : α) :
    ∃ i s, vlListInsertBetween list (some e₁.1) (some e₂.1) a = .ok (i, s) ∧
      s.Inv (l₁ ++ e₁ :: (i, a) :: e₂ :: l₂) ∧ s.length = list.length + 1 := by
  have hcut : ∀ l, l₁ ++ e₁ :: l = l₁ ++ [e₁] ++ l := fun l => List.append_cons ..
  have h' : list.Inv (l₁ ++ [e₁] ++ e₂ :: l₂) := by rwa [← hcut]
  obtain ⟨i, nodePool, mem, mem', hnew, hlink, hinv⟩ := h'.insert a
  rw [tailIter_concat, headIter_cons] at hnew hlink
  have hinv' := hinv (list.length + 1)
  rw [← hcut] at hinv'
  refine ⟨i, _, ?_, hinv', rfl⟩
  -- neither end of the list changes
  have hhead : headIter (l₁ ++ e₁ :: (i, a) :: e₂ :: l₂) none = list.head := by
    rw [h.head_eq, headIter_append, headIter_append]
    rfl
  have htail : tailIter none (l₁ ++ e₁ :: (i, a) :: e₂ :: l₂) = list.tail := by
    rw [h.tail_eq, tailIter_append, tailIter_append]
    rfl
  rw [vlListInsertBetween, hnew, ok_bind]
  dsimp only
  rw [hhead, htail]
  obtain ⟨list₁, hop₁, hop₂⟩ := exists_of_bind_eq_ok hlink
  have hleft : VlLinkedList.modify { list with nodePool := nodePool, mem := mem } (some e₁.1)
      (·.setNext (some i)) = .ok list₁ := hop₁
  have hright : list₁.modify (some e₂.1) (·.setPrev (some i)) = _ := hop₂
  rw [hleft, ok_bind, hright]
  rfl

/-- **`vlListInsertAfter`**. -/
theorem vlListInsertAfter_spec (h : list.Inv (l₁ ++ e :: l₂)) (a : α) :
    ∃ i s, vlListInsertAfter list e.1 a = .ok (i, s) ∧ s.Inv (l₁ ++ e :: (i, a) :: l₂) ∧
      s.length = list.length + 1 := by
  rw [vlListInsertAfter, node_some h.node_eq, ok_bind]
  cases l₂ with
  | nil =>
    obtain ⟨i, s, hop, hinv, hlen⟩ := vlListPushBack_spec h a
    rw [List.append_assoc] at hinv
    exact ⟨i, s, hop, hinv, hlen⟩
  | cons e₂ l₂ => exact vlListInsertBetween_spec h a

/-- **`vlListInsertBefore`**. -/
theorem vlListInsertBefore_spec (h : list.Inv (l₁ ++ e :: l₂)) (a : α) :
    ∃ i s, vlListInsertBefore list e.1 a = .ok (i, s) ∧ s.Inv (l₁ ++ (i, a) :: e :: l₂) ∧
      s.length = list.length + 1 := by
  rw [vlListInsertBefore, node_some h.node_eq, ok_bind]
  rcases l₁.eq_nil_or_concat' with rfl | ⟨l', e₁, rfl⟩
  · exact vlListPushFront_spec h a
  · rw [List.append_assoc] at h
    rw [tailIter_concat]
    obtain ⟨i, s, hop, hinv, hlen⟩ := vlListInsertBetween_spec h a
    refine ⟨i, s, hop, ?_, hlen⟩
    rw [List.append_assoc]
    exact hinv

/-! ### Removal -/

/-- **`vlListPopFront`** takes the first entry, if there is one. -/
theorem vlListPopFront_spec (h : list.Inv l) :
    ∃ s, vlListPopFront list = .ok s ∧ s.Inv l.tail ∧
      s.length = if l.length ≤ 1 then list.length else list.length - 1 := by
  cases l with
  | nil =>
    refine ⟨list, ?_, h, rfl⟩
    rw [vlListPopFront, h.head_eq, headIter_nil]
  | cons e l =>
    have h' : list.Inv ([] ++ e :: l) := h
    obtain ⟨nodePool, mem, hlink, hret, hinv⟩ := h'.remove
    rw [tailIter_nil, relink_none_left] at hlink
    have hhead : list.head = some e.1 := h.head_eq
    rw [vlListPopFront, hhead]
    simp only [← hhead, h.head_eq_tail_iff]
    cases l with
    | nil =>
      obtain rfl : list.mem = mem := congrArg VlLinkedList.mem (Except.ok.inj hlink)
      refine ⟨_, ?_, hinv list.length, rfl⟩
      rw [if_pos rfl, hret]
      rfl
    | cons e₂ l =>
      refine ⟨_, ?_, hinv (list.length - 1), (if_neg (by simp)).symm⟩
      have hnode : list.node (some e.1) = _ := node_some h'.node_eq
      have hright : list.modify (some e₂.1) (·.setPrev none) = .ok { list with mem := mem } :=
        hlink
      have htail : tailIter none ([] ++ e₂ :: l) = list.tail := h.tail_eq.symm
      rw [if_neg (List.cons_ne_nil _ _), hhead, hnode, ok_bind, htail]
      dsimp only [headIter_cons]
      rw [hright, ok_bind, hret]
      rfl

/-- **`vlListPopBack`** takes the last entry, if there is one. -/
theorem vlListPopBack_spec (h : list.Inv l) :
    ∃ s, vlListPopBack list = .ok s ∧ s.Inv l.dropLast ∧
      s.length = if l.length ≤ 1 then list.length else list.length - 1 := by
  rcases l.eq_nil_or_concat' with rfl | ⟨l, e, rfl⟩
  · refine ⟨list, ?_, h, rfl⟩
    rw [vlListPopBack, h.tail_eq, tailIter_nil]
  · obtain ⟨nodePool, mem, hlink, hret, hinv⟩ := h.remove
    rw [headIter_nil, relink_none_right] at hlink
    rw [List.append_nil] at hinv
    rw [List.dropLast_concat]
    have htail : list.tail = some e.1 := by rw [h.tail_eq, tailIter_concat]
    rw [vlListPopBack, htail]
    cases l with
    | nil =>
      obtain rfl : list.mem = mem := congrArg VlLinkedList.mem (Except.ok.inj hlink)
      refine ⟨_, ?_, hinv list.length, rfl⟩
      have hhead : list.head = some e.1 := h.head_eq
      dsimp only
      rw [if_pos hhead, hret]
      rfl
    | cons e₁ l =>
      have hlong : ¬ (e₁ :: l ++ [e]).length ≤ 1 := by
        rw [List.length_append, List.length_cons, List.length_singleton]
        omega
      refine ⟨_, ?_, hinv (list.length - 1), (if_neg hlong).symm⟩
      have hne : ¬ list.head = some e.1 := by
        rw [← htail, h.head_eq_tail_iff]
        exact List.append_ne_nil_of_right_ne_nil _ (List.cons_ne_nil _ _)
      have hnode : list.node (some e.1) = _ := node_some h.node_eq
      obtain ⟨i, hi⟩ : ∃ i, tailIter none (e₁ :: l) = some i :=
        Option.ne_none_iff_exists'.mp fun hnil => by
          rw [tailIter_none_eq_none] at hnil
          cases hnil
      have hhead : headIter (e₁ :: l) none = list.head := h.head_eq.symm
      rw [hi] at hlink hnode
      have hleft : list.modify (some i) (·.setNext none) = .ok { list with mem := mem } := hlink
      dsimp only
      rw [if_neg hne, hnode, ok_bind, hhead, hi]
      dsimp only
      rw [hleft, ok_bind, hret]
      rfl

/-- **`vlListRemove`** takes the entry out, and does not count. -/
theorem vlListRemove_spec (h : list.Inv (l₁ ++ e :: l₂)) :
    ∃ s, vlListRemove list e.1 = .ok s ∧ s.Inv (l₁ ++ l₂) ∧ s.length = list.length := by
  obtain ⟨nodePool, mem, hlink, hret, hinv⟩ := h.remove
  refine ⟨_, ?_, hinv list.length, rfl⟩
  rw [vlListRemove, node_some h.node_eq, ok_bind]
  dsimp only
  -- each neighbour is there, or an end of the list takes its place
  rcases l₁.eq_nil_or_concat' with rfl | ⟨l₁, e₁, rfl⟩
  · rw [tailIter_nil, relink_none_left] at hlink
    rw [tailIter_nil]
    cases l₂ with
    | nil =>
      obtain rfl : list.mem = mem := congrArg VlLinkedList.mem (Except.ok.inj hlink)
      simp only [headIter_nil, Option.isSome_none, Bool.false_eq_true, if_false, ok_bind,
        Option.isNone_none, and_self, if_true, hret]
      rfl
    | cons e₂ l₂ =>
      have htail : tailIter none ([] ++ e₂ :: l₂) = list.tail := h.tail_eq.symm
      have hop : list.modify (some e₂.1) (·.setPrev none) = .ok { list with mem := mem } := hlink
      have hright := modify_setEnds hop (some e₂.1) list.tail
      rw [htail]
      simp only [headIter_cons, Option.isSome_none, Bool.false_eq_true, if_false, ok_bind,
        Option.isSome_some, if_true, hright, Option.isNone_some, and_false, hret]
      rfl
  · have hhead : headIter (l₁ ++ [e₁] ++ l₂) none = list.head := by
      rw [h.head_eq, headIter_append, headIter_append, headIter_append, headIter_append]
      rfl
    rw [tailIter_concat] at hlink ⊢
    rw [hhead]
    cases l₂ with
    | nil =>
      have hleft : list.modify (some e₁.1) (·.setNext none) = .ok { list with mem := mem } := by
        rw [headIter_nil, relink_none_right] at hlink
        exact hlink
      simp only [headIter_nil, Option.isSome_some, if_true, hleft, ok_bind, Option.isSome_none,
        Bool.false_eq_true, if_false, Option.isNone_some, false_and, hret, List.append_nil,
        tailIter_concat]
      rfl
    | cons e₂ l₂ =>
      have htail : tailIter none (l₁ ++ [e₁] ++ e₂ :: l₂) = list.tail := by
        simp only [h.tail_eq, tailIter_append]
        rfl
      obtain ⟨list₁, hleft, hright⟩ := exists_of_bind_eq_ok hlink
      have hleft' : list.modify (some e₁.1) (·.setNext (some e₂.1)) = .ok list₁ := hleft
      have hright' : list₁.modify (some e₂.1) (·.setPrev (some e₁.1)) = _ := hright
      rw [htail]
      simp only [headIter_cons, Option.isSome_some, if_true, hleft', ok_bind, hright',
        Option.isNone_some, false_and, Bool.false_eq_true, if_false, hret]
      rfl

end VeritableLasagna
