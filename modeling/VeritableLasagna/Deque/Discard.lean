import VeritableLasagna.Deque.Runs

/-!
# Pops without an output

A pop may be called without an output, to discard the element. Whether the deque then ends up in the
state in which a pop with an output leaves it, and with the same return value, depends on the branch:
the one for a **single** node copies the element out in any case. `VlDeque.discards_iff` says so for
every deque, whatever happened to it before.
-/

namespace VeritableLasagna

variable {α : Type} {deq : VlDeque α} {entries : List (VlPoolIdx × α)}

/-- What a pop returns and leaves behind, without what it copies out. -/
def vlDequePopState (pop : Except Fault ((ℕ × Option α) × VlDeque α)) :
    Except Fault (ℕ × VlDeque α) := do
  let ((ret, _), deq) ← pop
  return (ret, deq)

/-- At both ends, a pop without an output does what a pop with an output does, short of the copy. -/
structure VlDeque.Discards (deq : VlDeque α) : Prop where
  front : vlDequePopState (vlDequePopFront deq false) = vlDequePopState (vlDequePopFront deq true)
  back : vlDequePopState (vlDequePopBack deq false) = vlDequePopState (vlDequePopBack deq true)

/-- The head and the tail are one node. -/
def VlDeque.Single (deq : VlDeque α) : Prop :=
  ∃ i node, deq.head = some i ∧ deq.tail = some i ∧ deq.nodes.read i = .ok node

/-- A deque of one entry has a single node, and no other has. -/
theorem VlDeque.Inv.single_iff (h : deq.Inv entries) : deq.Single ↔ deq.totalElements = 1 := by
  have hcount : deq.totalElements = 1 ↔ entries.length = 1 := by
    rw [← h.total_eq, ← UInt32.toNat_inj]
    rfl
  rw [hcount]
  constructor
  · rintro ⟨i, node, hhead, htail, -⟩
    cases entries with
    | nil => cases h.head_eq.symm.trans hhead
    | cons e l => rw [h.head_eq_tail_iff.mp (hhead.trans htail.symm), List.length_singleton]
  · intro hone
    obtain ⟨e, rfl⟩ := List.length_eq_one_iff.mp hone
    have hlinked : deq.nodes.Linked (vlDequeNodeSize + deq.elementSize) ([] ++ [e]) := h.linked
    exact ⟨e.1, _, h.head_eq, h.tail_eq, hlinked.read_eq⟩

/-- A node that can be read can be returned. -/
theorem VlNodes.exists_ret {ν : Type} {nodes : VlNodes ν} {i : VlPoolIdx} {node : ν}
    (h : nodes.read i = .ok node) : ∃ nodes', nodes.ret i = .ok nodes' := by
  rw [VlNodes.read, VlNodes.heap] at h
  cases hblock : nodes.pool.lookupTable i.nodeIndex with
  | none =>
    rw [vlPoolSample, hblock] at h
    cases h
  | some block =>
    rw [VlNodes.ret, VlPoolObject.ret, vlPoolReturn, hblock]
    exact ⟨_, rfl⟩

/-- **A single node is copied out**, whether there is an output or not. -/
theorem VlDeque.Single.copies (h : deq.Single) (val : Bool) :
    ∃ (elem : α) (r : ℕ × VlDeque α), vlDequePopState (vlDequePopFront deq val) = (do
        let _ ← vlDequeCopyOut val elem
        return r) ∧
      vlDequePopState (vlDequePopBack deq val) = (do
        let _ ← vlDequeCopyOut val elem
        return r) := by
  obtain ⟨i, node, hhead, htail, hread⟩ := h
  have heq : deq.head = deq.tail := hhead.trans htail.symm
  obtain ⟨nodes, hret⟩ := VlNodes.exists_ret hread
  refine ⟨node.elem, (1, { deq with
    nodes, head := none, tail := none, totalElements := deq.totalElements - 1 }), ?_, ?_⟩
  · have hpop : vlDequePopFront deq val = (do
        let copied ← vlDequeCopyOut val node.elem
        return ((1, copied), { deq with
          nodes, head := none, tail := none, totalElements := deq.totalElements - 1 })) := by
      rw [vlDequePopFront, hhead]
      dsimp only
      rw [← hhead, if_pos heq, hread, ok_bind, hret]
      rfl
    rw [hpop]
    cases val with
    | true => rfl
    | false => rfl
  · have hpop : vlDequePopBack deq val = (do
        let copied ← vlDequeCopyOut val node.elem
        return ((1, copied), { deq with
          nodes, head := none, tail := none, totalElements := deq.totalElements - 1 })) := by
      rw [vlDequePopBack, htail]
      dsimp only
      rw [← htail, if_pos heq, hread, ok_bind, hret]
      rfl
    rw [hpop]
    cases val with
    | true => rfl
    | false => rfl

/-- The other branches ask for an output. -/
theorem VlDeque.discards_of_not_single (h : ¬ deq.Single) : deq.Discards := by
  constructor
  · rw [vlDequePopFront, vlDequePopFront]
    cases hhead : deq.head with
    | none => rfl
    | some i =>
      dsimp only
      rw [← hhead]
      cases hread : deq.nodes.read i with
      | error f => split_ifs <;> rfl
      | ok node =>
        have hne : ¬ deq.head = deq.tail := fun heq => h ⟨i, node, hhead, heq ▸ hhead, hread⟩
        rw [if_neg hne, if_neg hne, ok_bind, ok_bind]
        cases deq.nodes.writeAt node.next (·.setPrev none) with
        | error f => rfl
        | ok nodes =>
          rw [ok_bind, ok_bind]
          cases nodes.ret i with
          | error f => rfl
          | ok nodes => rfl
  · rw [vlDequePopBack, vlDequePopBack]
    cases htail : deq.tail with
    | none => rfl
    | some i =>
      dsimp only
      rw [← htail]
      cases hread : deq.nodes.read i with
      | error f => split_ifs <;> rfl
      | ok node =>
        have hne : ¬ deq.head = deq.tail := fun heq => h ⟨i, node, heq.trans htail, htail, hread⟩
        rw [if_neg hne, if_neg hne, ok_bind, ok_bind]
        cases deq.nodes.writeAt node.prev (·.setNext none) with
        | error f => rfl
        | ok nodes =>
          rw [ok_bind, ok_bind]
          cases nodes.ret i with
          | error f => rfl
          | ok nodes => rfl

/-- **A pop discards exactly where the deque has no single node.** -/
theorem VlDeque.discards_iff (deq : VlDeque α) : deq.Discards ↔ ¬ deq.Single := by
  constructor
  · intro h hsingle
    obtain ⟨elem, r, hnull, -⟩ := hsingle.copies false
    obtain ⟨elem', r', hout, -⟩ := hsingle.copies true
    have hsame := h.front
    rw [hnull, hout] at hsame
    cases hsame
  · exact VlDeque.discards_of_not_single

/-- One element pushed: to discard it, it is copied through the missing output. -/
theorem vlDequePopFront_null_one :
    ∃ deq : VlDeque ℕ, vlDequePushBack (vlDequeInit 4) 5 = .ok deq ∧
      vlDequePopState (vlDequePopFront deq false) = .error .nullDeref ∧
      ∃ r, vlDequePopState (vlDequePopFront deq true) = .ok r := by
  have hroom : (vlDequeInit 4 : VlDeque ℕ).nodes.pool.Room 1 := by decide
  obtain ⟨i, deq, hop, hinv⟩ := vlDequePushBack_spec (vlDequeInit_inv (by decide)) hroom 5
  have hsingle : deq.Single := hinv.single_iff.mpr (UInt32.toNat_inj.mp hinv.total_eq)
  obtain ⟨elem, r, hnull, -⟩ := hsingle.copies false
  obtain ⟨elem', r', hout, -⟩ := hsingle.copies true
  exact ⟨deq, hop, hnull, r', hout⟩

end VeritableLasagna
