import VeritableLasagna.Lib.Simulation
import VeritableLasagna.Deque.Basic

/-!
# Runs of the deque

`dequeCall` is what a deque is for: a sequence of elements that grows and shrinks at both ends and
knows its length. `vlDeque_sequence_iff` says for which element sizes the deque refines it, with an
output for every pop: a padded node has to keep its size in 16 bits. As for the queue, the runs are
those of the **roomy** deque, whose calls add no block that loses its size in 32 bits.
-/

namespace VeritableLasagna

/-- The calls on a deque, with an output for every pop. -/
inductive VlDequeOp (α : Type)
  | pushFront (val : α)
  | pushBack (val : α)
  | popFront
  | popBack
  | reserve (numElems : ℕ)
  | clear
  | size

/-- What a call returns: nothing, the value of a pop and what it copies out, or the size. -/
inductive VlDequeResult (α : Type)
  | void
  | popped (ret : ℕ) (val : Option α)
  | size (n : ℕ)

variable {α : Type}

/-- `vlDequeSize`. -/
def vlDequeSize (deq : VlDeque α) : UInt32 := deq.totalElements

/-- A call, with what it returns. -/
def vlDequeCall (deq : VlDeque α) : VlDequeOp α → Except Fault (VlDequeResult α × VlDeque α)
  | .pushFront val => do
    let deq ← vlDequePushFront deq val
    return (.void, deq)
  | .pushBack val => do
    let deq ← vlDequePushBack deq val
    return (.void, deq)
  | .popFront => do
    let ((ret, val), deq) ← vlDequePopFront deq true
    return (.popped ret val, deq)
  | .popBack => do
    let ((ret, val), deq) ← vlDequePopBack deq true
    return (.popped ret val, deq)
  | .reserve numElems => do
    let deq ← vlDequeReserve deq numElems
    return (.void, deq)
  | .clear => do
    let deq ← vlDequeClear deq
    return (.void, deq)
  | .size => .ok (.size (vlDequeSize deq).toNat, deq)

/-- The same call on a sequence of elements. -/
def dequeCall (contents : List α) : VlDequeOp α → VlDequeResult α × List α
  | .pushFront val => (.void, val :: contents)
  | .pushBack val => (.void, contents ++ [val])
  | .popFront =>
    match contents with
    | [] => (.popped 0 none, [])
    | first :: rest => (.popped 1 (some first), rest)
  | .popBack =>
    match contents.getLast? with
    | none => (.popped 0 none, [])
    | some last => (.popped 1 (some last), contents.dropLast)
  | .reserve _ => (.void, contents)
  | .clear => (.void, [])
  | .size => (.size contents.length, contents)

/-- The deque as a component: every call is allowed. -/
def vlDeque (α : Type) : Component (VlDeque α) (VlDequeOp α) (VlDequeResult α) where
  guard _ _ := True
  call := vlDequeCall

/-- The pool has room for what the call may take. -/
def VlDequeOp.Room (deq : VlDeque α) : VlDequeOp α → Prop
  | .pushFront _ => deq.nodes.pool.Room 1
  | .pushBack _ => deq.nodes.pool.Room 1
  | .reserve numElems => deq.nodes.pool.Room numElems
  | _ => True

/-- The deque as a component whose calls add no block that loses its size. -/
def roomyVlDeque (α : Type) : Component (VlDeque α) (VlDequeOp α) (VlDequeResult α) where
  guard deq o := o.Room deq
  call := vlDequeCall

/-- The deques with elements of the given size are double-ended sequences. -/
def VlDeque.IsSequence (C : ∀ α, Component (VlDeque α) (VlDequeOp α) (VlDequeResult α))
    (elementSize : ℕ) : Prop :=
  ∀ α : Type, (C α).Refines (.pure dequeCall) (vlDequeInit elementSize) []

/-- The deque stands for the sequence. -/
def VlDeque.Holds (deq : VlDeque α) (contents : List α) : Prop :=
  ∃ entries, deq.Inv entries ∧ entries.map Prod.snd = contents

/-- **Step lemma**: a call with room for it returns what the sequence says, and the deque stands for
what the sequence becomes. -/
theorem vlDequeCall_spec {deq : VlDeque α} {contents : List α} {o : VlDequeOp α}
    (h : deq.Holds contents) (hroom : o.Room deq) :
    ∃ deq', vlDequeCall deq o = .ok ((dequeCall contents o).1, deq') ∧
      deq'.Holds (dequeCall contents o).2 := by
  obtain ⟨entries, hinv, rfl⟩ := h
  cases o with
  | pushFront val =>
    obtain ⟨i, deq', hop, hinv'⟩ := vlDequePushFront_spec hinv hroom val
    exact ⟨deq', by rw [vlDequeCall, hop]; rfl, _, hinv', rfl⟩
  | pushBack val =>
    obtain ⟨i, deq', hop, hinv'⟩ := vlDequePushBack_spec hinv hroom val
    refine ⟨deq', by rw [vlDequeCall, hop]; rfl, _, hinv', ?_⟩
    rw [List.map_append]
    rfl
  | popFront =>
    cases entries with
    | nil =>
      refine ⟨deq, ?_, [], hinv, rfl⟩
      rw [vlDequeCall, vlDequePopFront_nil hinv]
      rfl
    | cons e l =>
      obtain ⟨deq', hop, hinv'⟩ := vlDequePopFront_cons hinv
      exact ⟨deq', by rw [vlDequeCall, hop]; rfl, l, hinv', rfl⟩
  | popBack =>
    rcases entries.eq_nil_or_concat' with rfl | ⟨l, e, rfl⟩
    · refine ⟨deq, ?_, [], hinv, rfl⟩
      rw [vlDequeCall, vlDequePopBack_nil hinv]
      rfl
    · obtain ⟨deq', hop, hinv'⟩ := vlDequePopBack_concat hinv
      have hcall : dequeCall ((l ++ [e]).map Prod.snd) .popBack =
          (.popped 1 (some e.2), l.map Prod.snd) := by
        rw [dequeCall, List.map_append, List.map_singleton, List.getLast?_concat,
          List.dropLast_concat]
      refine ⟨deq', ?_, l, hinv', ?_⟩
      · rw [vlDequeCall, hop, hcall]
        rfl
      · rw [hcall]
  | reserve numElems =>
    obtain ⟨deq', hop, hinv'⟩ := vlDequeReserve_spec hinv hroom
    exact ⟨deq', by rw [vlDequeCall, hop]; rfl, entries, hinv', rfl⟩
  | clear =>
    obtain ⟨deq', hop, hinv'⟩ := vlDequeClear_spec hinv
    exact ⟨deq', by rw [vlDequeCall, hop]; rfl, [], hinv', rfl⟩
  | size =>
    refine ⟨deq, ?_, entries, hinv, rfl⟩
    rw [vlDequeCall, dequeCall, vlDequeSize, hinv.total_eq, List.length_map]

theorem roomyVlDeque_simulation : (roomyVlDeque α).Simulation (.pure dequeCall) VlDeque.Holds := by
  intro s contents o h hroom
  obtain ⟨s', hop, hholds⟩ := vlDequeCall_spec h hroom
  exact ⟨_, s', _, hop, rfl, hholds⟩

/-- If a node does not keep its size, the first element is written beyond the first block. -/
theorem vlDequeInit_push {elementSize : ℕ} (hlt : elementSize < 2 ^ 16)
    (hsize : 2 ^ 16 ≤ vlMemoryPadUp (vlDequeNodeSize + elementSize) vlDefaultMemoryAlign) (val : α) :
    vlDequeCall (vlDequeInit elementSize) (.pushBack val) = .error .outOfBounds := by
  have hle : vlDequeNodeSize + elementSize < 2 ^ 16 + 16 := by
    rw [vlDequeNodeSize]
    omega
  have htake := vlNodesInit_take hle hsize fun _ => (⟨none, none, val⟩ : VlDequeNode α)
  rw [vlDequeCall, vlDequePushBack]
  simp only [vlDequeInit, htake, error_bind]

/-- **The deque is a double-ended sequence exactly when a padded node fits the 16 bits of its size**,
in the runs that leave every block its size. -/
theorem vlDeque_sequence_iff (elementSize : UInt16) :
    VlDeque.IsSequence roomyVlDeque elementSize.toNat ↔
      vlMemoryPadUp (vlDequeNodeSize + elementSize.toNat) vlDefaultMemoryAlign < 2 ^ 16 := by
  constructor
  · intro hseq
    by_contra hwraps
    have hroom : (roomyVlDeque ℕ).guard (vlDequeInit elementSize.toNat) (.pushBack 0) :=
      vlNodesInit_room
    exact Component.not_refines_of_error hroom
      (vlDequeInit_push elementSize.toNat_lt (Nat.le_of_not_lt hwraps) 0) (hseq ℕ)
  · intro hsize α
    exact Component.refines_of_simulation roomyVlDeque_simulation ⟨[], vlDequeInit_inv hsize, rfl⟩

/-- Elements of 65513 bytes: the padded node has 65536 bytes, so a block has none, and the first
element does not fit. -/
theorem vlDeque_not_sequence_65513 : ¬ VlDeque.IsSequence vlDeque 65513 := by
  intro hseq
  have hall : (vlDeque ℕ).guard (vlDequeInit 65513) (.pushBack 0) := trivial
  exact Component.not_refines_of_error hall
    (vlDequeInit_push (by norm_num) (by decide) 0) (hseq ℕ)

end VeritableLasagna
