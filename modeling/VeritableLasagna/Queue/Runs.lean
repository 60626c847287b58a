import VeritableLasagna.Lib.Simulation
import VeritableLasagna.Queue.Basic

/-!
# Runs of the queue

`fifoCall` is what a queue is for: a sequence of elements, pushed at one end and popped at the other.
A queue refines it if in every state of every run every call returns what the call on the sequence
returns; so every successful pop delivers the oldest element, none is lost, and none is delivered
twice.

`vlQueue_fifo_iff` says for which element sizes this is so: a padded node has to keep its size in
16 bits. The runs are those of the **roomy** queue, whose calls add no block that loses its size in
32 bits.
-/

namespace VeritableLasagna

/-- The calls on a queue. A pop may go without an output. -/
inductive VlQueueOp (α : Type)
  | pushBack (element : α)
  | popFront (element : Bool)
  | reserve (numElems : ℕ)
  | clear

variable {α : Type}

/-- A call, with the value it returns, if any, and what it copies out. -/
def vlQueueCall (queue : VlQueue α) :
    VlQueueOp α → Except Fault (Option (ℕ × Option α) × VlQueue α)
  | .pushBack element => do
    let queue ← vlQueuePushBack queue element
    return (none, queue)
  | .popFront element => do
    let (result, queue) ← vlQueuePopFront queue element
    return (some result, queue)
  | .reserve numElems => do
    let queue ← vlQueueReserve queue numElems
    return (none, queue)
  | .clear => do
    let queue ← vlQueueClear queue
    return (none, queue)

/-- The same call on a sequence of elements, oldest first. -/
def fifoCall (contents : List α) : VlQueueOp α → Option (ℕ × Option α) × List α
  | .pushBack element => (none, contents ++ [element])
  | .popFront element =>
    match contents with
    | [] => (some (0, none), [])
    | oldest :: rest => (some (1, if element then some oldest else none), rest)
  | .reserve _ => (none, contents)
  | .clear => (none, [])

/-- The queue as a component: every call is allowed. -/
def vlQueue (α : Type) : Component (VlQueue α) (VlQueueOp α) (Option (ℕ × Option α)) where
  guard _ _ := True
  call := vlQueueCall

/-- The pool has room for what the call may take. -/
def VlQueueOp.Room (queue : VlQueue α) : VlQueueOp α → Prop
  | .pushBack _ => queue.nodes.pool.Room 1
  | .reserve numElems => queue.nodes.pool.Room numElems
  | _ => True

/-- The queue as a component whose calls add no block that loses its size. -/
def roomyVlQueue (α : Type) : Component (VlQueue α) (VlQueueOp α) (Option (ℕ × Option α)) where
  guard queue o := o.Room queue
  call := vlQueueCall

/-- The queues with elements of the given size are first in, first out, whatever their memory held
before. -/
def VlQueue.Fifo (C : ∀ α, Component (VlQueue α) (VlQueueOp α) (Option (ℕ × Option α)))
    (elementSize : ℕ) : Prop :=
  ∀ (α : Type) (totalElements : UInt32),
    (C α).Refines (.pure fifoCall) (vlQueueInit totalElements elementSize) []

/-- The queue stands for the sequence. -/
def VlQueue.Holds (queue : VlQueue α) (contents : List α) : Prop :=
  ∃ entries, queue.Inv entries ∧ entries.map Prod.snd = contents

/-- **Step lemma**: a call with room for it returns what the sequence says, and the queue stands for
what the sequence becomes. -/
theorem vlQueueCall_spec {queue : VlQueue α} {contents : List α} {o : VlQueueOp α}
    (h : queue.Holds contents) (hroom : o.Room queue) :
    ∃ queue', vlQueueCall queue o = .ok ((fifoCall contents o).1, queue') ∧
      queue'.Holds (fifoCall contents o).2 := by
  obtain ⟨entries, hinv, rfl⟩ := h
  cases o with
  | pushBack element =>
    obtain ⟨i, queue', hop, hinv'⟩ := vlQueuePushBack_spec hinv hroom element
    refine ⟨queue', by rw [vlQueueCall, hop]; rfl, _, hinv', ?_⟩
    rw [List.map_append]
    rfl
  | popFront element =>
    cases entries with
    | nil =>
      refine ⟨queue, ?_, [], hinv, rfl⟩
      rw [vlQueueCall, vlQueuePopFront_nil hinv]
      rfl
    | cons e l =>
      obtain ⟨queue', hop, hinv'⟩ := vlQueuePopFront_cons hinv element
      exact ⟨queue', by rw [vlQueueCall, hop]; rfl, l, hinv', rfl⟩
  | reserve numElems =>
    obtain ⟨queue', hop, hinv'⟩ := vlQueueReserve_spec hinv hroom
    exact ⟨queue', by rw [vlQueueCall, hop]; rfl, entries, hinv', rfl⟩
  | clear =>
    obtain ⟨queue', hop, hinv'⟩ := vlQueueClear_spec hinv
    exact ⟨queue', by rw [vlQueueCall, hop]; rfl, [], hinv', rfl⟩

theorem roomyVlQueue_simulation : (roomyVlQueue α).Simulation (.pure fifoCall) VlQueue.Holds := by
  intro s contents o h hroom
  obtain ⟨s', hop, hholds⟩ := vlQueueCall_spec h hroom
  exact ⟨_, s', _, hop, rfl, hholds⟩

/-- If a node does not keep its size, the first element is written beyond the first block. -/
theorem vlQueueInit_push {totalElements : UInt32} {elementSize : ℕ} (hlt : elementSize < 2 ^ 16)
    (hsize : 2 ^ 16 ≤ vlMemoryPadUp (vlQueueHeaderSize + elementSize) vlDefaultMemoryAlign)
    (element : α) :
    vlQueueCall (vlQueueInit totalElements elementSize) (.pushBack element) =
      .error .outOfBounds := by
  have hle : vlQueueHeaderSize + elementSize < 2 ^ 16 + 16 := by
    rw [vlQueueHeaderSize]
    omega
  have htake := vlNodesInit_take hle hsize fun newTail => (⟨newTail, element⟩ : VlQueueNode α)
  rw [vlQueueCall, vlQueuePushBack]
  simp only [vlQueueInit, htake, error_bind]

/-- **The queue is first in, first out exactly when a padded node fits the 16 bits of its size**, in
the runs that leave every block its size. -/
theorem vlQueue_fifo_iff (elementSize : UInt16) :
    VlQueue.Fifo roomyVlQueue elementSize.toNat ↔
      vlMemoryPadUp (vlQueueHeaderSize + elementSize.toNat) vlDefaultMemoryAlign < 2 ^ 16 := by
  constructor
  · intro hfifo
    by_contra hwraps
    have hroom : (roomyVlQueue ℕ).guard (vlQueueInit 0 elementSize.toNat) (.pushBack 0) :=
      vlNodesInit_room
    exact Component.not_refines_of_error hroom
      (vlQueueInit_push elementSize.toNat_lt (Nat.le_of_not_lt hwraps) 0) (hfifo ℕ 0)
  · intro hsize α totalElements
    exact Component.refines_of_simulation roomyVlQueue_simulation
      ⟨[], vlQueueInit_inv hsize, rfl⟩

/-- Elements of 65521 bytes: the padded node has 65536 bytes, so a block has none, and the first
element does not fit. -/
theorem vlQueue_not_fifo_65521 : ¬ VlQueue.Fifo vlQueue 65521 := by
  intro hfifo
  have hall : (vlQueue ℕ).guard (vlQueueInit 0 65521) (.pushBack 0) := trivial
  exact Component.not_refines_of_error hall
    (vlQueueInit_push (by norm_num) (by decide) 0) (hfifo ℕ 0)

end VeritableLasagna
