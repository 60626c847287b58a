import VeritableLasagna.AsyncPool.Basic

/-!
# The asynchronous queue

`vl_async_queue`: a linked list of nodes between two tagged pointers. `head` points to a dummy, whose
value has been taken already; a push links its node behind the last one and swings `tail` to it, and a pop
moves `head` one node further and gives the former dummy back to the pool. A push that finds `tail` behind
helps it on, and so does a pop that finds it at the dummy. Every atomic access, every copy of an element
and every call of the pool is a step of its own, and any thread may take the next one. A weak
compare-and-swap may fail for no reason.

The pool is taken by what it is for: it hands out nodes that are not in use, and only looks at the header
in front of a node. The nodes keep what they contain when they are given back and handed out again.

Five components of the state only record history: `clock` counts the nodes handed out, and `stamp` tells
the count at which a node was handed out last, which names the push it is for; `called` lists the pushes
that have got a node, with the values they were called with, `linked` those that have linked it, and
`delivered` those whose value a pop has copied, with the value in the node.
-/

namespace VeritableLasagna

/-- Where a thread stands in `vlAsyncQueuePushBack` (`take` to `catchUp`) or in `vlAsyncQueuePopFront`
(`popHead` to `shrink`). -/
inductive AsyncQueuePc (V : Type)
  | idle
  /-- before `vlAsyncPoolTake` -/
  | take (value : V)
  /-- before the copy of the value into the node -/
  | fill (node : ℕ) (value : V)
  /-- before the initialisation of the node's `next` -/
  | clear (node : ℕ)
  /-- before the load of `tail` -/
  | pushTail (node : ℕ)
  /-- before the load of the `next` of the node that `tail` pointed to -/
  | pushNext (node : ℕ) (tail : TaggedPtr)
  /-- before the compare-and-swap of that `next`, which was null -/
  | link (node : ℕ) (tail next : TaggedPtr)
  /-- linked, before the compare-and-swap of `tail` -/
  | swing (node : ℕ) (tail : TaggedPtr)
  /-- before the increment of `size` -/
  | grow
  /-- before the compare-and-swap of `tail`, which was behind -/
  | catchUp (node : ℕ) (tail next : TaggedPtr)
  /-- before the load of `head` -/
  | popHead
  /-- before the load of `tail` -/
  | popTail (head : TaggedPtr)
  /-- before the load of the `next` of the dummy -/
  | popNext (head tail : TaggedPtr)
  /-- before the compare-and-swap of `tail`, which was at the dummy -/
  | help (head tail next : TaggedPtr)
  /-- before the compare-and-swap of `head` -/
  | unlink (head next : TaggedPtr)
  /-- before the copy of the value out of the new dummy -/
  | copy (old new : ℕ)
  /-- before `vlAsyncPoolReturn` of the former dummy -/
  | giveBack (old : ℕ)
  /-- before the decrement of `size` -/
  | shrink

/-- A queue, its nodes, and its threads. -/
structure AsyncQueue (T V : Type) where
  head : TaggedPtr
  tail : TaggedPtr
  size : ℕ
  next : ℕ → TaggedPtr
  value : ℕ → V
  taken : Finset ℕ
  pc : T → AsyncQueuePc V
  clock : ℕ
  stamp : ℕ → ℕ
  called : List (ℕ × V)
  linked : List (ℕ × V)
  delivered : List (ℕ × V)

/-- The calls, the node that the pool hands out, the next access of a thread, and a spurious failure of its
compare-and-swap. -/
inductive AsyncQueueOp (T V : Type)
  | push (t : T) (value : V)
  | pop (t : T)
  | clear (dummy : ℕ)
  | take (t : T) (node : ℕ)
  | advance (t : T)
  | fail (t : T)

variable {T V : Type}

namespace AsyncQueue

/-- `vlAsyncQueueInit`, with the dummy that the pool hands out, over whatever its nodes contain. -/
def init (dummy : ℕ) (next : ℕ → TaggedPtr) (value : ℕ → V) : AsyncQueue T V where
  head := ⟨dummy, 0⟩
  tail := ⟨dummy, 0⟩
  size := 0
  next := Function.update next dummy ⟨0, 0⟩
  value := value
  taken := {dummy}
  pc := fun _ => .idle
  clock := 1
  stamp := fun _ => 0
  called := []
  linked := []
  delivered := []

variable [DecidableEq T]

def setPc (s : AsyncQueue T V) (t : T) (pc : AsyncQueuePc V) : AsyncQueue T V :=
  { s with pc := Function.update s.pc t pc }

/-- A compare-and-swap of `tail`. -/
def swapTail (s : AsyncQueue T V) (expected : TaggedPtr) (node : ℕ) : AsyncQueue T V :=
  if s.tail = expected then { s with tail := expected.next node } else s

end AsyncQueue

variable [DecidableEq T]

/-- The pool hands out a node. -/
def asyncQueueTake (s : AsyncQueue T V) (t : T) (node : ℕ) : AsyncQueue T V :=
  match s.pc t with
  | .take value =>
    { s.setPc t (.fill node value) with
      taken := insert node s.taken
      stamp := Function.update s.stamp node s.clock
      clock := s.clock + 1
      called := s.called ++ [(s.clock, value)] }
  | _ => s

/-- The next access of a thread. -/
def asyncQueueAdvance (s : AsyncQueue T V) (t : T) : AsyncQueue T V :=
  match s.pc t with
  | .idle | .take _ => s
  | .fill node value =>
    { s.setPc t (.clear node) with value := Function.update s.value node value }
  | .clear node => { s.setPc t (.pushTail node) with next := Function.update s.next node ⟨0, 0⟩ }
  | .pushTail node => s.setPc t (.pushNext node s.tail)
  | .pushNext node tail =>
    let next := s.next tail.ptr
    s.setPc t (if next.ptr = 0 then .link node tail next else .catchUp node tail next)
  | .link node tail next =>
    if s.next tail.ptr = next then
      { s.setPc t (.swing node tail) with
        next := Function.update s.next tail.ptr (next.next node)
        linked := s.linked ++ [(s.stamp node, s.value node)] }
    else s.setPc t (.pushTail node)
  | .swing node tail => (s.swapTail tail node).setPc t .grow
  | .grow => { s.setPc t .idle with size := (s.size + 1) % 2 ^ 32 }
  | .catchUp node tail next => (s.swapTail tail next.ptr).setPc t (.pushTail node)
  | .popHead => s.setPc t (.popTail s.head)
  | .popTail head => s.setPc t (.popNext head s.tail)
  | .popNext head tail =>
    let next := s.next head.ptr
    s.setPc t (if next.ptr = 0 then .idle
      else if head.ptr = tail.ptr then .help head tail next else .unlink head next)
  | .help head tail next => (s.swapTail tail next.ptr).setPc t (.unlink head next)
  | .unlink head next =>
    if s.head = head then { s.setPc t (.copy head.ptr next.ptr) with head := head.next next.ptr }
    else s.setPc t .popHead
  | .copy old new =>
    { s.setPc t (.giveBack old) with delivered := s.delivered ++ [(s.stamp new, s.value new)] }
  | .giveBack old => { s.setPc t .shrink with taken := s.taken.erase old }
  | .shrink => { s.setPc t .idle with size := (s.size + (2 ^ 32 - 1)) % 2 ^ 32 }

namespace AsyncQueuePc

def isIdle : AsyncQueuePc V → Bool
  | .idle => true
  | _ => false

def isTake : AsyncQueuePc V → Bool
  | .take _ => true
  | _ => false

/-- In `vlAsyncQueuePushBack`. -/
def pushing : AsyncQueuePc V → Bool
  | .take _ | .fill _ _ | .clear _ | .pushTail _ | .pushNext _ _ | .link _ _ _ | .swing _ _ | .grow
  | .catchUp _ _ _ => true
  | _ => false

/-- In `vlAsyncQueuePopFront`. -/
def popping : AsyncQueuePc V → Bool
  | .popHead | .popTail _ | .popNext _ _ | .help _ _ _ | .unlink _ _ | .copy _ _ | .giveBack _
  | .shrink => true
  | _ => false

/-- What a thread does after a spurious failure. -/
def failed : AsyncQueuePc V → Option (AsyncQueuePc V)
  | .link node _ _ | .catchUp node _ _ => some (.pushTail node)
  | .swing _ _ => some .grow
  | .help head _ next => some (.unlink head next)
  | .unlink _ _ => some .popHead
  | _ => none

/-- Before the compare-and-swap by which a pop helps `tail` on. -/
def helping : AsyncQueuePc V → Bool
  | .help _ _ _ => true
  | _ => false

end AsyncQueuePc

/-- One step. -/
def asyncQueueStep (s : AsyncQueue T V) : AsyncQueueOp T V → AsyncQueue T V
  | .push t value => s.setPc t (.take value)
  | .pop t => s.setPc t .popHead
  | .clear dummy => .init dummy s.next s.value
  | .take t node => asyncQueueTake s t node
  | .advance t => asyncQueueAdvance s t
  | .fail t => s.setPc t ((s.pc t).failed.getD (s.pc t))

/-- The queue under any interleaving: a thread calls when it is idle, `vlAsyncQueueClear` and
`vlAsyncQueueReset` run while all are, and the pool hands out a node that is not in use. -/
def asyncQueueMachine (T V : Type) [DecidableEq T] : Machine (AsyncQueue T V) (AsyncQueueOp T V) where
  guard s
    | .push t _ | .pop t => (s.pc t).isIdle
    | .clear dummy => dummy ≠ 0 ∧ ∀ t, (s.pc t).isIdle
    | .take t node => (s.pc t).isTake = true ∧ node ≠ 0 ∧ node ∉ s.taken
    | .advance t => (s.pc t).isIdle = false ∧ (s.pc t).isTake = false
    | .fail t => (s.pc t).failed.isSome
  step s o := .ok (asyncQueueStep s o)

instance [Fintype T] (s : AsyncQueue T V) : ∀ o, Decidable ((asyncQueueMachine T V).guard s o)
  | .push t _ | .pop t => inferInstanceAs (Decidable ((s.pc t).isIdle = true))
  | .clear dummy => inferInstanceAs (Decidable (dummy ≠ 0 ∧ ∀ t, (s.pc t).isIdle = true))
  | .take t node => inferInstanceAs (Decidable ((s.pc t).isTake = true ∧ node ≠ 0 ∧ node ∉ s.taken))
  | .advance t => inferInstanceAs (Decidable ((s.pc t).isIdle = false ∧ (s.pc t).isTake = false))
  | .fail t => inferInstanceAs (Decidable ((s.pc t).failed.isSome = true))

end VeritableLasagna
