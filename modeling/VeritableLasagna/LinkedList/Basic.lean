import VeritableLasagna.Lib.LinkedList
import VeritableLasagna.Pool.Basic

/-!
# The linked list

`vl_linked_list` is a doubly linked list whose nodes live in a fixed pool and link to each other by
pool indices. `VL_LIST_ITER_INVALID` is `none`, and an element is a value of an arbitrary type. As in
the ordered set, a node is named by its iterator and read from the memory `mem` the pool hands out
slots of. A new node is written in full, and the write has to stay inside its block.
-/

namespace VeritableLasagna

/-- `vl_linked_list_node`, together with the element stored behind it. -/
abbrev VlLinkedListNode (α : Type) := ListNode VlPoolIdx α

/-- `sizeof(vl_linked_list_node)`: two iterators. -/
def vlLinkedListNodeSize : ℕ := 16

/-- `vl_linked_list`, together with the memory of its pool. -/
structure VlLinkedList (α : Type) where
  nodePool : VlPool
  mem : Slot → Option (VlLinkedListNode α)
  elementSize : ℕ
  head : Option VlPoolIdx
  tail : Option VlPoolIdx
  length : ℕ

variable {α : Type}

/-! ### Access to nodes -/

namespace VlLinkedList

/-- The node of an iterator. -/
def heap (list : VlLinkedList α) : ListHeap VlPoolIdx α :=
  fun i => (vlPoolSample list.nodePool i).bind list.mem

/-- Read the node of an iterator, which has to be there. -/
def node (list : VlLinkedList α) (iter : Option VlPoolIdx) :
    Except Fault (VlLinkedListNode α) := do
  let i ← deref iter
  deref (list.heap i)

/-- Write to a node, which has to be there. -/
def modify (list : VlLinkedList α) (iter : Option VlPoolIdx)
    (f : VlLinkedListNode α → VlLinkedListNode α) : Except Fault (VlLinkedList α) := do
  let i ← deref iter
  let slot ← deref (vlPoolSample list.nodePool i)
  let node ← deref (list.mem slot)
  return { list with mem := Function.update list.mem slot (some (f node)) }

/-- A write that the source makes only if the iterator is valid. -/
def modifyValid (list : VlLinkedList α) (iter : Option VlPoolIdx)
    (f : VlLinkedListNode α → VlLinkedListNode α) : Except Fault (VlLinkedList α) :=
  if iter.isSome then list.modify iter f else .ok list

/-- Take a node, and write its links and its element. -/
def newNode (list : VlLinkedList α) (node : VlLinkedListNode α) :
    Except Fault (VlPoolIdx × VlLinkedList α) := do
  let (iter, nodePool) ← vlPoolTake list.nodePool
  let slot ← deref (vlPoolSample nodePool iter)
  let block ← deref (nodePool.lookupTable iter.nodeIndex)
  if slot.offset + vlLinkedListNodeSize + list.elementSize ≤
      block.blockSize * nodePool.elementSize then
    return (iter, { list with nodePool, mem := Function.update list.mem slot (some node) })
  else .error .outOfBounds

end VlLinkedList

/-- `vlListSample`: the element of an iterator. -/
def vlListSample (list : VlLinkedList α) (iter : VlPoolIdx) : Option α :=
  (list.heap iter).map ListNode.elem

/-- `vlListNext`. -/
def vlListNext (list : VlLinkedList α) (iter : VlPoolIdx) : Except Fault (Option VlPoolIdx) := do
  let node ← list.node (some iter)
  return node.next

/-- `vlListPrev`. -/
def vlListPrev (list : VlLinkedList α) (iter : VlPoolIdx) : Except Fault (Option VlPoolIdx) := do
  let node ← list.node (some iter)
  return node.prev

/-- `vlListSize`. -/
def vlListSize (list : VlLinkedList α) : ℕ := list.length

/-! ### The mutators -/

/-- `vlListInit`. The size of a node is passed in 16 bits. -/
def vlListInit (elementSize : ℕ) : VlLinkedList α where
  nodePool := vlPoolInit ((elementSize + vlLinkedListNodeSize) % 2 ^ 16)
  mem := fun _ => none
  elementSize := elementSize
  head := none
  tail := none
  length := 0

/-- `vlListPushFront`. -/
def vlListPushFront (list : VlLinkedList α) (elem : α) :
    Except Fault (VlPoolIdx × VlLinkedList α) := do
  let oldHead := list.head
  let (newHead, list) ← list.newNode ⟨none, oldHead, elem⟩
  let list ← list.modifyValid oldHead (·.setPrev (some newHead))
  let list := if list.tail.isNone then { list with tail := some newHead } else list
  return (newHead, { list with head := some newHead, length := list.length + 1 })

/-- `vlListPopFront`. The last element is popped without counting. -/
def vlListPopFront (list : VlLinkedList α) : Except Fault (VlLinkedList α) :=
  match list.head with
  | none => .ok list
  | some head =>
    if list.head = list.tail then do
      let nodePool ← vlPoolReturn list.nodePool head
      return { list with nodePool, head := none, tail := none }
    else do
      let oldNode ← list.node (some head)
      let rightIter := oldNode.next
      let list ← list.modify rightIter (·.setPrev none)
      let nodePool ← vlPoolReturn list.nodePool head
      return { list with nodePool, head := rightIter, length := list.length - 1 }

/-- `vlListPushBack`. -/
def vlListPushBack (list : VlLinkedList α) (elem : α) :
    Except Fault (VlPoolIdx × VlLinkedList α) := do
  let oldTail := list.tail
  let (newTail, list) ← list.newNode ⟨oldTail, none, elem⟩
  let list ← list.modifyValid oldTail (·.setNext (some newTail))
  let list := if list.head.isNone then { list with head := some newTail } else list
  return (newTail, { list with tail := some newTail, length := list.length + 1 })

/-- `vlListPopBack`. The last element is popped without counting. -/
def vlListPopBack (list : VlLinkedList α) : Except Fault (VlLinkedList α) :=
  match list.tail with
  | none => .ok list
  | some tail =>
    if list.head = list.tail then do
      let nodePool ← vlPoolReturn list.nodePool tail
      return { list with nodePool, head := none, tail := none }
    else do
      let oldNode ← list.node (some tail)
      let leftIter := oldNode.prev
      let list ← list.modify leftIter (·.setNext none)
      let nodePool ← vlPoolReturn list.nodePool tail
      return { list with nodePool, tail := leftIter, length := list.length - 1 }

/-- The end of `vlListInsertAfter` and `vlListInsertBefore`: a new node between two others. -/
def vlListInsertBetween (list : VlLinkedList α) (left right : Option VlPoolIdx) (elem : α) :
    Except Fault (VlPoolIdx × VlLinkedList α) := do
  let (newIter, list) ← list.newNode ⟨left, right, elem⟩
  let list ← list.modify left (·.setNext (some newIter))
  let list ← list.modify right (·.setPrev (some newIter))
  return (newIter, { list with length := list.length + 1 })

/-- `vlListInsertAfter`. -/
def vlListInsertAfter (list : VlLinkedList α) (target : VlPoolIdx) (elem : α) :
    Except Fault (VlPoolIdx × VlLinkedList α) := do
  let leftNode ← list.node (some target)
  if leftNode.next.isNone then vlListPushBack list elem
  else vlListInsertBetween list (some target) leftNode.next elem

/-- `vlListInsertBefore`. -/
def vlListInsertBefore (list : VlLinkedList α) (target : VlPoolIdx) (elem : α) :
    Except Fault (VlPoolIdx × VlLinkedList α) := do
  let rightNode ← list.node (some target)
  if rightNode.prev.isNone then vlListPushFront list elem
  else vlListInsertBetween list rightNode.prev (some target) elem

/-- `vlListRemove`. It does not count. -/
def vlListRemove (list : VlLinkedList α) (iter : VlPoolIdx) : Except Fault (VlLinkedList α) := do
  let oldNode ← list.node (some iter)
  let leftIter := oldNode.prev
  let rightIter := oldNode.next
  let list ← (if leftIter.isSome then list.modify leftIter (·.setNext rightIter)
    else .ok { list with head := rightIter })
  let list ← (if rightIter.isSome then list.modify rightIter (·.setPrev leftIter)
    else .ok { list with tail := leftIter })
  let list := if leftIter.isNone ∧ rightIter.isNone then { list with head := none, tail := none }
    else list
  let nodePool ← vlPoolReturn list.nodePool iter
  return { list with nodePool }

end VeritableLasagna
