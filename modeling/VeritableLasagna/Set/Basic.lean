import VeritableLasagna.Lib.LinkedTree
import VeritableLasagna.Pool.Basic

/-!
# The ordered set

`vl_set` is a red-black tree whose nodes live in a fixed pool and link to each other by pool
indices. `VL_SET_ITER_INVALID` is `none`; an element is a value of an arbitrary type and the
comparator returns an integer whose sign decides.

* A node pointer is always the sample of an iterator, so the model names nodes by iterators and
  reads a field at the moment the source reads it, from the memory `mem` the pool hands out slots
  of. Two indices with one slot therefore alias, as they do in the source.
* The source spells out every left and right case; here a `Side` parametrises the two mirror
  images, and the two source functions are its instances.
* A loop is cut off by a `Fault` after more rounds than there are nodes.
-/

namespace VeritableLasagna

/-- `vl_set_node`, together with the element stored behind it. -/
abbrev VlSetNode (α : Type) := LinkNode VlPoolIdx α

/-- `sizeof(vl_set_node)`: the colour, padded to a word, and three iterators. -/
def vlSetNodeSize : ℕ := 32

/-- `vl_set`, together with the memory of its pool. -/
structure VlSet (α : Type) where
  nodePool : VlPool
  mem : Slot → Option (VlSetNode α)
  elementSize : ℕ
  totalElements : ℕ
  comparator : α → α → ℤ
  root : Option VlPoolIdx

variable {α : Type}

/-! ### Access to nodes -/

/-- The node of an iterator. -/
def VlSet.heap (set : VlSet α) : LinkHeap VlPoolIdx α :=
  fun i => (vlPoolSample set.nodePool i).bind set.mem

/-- `vl_SetGetNodeAt`: the node of an iterator, `NULL` for an invalid one. -/
def vlSetGetNodeAt (set : VlSet α) (iter : Option VlPoolIdx) : Option (VlSetNode α) :=
  iter.bind set.heap

/-- Read the node of an iterator, which has to be there. -/
def VlSet.node (set : VlSet α) (iter : Option VlPoolIdx) : Except Fault (VlSetNode α) :=
  deref (vlSetGetNodeAt set iter)

/-- Write to a node, which has to be there. -/
def VlSet.modify (set : VlSet α) (iter : Option VlPoolIdx) (f : VlSetNode α → VlSetNode α) :
    Except Fault (VlSet α) := do
  let i ← deref iter
  let slot ← deref (vlPoolSample set.nodePool i)
  let node ← deref (set.mem slot)
  return { set with mem := Function.update set.mem slot (some (f node)) }

/-- A write that the source makes only if the iterator is valid. -/
def VlSet.modifyValid (set : VlSet α) (iter : Option VlPoolIdx) (f : VlSetNode α → VlSetNode α) :
    Except Fault (VlSet α) :=
  if iter.isSome then set.modify iter f else .ok set

/-- A write that the source makes only if the node pointer is not `NULL`. -/
def VlSet.modifyNode (set : VlSet α) (iter : Option VlPoolIdx) (f : VlSetNode α → VlSetNode α) :
    Except Fault (VlSet α) :=
  if (vlSetGetNodeAt set iter).isSome then set.modify iter f else .ok set

/-- Link `new` below `parent` in the place of its child `old`, looking on side `d` first; without
a parent `new` becomes the root. -/
def VlSet.relink (d : Side) (set : VlSet α) (parent old new : Option VlPoolIdx) :
    Except Fault (VlSet α) :=
  if parent.isNone then .ok { set with root := new }
  else set.modify parent (·.replaceChild d old new)

/-- Write all fields of a fresh node. -/
def VlSet.store (set : VlSet α) (iter : VlPoolIdx) (node : VlSetNode α) :
    Except Fault (VlSet α) := do
  let slot ← deref (vlPoolSample set.nodePool iter)
  return { set with mem := Function.update set.mem slot (some node) }

/-- `vlSetSample`: the element of an iterator. -/
def vlSetSample (set : VlSet α) (iter : Option VlPoolIdx) : Option α :=
  (vlSetGetNodeAt set iter).map LinkNode.elem

/-- A caller's write through the pointer `vlSetSample` returns. -/
def VlSet.write (set : VlSet α) (iter : Option VlPoolIdx) (a : α) : Except Fault (VlSet α) :=
  set.modify iter (·.setElem a)

/-- `vlSetInit`. -/
def vlSetInit (elementSize : ℕ) (compFunc : α → α → ℤ) : VlSet α where
  nodePool := vlPoolInit ((vlSetNodeSize + elementSize) % 2 ^ 16)
  mem := fun _ => none
  elementSize := elementSize % 2 ^ 16
  totalElements := 0
  comparator := compFunc
  root := none

/-- `vlSetClear`. -/
def vlSetClear (set : VlSet α) : Except Fault (VlSet α) := do
  let nodePool ← vlPoolClear set.nodePool
  return { set with nodePool, totalElements := 0, root := none }

/-! ### Traversal -/

/-- The loop of `vlSetFront` and `vlSetBack`, which stops at a `NULL` node. -/
def vlSetEdgeLoop (d : Side) (set : VlSet α) :
    ℕ → Option VlPoolIdx → Except Fault (Option VlPoolIdx)
  | 0, _ => .error .noReturn
  | fuel + 1, cur =>
    match vlSetGetNodeAt set cur with
    | none => .ok cur
    | some node =>
      if (node.child d).isSome then vlSetEdgeLoop d set fuel (node.child d) else .ok cur

/-- The iterator furthest to side `d`. -/
def vlSetEdge (d : Side) (set : VlSet α) : Except Fault (Option VlPoolIdx) :=
  if set.root.isNone then .ok none else vlSetEdgeLoop d set (set.totalElements + 1) set.root

/-- `vlSetFront`. -/
def vlSetFront (set : VlSet α) : Except Fault (Option VlPoolIdx) := vlSetEdge .left set

/-- `vlSetBack`. -/
def vlSetBack (set : VlSet α) : Except Fault (Option VlPoolIdx) := vlSetEdge .right set

/-- The loop that follows the children on side `d` down, as `vl_SetMinSubtree`, `vlSetNext` and
`vlSetPrev` do. -/
def vlSetDescend (d : Side) (set : VlSet α) :
    ℕ → Option VlPoolIdx → Except Fault (Option VlPoolIdx)
  | 0, _ => .error .noReturn
  | fuel + 1, cur => do
    let node ← set.node cur
    if (node.child d).isSome then vlSetDescend d set fuel (node.child d) else return cur

/-- `vl_SetMinSubtree`. -/
def vlSetMinSubtree (set : VlSet α) (cur : Option VlPoolIdx) :
    Except Fault (Option VlPoolIdx) :=
  if cur.isNone then .ok none else vlSetDescend .left set (set.totalElements + 1) cur

/-- The loop of `vl_SetTreeSuccessor` up the ancestors. -/
def vlSetSuccessorLoop (set : VlSet α) :
    ℕ → Option VlPoolIdx → Option VlPoolIdx → Except Fault (Option VlPoolIdx)
  | 0, _, _ => .error .noReturn
  | fuel + 1, nodeXIter, nodeYIter =>
    match vlSetGetNodeAt set nodeYIter with
    | none => .ok none
    | some nodeY =>
      if nodeY.right ≠ nodeXIter then .ok nodeYIter
      else vlSetSuccessorLoop set fuel nodeYIter nodeY.parent

/-- `vl_SetTreeSuccessor`. -/
def vlSetTreeSuccessor (set : VlSet α) (nodeXIter : Option VlPoolIdx) :
    Except Fault (Option VlPoolIdx) :=
  match vlSetGetNodeAt set nodeXIter with
  | none => .ok none
  | some nodeX =>
    if nodeX.right.isSome then vlSetMinSubtree set nodeX.right
    else vlSetSuccessorLoop set (set.totalElements + 1) nodeXIter nodeX.parent

/-- The loop of `vlSetNext` and `vlSetPrev` up the ancestors, as long as `iter` is the child of
`parentIter` on the far side. -/
def vlSetClimb (d : Side) (set : VlSet α) :
    ℕ → Option VlPoolIdx → Option VlPoolIdx → Except Fault (Option VlPoolIdx)
  | 0, _, _ => .error .noReturn
  | fuel + 1, iter, parentIter => do
    let parent ← set.node parentIter
    if parent.child d.other = iter then
      if parent.parent.isNone then return none
      else vlSetClimb d set fuel parentIter parent.parent
    else return parentIter

/-- The iterator after `iter` in the order that starts on side `d`. -/
def vlSetAdvance (d : Side) (set : VlSet α) (iter : Option VlPoolIdx) :
    Except Fault (Option VlPoolIdx) :=
  match vlSetGetNodeAt set iter with
  | none => .ok none
  | some node =>
    if (node.child d.other).isSome then
      vlSetDescend d set (set.totalElements + 1) (node.child d.other)
    else if node.parent.isNone then .ok none
    else do
      let parent ← set.node node.parent
      if parent.child d = iter then return node.parent
      else vlSetClimb d set (set.totalElements + 1) iter node.parent

/-- `vlSetNext`. -/
def vlSetNext (set : VlSet α) (iter : Option VlPoolIdx) : Except Fault (Option VlPoolIdx) :=
  vlSetAdvance .left set iter

/-- `vlSetPrev`. -/
def vlSetPrev (set : VlSet α) (iter : Option VlPoolIdx) : Except Fault (Option VlPoolIdx) :=
  vlSetAdvance .right set iter

/-- The loop of `VL_SET_FOREACH` and `VL_SET_FOREACH_REVERSE`. -/
def vlSetForeachLoop (d : Side) (set : VlSet α) :
    ℕ → Option VlPoolIdx → Except Fault (List VlPoolIdx)
  | _, none => .ok []
  | 0, some _ => .error .noReturn
  | fuel + 1, some trackVar => do
    let next ← vlSetAdvance d set (some trackVar)
    let rest ← vlSetForeachLoop d set fuel next
    return trackVar :: rest

/-- `VL_SET_FOREACH` (on side `left`) and `VL_SET_FOREACH_REVERSE` (on side `right`): the iterators
visited, in order. -/
def vlSetForeach (d : Side) (set : VlSet α) : Except Fault (List VlPoolIdx) := do
  let first ← vlSetEdge d set
  vlSetForeachLoop d set set.totalElements first

/-- The loop of `vlSetFind`. -/
def vlSetFindLoop (set : VlSet α) (elem : α) :
    ℕ → Option VlPoolIdx → Except Fault (Option VlPoolIdx)
  | _, none => .ok none
  | 0, some _ => .error .noReturn
  | fuel + 1, some result =>
    match vlSetGetNodeAt set (some result) with
    | none => .ok none
    | some node =>
      let comp := set.comparator node.elem elem
      if comp = 0 then .ok (some result)
      else vlSetFindLoop set elem fuel (if comp > 0 then node.left else node.right)

/-- `vlSetFind`. -/
def vlSetFind (set : VlSet α) (elem : α) : Except Fault (Option VlPoolIdx) :=
  vlSetFindLoop set elem set.totalElements set.root

/-! ### Rotation -/

/-- A rotation of `nodeXIter` towards side `d`, below its child on the other side. -/
def vlSetTreeRotate (d : Side) (set : VlSet α) (nodeXIter : Option VlPoolIdx) :
    Except Fault (VlSet α) :=
  match vlSetGetNodeAt set nodeXIter with
  | none => .ok set
  | some nodeX =>
    let nodeYIter := nodeX.child d.other
    match vlSetGetNodeAt set nodeYIter with
    | none => .ok set
    | some nodeY => do
      let set ← set.modify nodeXIter (·.setChild d.other (nodeY.child d))
      let nodeY ← set.node nodeYIter
      let set ← set.modifyValid (nodeY.child d) (·.setParent nodeXIter)
      let nodeX ← set.node nodeXIter
      let set ← set.modify nodeYIter (·.setParent nodeX.parent)
      let nodeX ← set.node nodeXIter
      let set ← set.relink d nodeX.parent nodeXIter nodeYIter
      let set ← set.modify nodeYIter (·.setChild d nodeXIter)
      set.modify nodeXIter (·.setParent nodeYIter)

/-- `vl_SetTreeRotateLeft`. -/
def vlSetTreeRotateLeft (set : VlSet α) (nodeXIter : Option VlPoolIdx) :
    Except Fault (VlSet α) :=
  vlSetTreeRotate .left set nodeXIter

/-- `vl_SetTreeRotateRight`. -/
def vlSetTreeRotateRight (set : VlSet α) (nodeXIter : Option VlPoolIdx) :
    Except Fault (VlSet α) :=
  vlSetTreeRotate .right set nodeXIter

/-! ### Insertion -/

/-- The colour of a node that may be missing; missing nodes are black. -/
def VlSet.colorAt (set : VlSet α) (iter : Option VlPoolIdx) : Color :=
  ((vlSetGetNodeAt set iter).map LinkNode.color).getD .black

/-- The fixup loop of `vlSetInsert`, a red uncle `nodeYIter`: recolour and go on at the
grandparent. -/
def vlSetInsertRecolor (set : VlSet α) (p nodeYIter g : Option VlPoolIdx) :
    Except Fault (Option VlPoolIdx × VlSet α) := do
  let set ← set.modify p (·.setColor .black)
  let set ← set.modify nodeYIter (·.setColor .black)
  let set ← set.modify g (·.setColor .red)
  let nodeXParent ← set.node p
  return (nodeXParent.parent, set)

/-- The fixup loop of `vlSetInsert`, a node on the inner side of its parent: rotate it to the
outer side. Returns the node, its parent and its grandparent. -/
def vlSetInsertStraighten (d : Side) (set : VlSet α) (nodeXIter p g : Option VlPoolIdx) :
    Except Fault (Option VlPoolIdx × Option VlPoolIdx × Option VlPoolIdx × VlSet α) := do
  let nodeXParent ← set.node p
  if nodeXIter = nodeXParent.child d.other then do
    let nodeX ← set.node nodeXIter
    let nodeXIter := nodeX.parent
    let set ← vlSetTreeRotate d set nodeXIter
    let nodeX ← set.node nodeXIter
    let nodeXParent ← set.node nodeX.parent
    return (nodeXIter, nodeX.parent, nodeXParent.parent, set)
  else return (nodeXIter, p, g, set)

/-- The fixup loop of `vlSetInsert`, the last rotation: the parent moves above the grandparent. -/
def vlSetInsertRotate (d : Side) (set : VlSet α) (p g : Option VlPoolIdx) :
    Except Fault (VlSet α) := do
  let set ← set.modify p (·.setColor .black)
  let set ← set.modify g (·.setColor .red)
  let nodeXParent ← set.node p
  vlSetTreeRotate d.other set nodeXParent.parent

/-- One round of the fixup loop of `vlSetInsert` below a red parent `p` that is the child of the
grandparent `g` on side `d`. Returns the node to go on with. -/
def vlSetInsertFixupRound (d : Side) (set : VlSet α) (nodeXIter p g : Option VlPoolIdx) :
    Except Fault (Option VlPoolIdx × VlSet α) := do
  let nodeXGrandparent ← set.node g
  let nodeYIter := nodeXGrandparent.child d.other
  if set.colorAt nodeYIter = .red then vlSetInsertRecolor set p nodeYIter g
  else do
    let (nodeXIter, p, g, set) ← vlSetInsertStraighten d set nodeXIter p g
    let set ← vlSetInsertRotate d set p g
    return (nodeXIter, set)

/-- The fixup loop of `vlSetInsert`. -/
def vlSetInsertFixup : ℕ → VlSet α → Option VlPoolIdx → Except Fault (VlSet α)
  | 0, _, _ => .error .noReturn
  | fuel + 1, set, nodeXIter =>
    if nodeXIter = set.root then .ok set
    else do
      let nodeX ← set.node nodeXIter
      let nodeXParent ← set.node nodeX.parent
      if nodeXParent.color ≠ .red then return set
      else do
        let nodeXGrandparent ← set.node nodeXParent.parent
        let d := if nodeX.parent = nodeXGrandparent.left then Side.left else Side.right
        let (nodeXIter, set) ←
          vlSetInsertFixupRound d set nodeXIter nodeX.parent nodeXParent.parent
        vlSetInsertFixup fuel set nodeXIter

/-- The part of `vlSetInsert` that takes a node for the element and links it below `curIter` on
side `d`. -/
def vlSetInsertLeaf (elem : α) (set : VlSet α) (curIter : Option VlPoolIdx) (d : Side) :
    Except Fault (VlPoolIdx × VlSet α) := do
  let (resultIter, nodePool) ← vlPoolTake set.nodePool
  let set ← VlSet.store { set with nodePool } resultIter
    { color := .red, parent := curIter, left := none, right := none, elem }
  let set := { set with totalElements := set.totalElements + 1 }
  let set ← set.modify curIter (·.setChild d (some resultIter))
  return (resultIter, set)

/-- The descent of `vlSetInsert`: the iterator of an equal element and no new node, or a new red
leaf. -/
def vlSetInsertDescend (elem : α) :
    ℕ → VlSet α → Option VlPoolIdx → Except Fault (VlPoolIdx × Bool × VlSet α)
  | 0, _, _ => .error .noReturn
  | fuel + 1, set, curIter => do
    let curNode ← set.node curIter
    let cur ← deref curIter
    let comp := set.comparator curNode.elem elem
    if comp = 0 then return (cur, false, set)
    else
      let d := if comp > 0 then Side.left else Side.right
      if (curNode.child d).isSome then vlSetInsertDescend elem fuel set (curNode.child d)
      else do
        let (resultIter, set) ← vlSetInsertLeaf elem set curIter d
        return (resultIter, true, set)

/-- `vlSetInsert`. Returns the iterator of the element. -/
def vlSetInsert (set : VlSet α) (elem : α) : Except Fault (VlPoolIdx × VlSet α) :=
  if set.root.isNone then do
    let (resultIter, nodePool) ← vlPoolTake set.nodePool
    let set ← VlSet.store { set with nodePool } resultIter
      { color := .black, parent := none, left := none, right := none, elem }
    return (resultIter, { set with totalElements := set.totalElements + 1, root := some resultIter })
  else do
    let (resultIter, isNew, set) ←
      vlSetInsertDescend elem (set.totalElements + 1) set set.root
    if isNew then do
      let set ← vlSetInsertFixup (set.totalElements + 1) set (some resultIter)
      let set ← set.modify set.root (·.setColor .black)
      return (resultIter, set)
    else return (resultIter, set)

/-! ### Removal -/

/-- The loop of `vl_SetRemoveFixup`, a red sibling `nodeWIter`: rotate it above the parent `p`.
Returns the parent and the sibling. -/
def vlSetRemoveRedSibling (d : Side) (set : VlSet α) (nodeXIter p nodeWIter : Option VlPoolIdx) :
    Except Fault (Option VlPoolIdx × Option VlPoolIdx × VlSet α) :=
  if set.colorAt nodeWIter = .red then do
    let set ← set.modify nodeWIter (·.setColor .black)
    let set ← set.modify p (·.setColor .red)
    let nodeX ← set.node nodeXIter
    let set ← vlSetTreeRotate d set nodeX.parent
    let nodeX ← set.node nodeXIter
    let nodeXParent ← set.node nodeX.parent
    return (nodeX.parent, nodeXParent.child d.other, set)
  else .ok (p, nodeWIter, set)

/-- The loop of `vl_SetRemoveFixup`, a sibling with a black child on the far side: rotate its red
child above it. Returns the parent and the sibling. -/
def vlSetRemoveFarBlack (d : Side) (set : VlSet α) (nodeXIter p nodeWIter : Option VlPoolIdx)
    (farColor : Color) : Except Fault (Option VlPoolIdx × Option VlPoolIdx × VlSet α) :=
  if farColor = .black then do
    let nodeW ← set.node nodeWIter
    let set ← set.modifyValid (nodeW.child d) (·.setColor .black)
    let set ← set.modify nodeWIter (·.setColor .red)
    let set ← vlSetTreeRotate d.other set nodeWIter
    let nodeX ← set.node nodeXIter
    let nodeXParent ← set.node nodeX.parent
    return (nodeX.parent, nodeXParent.child d.other, set)
  else .ok (p, nodeWIter, set)

/-- The loop of `vl_SetRemoveFixup`, the last rotation: the sibling moves above the parent `p` and
takes its colour. -/
def vlSetRemoveLast (d : Side) (set : VlSet α) (nodeXIter p nodeWIter : Option VlPoolIdx) :
    Except Fault (VlSet α) :=
  match vlSetGetNodeAt set nodeWIter with
  | none => .ok set
  | some _ => do
    let nodeXParent ← set.node p
    let set ← set.modify nodeWIter (·.setColor nodeXParent.color)
    let set ← set.modify p (·.setColor .black)
    let nodeW ← set.node nodeWIter
    let set ← set.modifyValid (nodeW.child d.other) (·.setColor .black)
    let nodeX ← set.node nodeXIter
    vlSetTreeRotate d set nodeX.parent

/-- The colour of a child of `nodeWIter`, black when there is no such node or child. -/
def VlSet.childColor (d : Side) (set : VlSet α) (nodeWIter : Option VlPoolIdx) : Color :=
  match vlSetGetNodeAt set nodeWIter with
  | some nodeW => set.colorAt (nodeW.child d)
  | none => .black

/-- One round of the loop of `vl_SetRemoveFixup` for a black `nodeXIter` that is the child of `p`
on side `d`. Returns the node to go on with. -/
def vlSetRemoveFixupRound (d : Side) (set : VlSet α) (nodeXIter p : Option VlPoolIdx) :
    Except Fault (Option VlPoolIdx × VlSet α) := do
  let nodeXParent ← set.node p
  let (p, nodeWIter, set) ←
    vlSetRemoveRedSibling d set nodeXIter p (nodeXParent.child d.other)
  let nearColor := set.childColor d nodeWIter
  let farColor := set.childColor d.other nodeWIter
  if nearColor = .black ∧ farColor = .black then do
    let set ← set.modifyNode nodeWIter (·.setColor .red)
    let nodeX ← set.node nodeXIter
    return (nodeX.parent, set)
  else do
    let (p, nodeWIter, set) ← vlSetRemoveFarBlack d set nodeXIter p nodeWIter farColor
    let set ← vlSetRemoveLast d set nodeXIter p nodeWIter
    return (set.root, set)

/-- The loop of `vl_SetRemoveFixup`. Returns the node it stops at. -/
def vlSetRemoveFixupLoop :
    ℕ → VlSet α → Option VlPoolIdx → Except Fault (Option VlPoolIdx × VlSet α)
  | 0, _, _ => .error .noReturn
  | fuel + 1, set, nodeXIter =>
    if nodeXIter = set.root ∨ nodeXIter = none then .ok (nodeXIter, set)
    else do
      let nodeX ← set.node nodeXIter
      if nodeX.color ≠ .black then return (nodeXIter, set)
      else do
        let nodeXParent ← set.node nodeX.parent
        let d := if nodeXIter = nodeXParent.left then Side.left else Side.right
        let (nodeXIter, set) ← vlSetRemoveFixupRound d set nodeXIter nodeX.parent
        vlSetRemoveFixupLoop fuel set nodeXIter

/-- `vl_SetRemoveFixup`. -/
def vlSetRemoveFixup (set : VlSet α) (nodeXIter : Option VlPoolIdx) :
    Except Fault (VlSet α) := do
  let (nodeXIter, set) ← vlSetRemoveFixupLoop (set.totalElements + 2) set nodeXIter
  if nodeXIter.isSome then set.modify nodeXIter (·.setColor .black) else return set

/-- The part of `vlSetRemove` that unlinks a node with at most one child. -/
def vlSetSpliceOut (set : VlSet α) (nodeYIter nodeXIter : Option VlPoolIdx) :
    Except Fault (VlSet α) := do
  let nodeY ← set.node nodeYIter
  let set ← set.modifyNode nodeXIter (·.setParent nodeY.parent)
  let nodeY ← set.node nodeYIter
  set.relink .left nodeY.parent nodeYIter nodeXIter

/-- The part of `vlSetRemove` that puts the node spliced out in the place of the one to remove,
unless they are the same. -/
def vlSetTakePlace (set : VlSet α) (nodeYIter nodeZIter : Option VlPoolIdx) :
    Except Fault (VlSet α) :=
  if nodeYIter ≠ nodeZIter then do
    let nodeY ← set.node nodeYIter
    let set ← set.modify nodeZIter (·.setElem nodeY.elem)
    let nodeZ ← set.node nodeZIter
    let set ← set.modify nodeYIter fun nodeY => { nodeZ with elem := nodeY.elem }
    let nodeZ ← set.node nodeZIter
    let set ← set.relink .left nodeZ.parent nodeZIter nodeYIter
    let nodeZ ← set.node nodeZIter
    let set ← set.modifyNode nodeZ.left (·.setParent nodeYIter)
    let nodeZ ← set.node nodeZIter
    set.modifyNode nodeZ.right (·.setParent nodeYIter)
  else .ok set

/-- The child of a node with at most one, as `vlSetRemove` finds it. -/
def LinkNode.onlyChild (nodeY : VlSetNode α) : Option VlPoolIdx :=
  if nodeY.left.isSome then nodeY.left else nodeY.right

/-- The node `vlSetRemove` splices out: the one to remove, or its successor if it has two
children. -/
def vlSetSpliceTarget (set : VlSet α) (nodeZIter : Option VlPoolIdx) (nodeZ : VlSetNode α) :
    Except Fault (Option VlPoolIdx) :=
  if nodeZ.left.isNone ∨ nodeZ.right.isNone then .ok nodeZIter
  else vlSetTreeSuccessor set nodeZIter

/-- The end of `vlSetRemove`: return the slot of the node to remove, and fix up if the colour kept
is black. -/
def vlSetRelease (set : VlSet α) (z : VlPoolIdx) (nodeXIter : Option VlPoolIdx)
    (originalColor : Color) : Except Fault (VlSet α) := do
  let nodePool ← vlPoolReturn set.nodePool z
  let set := { set with nodePool, totalElements := set.totalElements - 1 }
  if originalColor = .black then vlSetRemoveFixup set nodeXIter else return set

/-- `vlSetRemove`. The colour tested before the fixup is the one `nodeY` has after it took the
place of `nodeZ`. -/
def vlSetRemove (set : VlSet α) (nodeZIter : Option VlPoolIdx) : Except Fault (VlSet α) :=
  if nodeZIter.isNone ∨ set.root.isNone then .ok set
  else match vlSetGetNodeAt set nodeZIter with
  | none => .ok set
  | some nodeZ =>
    if set.totalElements = 0 then .ok set
    else do
      let nodeYIter ← vlSetSpliceTarget set nodeZIter nodeZ
      match vlSetGetNodeAt set nodeYIter with
      | none => return set
      | some nodeY =>
        let nodeXIter := nodeY.onlyChild
        let set ← vlSetSpliceOut set nodeYIter nodeXIter
        let set ← vlSetTakePlace set nodeYIter nodeZIter
        let nodeY ← set.node nodeYIter
        let z ← deref nodeZIter
        vlSetRelease set z nodeXIter nodeY.color

/-- `vlSetRemoveElem`. -/
def vlSetRemoveElem (set : VlSet α) (elem : α) : Except Fault (VlSet α) := do
  let iter ← vlSetFind set elem
  vlSetRemove set iter

end VeritableLasagna
