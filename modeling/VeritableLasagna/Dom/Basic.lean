import VeritableLasagna.Dom.Storage

/-!
# The document object model

`vl_msgpack` is a tree of nodes. A node is found in two ways: by its key in the table, behind the hash
of its parent, and by the links between siblings. A map links its children in the order they were
inserted; an array also has a table of their iterators, its slots.

* Iterators are handles of the table, and `0` is `VL_MSGPACK_ITER_INVALID`; an element that is not
  there is never read.
* A recursion down the tree gets as many rounds as the table has nodes, and one more.
-/

namespace VeritableLasagna

/-- `vl_msgpack`. -/
structure VlMsgPack where
  nodes : VlNodeTable
  values : VlValueArena
  root : ℕ

/-- `VL_MSGPACK_EXT_NONE`. -/
def vlMsgPackExtNone : ℤ := -127

/-- `VL_MSGPACK_MAX_STACK_KEY_SIZE`. -/
def vlMsgPackMaxStackKeySize : ℕ := 512

/-- `ROOT_STRING`. -/
def vlMsgPackRootString : List UInt8 := [64, 82, 79, 79, 84]

/-- The hash that stands for the parent of the root. -/
def vlMsgPackRootHash : UInt64 := vlHashCombine 0x00000100000001b3 0xcbf29ce484222325

namespace VlMsgPack

variable (pack : VlMsgPack)

/-- `vlHashTableSampleValue`, of a node. -/
def sample (iter : ℕ) : Except Fault VlMsgPackElement := pack.nodes.sample iter

/-- Write to the element of a node. -/
def modify (iter : ℕ) (f : VlMsgPackElement → VlMsgPackElement) : Except Fault VlMsgPack := do
  let nodes ← pack.nodes.modify iter f
  return { pack with nodes }

/-- The `keyHash` in the header of a node. -/
def keyHash (iter : ℕ) : Except Fault UInt64 := do
  let node ← deref (pack.nodes.store.get iter)
  return vlHashMsgPackKey node.key

/-- The rounds a recursion or a walk along the links gets. -/
def rounds : ℕ := pack.nodes.store.live.length + 1

end VlMsgPack

/-! ### Keys -/

/-- The hierarchical key: the hash of the parent, and the key behind it. -/
def hierarchicalKey (parentHash : UInt64) (key : List UInt8) : List UInt8 :=
  natToLE 8 parentHash.toNat ++ key

/-- `vl_MsgPackKeyBegin`: the key, and the block it is in when it is too long for the stack. -/
def vlMsgPackKeyBegin (pack : VlMsgPack) (parentHash : UInt64) (key : List UInt8) :
    Except Fault (List UInt8 × ℕ × VlMsgPack) :=
  let keyData := hierarchicalKey parentHash key
  if keyData.length ≤ vlMsgPackMaxStackKeySize then .ok (keyData, 0, pack)
  else do
    let (arenaAlloc, values) ← pack.values.memAlloc keyData.length
      (.bytes (pack.values.garbageBytes keyData.length))
    let values ← values.memcpy arenaAlloc keyData keyData.length
    return (keyData, arenaAlloc, { pack with values })

/-- `vl_MsgPackKeyEnd`. -/
def vlMsgPackKeyEnd (pack : VlMsgPack) (arenaAlloc : ℕ) : VlMsgPack :=
  if arenaAlloc ≠ 0 then { pack with values := pack.values.memFree arenaAlloc } else pack

/-- `vlMsgPackFindChild`. -/
def vlMsgPackFindChild (pack : VlMsgPack) (parent : ℕ) (key : List UInt8) :
    Except Fault (ℕ × VlMsgPack) := do
  let parentHash ← pack.keyHash parent
  let (keyData, arenaAlloc, pack) ← vlMsgPackKeyBegin pack parentHash key
  return (pack.nodes.find keyData, vlMsgPackKeyEnd pack arenaAlloc)

/-- `vlMsgPackFindChildIndexed`. -/
def vlMsgPackFindChildIndexed (pack : VlMsgPack) (parent index : ℕ) : Except Fault ℕ := do
  let parentHash ← pack.keyHash parent
  return pack.nodes.find (hierarchicalKey parentHash (natToLE 4 index))

/-! ### Reading -/

section Reading

variable (pack : VlMsgPack) (iter : ℕ)

/-- `vlMsgPackParent`. -/
def vlMsgPackParent : Except Fault ℕ := do
  let elem ← pack.sample iter
  return elem.parent

/-- `vlMsgPackTotalChildren`. -/
def vlMsgPackTotalChildren : Except Fault ℕ := do
  let elem ← pack.sample iter
  return match elem.type with
    | .map => elem.totalChildren
    | .array => elem.second
    | _ => 0

/-- `vlMsgPackFirstChild`. -/
def vlMsgPackFirstChild : Except Fault ℕ := do
  let elem ← pack.sample iter
  match elem.type with
  | .map => return elem.first
  | .array => vlMsgPackFindChildIndexed pack iter 0
  | _ => return 0

/-- `vlMsgPackNextSibling`. -/
def vlMsgPackNextSibling : Except Fault ℕ := do
  let elem ← pack.sample iter
  return elem.nextSibling

/-- `vlMsgPackPrevSibling`. -/
def vlMsgPackPrevSibling : Except Fault ℕ := do
  let elem ← pack.sample iter
  return elem.prevSibling

/-- `vlMsgPackType`. -/
def vlMsgPackType : Except Fault VlMsgPackType := do
  let elem ← pack.sample iter
  return elem.type

/-- `vlMsgPackExtType`. -/
def vlMsgPackExtType : Except Fault ℤ := do
  let elem ← pack.sample iter
  return elem.extType

/-- `vlMsgPackSampleKey`. A stored key that is shorter than a hash has no size. -/
def vlMsgPackSampleKey : Except Fault (List UInt8) := do
  let node ← deref (pack.nodes.store.get iter)
  if node.stored.length < 8 then .error .outOfBounds else return node.stored.drop 8

/-- `vlMsgPackSampleValue`: the payload. There is none for an empty one, and the size is then not
set. -/
def vlMsgPackSampleValue : Except Fault (Option (List UInt8)) := do
  let elem ← pack.sample iter
  match elem.type with
  | .map | .array | .nil => return none
  | _ =>
    if elem.first = 0 then return none
    else match pack.values.store.get elem.first with
      | some (.bytes bs) => return some bs
      | _ => .error .outOfBounds

end Reading

/-! ### Freeing -/

/-- The loop of `vl_MsgPackFreeChildren` over the slots of an array. -/
def vlMsgPackFreeSlots (freeChildren : VlMsgPack → ℕ → Except Fault VlMsgPack) (array : ℕ) :
    ℕ → ℕ → VlMsgPack → Except Fault VlMsgPack
  | 0, _, pack => .ok pack
  | left + 1, curIdx, pack => do
    let curIter ← pack.values.slot array curIdx
    let pack ← freeChildren pack curIter
    let nodes ← pack.nodes.removeIter curIter
    let values ← pack.values.setSlot array curIdx 0
    vlMsgPackFreeSlots freeChildren array left (curIdx + 1) { pack with nodes, values }

/-- The loop of `vl_MsgPackFreeChildren` over the children of a map. -/
def vlMsgPackFreeLinks (freeChildren : VlMsgPack → ℕ → Except Fault VlMsgPack) :
    ℕ → ℕ → VlMsgPack → Except Fault VlMsgPack
  | 0, _, _ => .error .noReturn
  | rounds + 1, curIter, pack =>
    if curIter = 0 then .ok pack
    else do
      let pack ← freeChildren pack curIter
      let childElem ← pack.sample curIter
      let nodes ← pack.nodes.removeIter curIter
      vlMsgPackFreeLinks freeChildren rounds childElem.nextSibling { pack with nodes }

/-- `vl_MsgPackFreeChildren`. -/
def vlMsgPackFreeChildren : ℕ → VlMsgPack → ℕ → Except Fault VlMsgPack
  | 0, _, _ => .error .noReturn
  | rounds + 1, pack, iter => do
    let element ← pack.sample iter
    match element.type with
    | .array =>
      vlMsgPackFreeSlots (vlMsgPackFreeChildren rounds) element.first element.second 0 pack
    | .map => vlMsgPackFreeLinks (vlMsgPackFreeChildren rounds) pack.rounds element.first pack
    | .nil => .ok pack
    | _ => .ok { pack with values := pack.values.memFree element.first }

/-! ### Inserting -/

/-- The cases of `vl_MsgPackInitNode` for everything but an array. -/
def vlMsgPackInitPlain (type : VlMsgPackType) (extType : ℤ) (parent : ℕ)
    (data : Option (List UInt8)) (dataLen : ℕ) (pack : VlMsgPack) (nodeIter : ℕ) :
    Except Fault VlMsgPack :=
  match type with
  | .map =>
    pack.modify nodeIter fun element =>
      { element with type, parent, extType, first := 0, second := 0, totalChildren := 0 }
  | .nil => pack.modify nodeIter fun element => { element with type, parent, extType, first := 0 }
  | _ => do
    let (valuePtr, values) ← pack.values.memAlloc dataLen (.bytes (pack.values.garbageBytes dataLen))
    let values ← (match data with
      | some src => values.memcpy valuePtr src dataLen
      | none => .ok values)
    { pack with values }.modify nodeIter fun element =>
      { element with type, parent, extType, first := valuePtr }

/-- The last part of `vlMsgPackInsertExt`: a new node becomes a child of its parent. -/
def vlMsgPackLinkChild (pack : VlMsgPack) (parent : ℕ) (key : List UInt8) (nodeIter : ℕ) :
    Except Fault VlMsgPack := do
  let parentElement ← pack.sample parent
  match parentElement.type with
  | .array => do
    let ordinal := natOfLE (key.take 4)
    let values ← pack.values.setSlot parentElement.first ordinal nodeIter
    return { pack with values }
  | .map => do
    -- append to the sibling list
    let oldTailIter := parentElement.second
    let pack ← pack.modify nodeIter fun element =>
      { element with prevSibling := oldTailIter, nextSibling := 0 }
    let pack ← (if oldTailIter ≠ 0 then
        pack.modify oldTailIter fun siblingElement => { siblingElement with nextSibling := nodeIter }
      else .ok pack)
    pack.modify parent fun parentElement =>
      { parentElement with
        totalChildren := (parentElement.totalChildren + 1) % 2 ^ 32
        second := nodeIter
        first := if parentElement.first = 0 then nodeIter else parentElement.first }
  | _ => return pack

/-- The cleaning of `vlMsgPackInsertExt` before it overwrites a node: its children go, and then its
value or its slots. -/
def vlMsgPackClean (pack : VlMsgPack) (nodeIter : ℕ) : Except Fault VlMsgPack := do
  let element ← pack.sample nodeIter
  match element.type with
  | .array => do
    let pack ← vlMsgPackFreeChildren pack.rounds pack nodeIter
    return if element.first ≠ 0 then { pack with values := pack.values.memFree element.first }
      else pack
  | .map => vlMsgPackFreeChildren pack.rounds pack nodeIter
  | .nil => return pack
  | _ =>
    return if element.first ≠ 0 then { pack with values := pack.values.memFree element.first }
      else pack

/-- `vlMsgPackInsertExt`, which initialises the node by `initNode`. -/
def vlMsgPackInsertWith (initNode : VlMsgPack → ℕ → Except Fault VlMsgPack) (pack : VlMsgPack)
    (parent : ℕ) (key : List UInt8) : Except Fault (ℕ × VlMsgPack) := do
  let parentHash ← (if parent ≠ 0 then pack.keyHash parent else .ok vlMsgPackRootHash)
  let (keyData, arenaAlloc, pack) ← vlMsgPackKeyBegin pack parentHash key
  let nodeIter := pack.nodes.find keyData
  if nodeIter ≠ 0 then do
    -- the node exists, and is overwritten
    let pack := vlMsgPackKeyEnd pack arenaAlloc
    let pack ← vlMsgPackClean pack nodeIter
    let pack ← initNode pack nodeIter
    return (nodeIter, pack)
  else do
    let (nodeIter, nodes) ← pack.nodes.insert keyData
    let pack := vlMsgPackKeyEnd { pack with nodes } arenaAlloc
    let pack ← initNode pack nodeIter
    let pack ← (if parent ≠ 0 then vlMsgPackLinkChild pack parent key nodeIter else .ok pack)
    return (nodeIter, pack)

/-- `vlMsgPackInsert`, of a `NIL`. -/
def vlMsgPackInsertNil (pack : VlMsgPack) (parent : ℕ) (key : List UInt8) :
    Except Fault (ℕ × VlMsgPack) :=
  vlMsgPackInsertWith (vlMsgPackInitPlain .nil vlMsgPackExtNone parent none 0) pack parent key

/-- The first pass of `vl_MsgPackInitNode` over an array: every slot is `NIL`. -/
def vlMsgPackInitSlots (nodeIter : ℕ) : ℕ → ℕ → VlMsgPack → Except Fault VlMsgPack
  | 0, _, pack => .ok pack
  | left + 1, curIdx, pack => do
    let (_, pack) ← vlMsgPackInsertNil pack nodeIter (natToLE 4 curIdx)
    vlMsgPackInitSlots nodeIter left (curIdx + 1) pack

/-- The second pass: the children are linked. -/
def vlMsgPackLinkSlots (nodeIter : ℕ) : ℕ → ℕ → ℕ → VlMsgPack → Except Fault VlMsgPack
  | 0, _, _, pack => .ok pack
  | left + 1, curIdx, prevChildIter, pack => do
    let childIter ← vlMsgPackFindChildIndexed pack nodeIter curIdx
    let pack ← (if prevChildIter ≠ 0 then
        pack.modify prevChildIter fun prevChildElem => { prevChildElem with nextSibling := childIter }
      else .ok pack)
    let pack ← pack.modify childIter fun childElement =>
      { childElement with nextSibling := 0, prevSibling := prevChildIter }
    vlMsgPackLinkSlots nodeIter left (curIdx + 1) childIter pack

/-- `vl_MsgPackInitNode`. The data of an array is its length. The only nodes it inserts are `NIL`, for
which it does not come back here. -/
def vlMsgPackInitNode (type : VlMsgPackType) (extType : ℤ) (parent : ℕ)
    (data : Option (List UInt8)) (dataLen : ℕ) (pack : VlMsgPack) (nodeIter : ℕ) :
    Except Fault VlMsgPack :=
  match type with
  | .array => do
    let length ← deref (data.map fun src => natOfLE (src.take 4))
    let (array, values) ← pack.values.memAlloc (8 * length)
      (.slots (pack.values.garbageSlots length))
    let pack ← { pack with values }.modify nodeIter fun element =>
      { element with type, parent, extType, first := array, second := length }
    let pack ← vlMsgPackInitSlots nodeIter length 0 pack
    vlMsgPackLinkSlots nodeIter length 0 0 pack
  | _ => vlMsgPackInitPlain type extType parent data dataLen pack nodeIter

/-- `vlMsgPackInsertExt`. -/
def vlMsgPackInsertExt (pack : VlMsgPack) (type : VlMsgPackType) (extType : ℤ) (parent : ℕ)
    (key : List UInt8) (data : Option (List UInt8)) (dataLen : ℕ) : Except Fault (ℕ × VlMsgPack) :=
  if type = .ext ∧ extType = vlMsgPackExtNone then .ok (0, pack)
  else
    vlMsgPackInsertWith (vlMsgPackInitNode type extType parent data dataLen) pack parent key

/-- `vlMsgPackInsert`. -/
def vlMsgPackInsert (pack : VlMsgPack) (type : VlMsgPackType) (parent : ℕ) (key : List UInt8)
    (data : Option (List UInt8)) (dataLen : ℕ) : Except Fault (ℕ × VlMsgPack) :=
  vlMsgPackInsertExt pack type vlMsgPackExtNone parent key data dataLen

/-- `vlMsgPackInit`. -/
def vlMsgPackInit (nodePlace valuePlace : Placement) : Except Fault VlMsgPack := do
  let pack : VlMsgPack := ⟨.init nodePlace, .init valuePlace, 0⟩
  let (root, pack) ← vlMsgPackInsert pack .map 0 vlMsgPackRootString none 0
  return { pack with root }

/-! ### Removing -/

/-- `vlMsgPackRemove`. The node leaves its siblings, but not the table. -/
def vlMsgPackRemove (pack : VlMsgPack) (iter : ℕ) : Except Fault VlMsgPack := do
  let pack ← vlMsgPackFreeChildren pack.rounds pack iter
  let element ← pack.sample iter
  let parentIter := element.parent
  if parentIter = 0 then return pack
  else do
    let valuePtr := if element.type = .map then 0 else element.first
    let pack := if valuePtr ≠ 0 then { pack with values := pack.values.memFree valuePtr } else pack
    let parentElement ← pack.sample parentIter
    match parentElement.type with
    | .map => do
      let totalChildren := (parentElement.totalChildren + (2 ^ 32 - 1)) % 2 ^ 32
      if totalChildren = 0 then
        pack.modify parentIter fun parentElement =>
          { parentElement with totalChildren, first := 0, second := 0 }
      else do
        let left := element.prevSibling
        let right := element.nextSibling
        let pack ← pack.modify parentIter fun parentElement =>
          { parentElement with
            totalChildren
            first := if parentElement.first = iter then right else parentElement.first
            second := if parentElement.second = iter then left else parentElement.second }
        let pack ← (if left ≠ 0 then
            pack.modify left fun leftElem => { leftElem with nextSibling := right }
          else .ok pack)
        if right ≠ 0 then
          pack.modify right fun rightElem => { rightElem with prevSibling := left }
        else return pack
    | .array => pack.modify iter fun element => { element with type := .nil }
    | _ => return pack

end VeritableLasagna
