import VeritableLasagna.Lib.LinkedList
import VeritableLasagna.Pool.Nodes

/-!
# The deque

`vl_deque` is a doubly linked list whose nodes live in a fixed pool, with a counter of its elements
beside the links. `VL_POOL_INVALID_IDX` is `none`, and an element is a value of an arbitrary type.
Elements come and go at both ends, and a pop copies the element out; the branch that pops the only
element copies whether there is an output or not.

The deque invariant `VlDeque.Inv deq entries` says that the nodes are linked as the sequence
`entries` and that the counter is its length. Putting an entry in and taking one out are stated for
any place in a sequence (`VlNodes.Linked.insert`, `VlNodes.Linked.remove`); the four mutators are
these at the two ends.
-/

namespace VeritableLasagna

/-- `vl_deque_node`, together with the element stored behind it. -/
abbrev VlDequeNode (α : Type) := ListNode VlPoolIdx α

/-- `sizeof(vl_deque_node)`: two indices. -/
def vlDequeNodeSize : ℕ := 16

/-- `vl_deque`, together with the memory of its pool. -/
structure VlDeque (α : Type) where
  nodes : VlNodes (VlDequeNode α)
  totalElements : UInt32
  elementSize : ℕ
  head : Option VlPoolIdx
  tail : Option VlPoolIdx

variable {α : Type}

/-- Write to a node whose index has to be valid. -/
def VlNodes.writeAt {ν : Type} (nodes : VlNodes ν) (o : Option VlPoolIdx) (f : ν → ν) :
    Except Fault (VlNodes ν) := do
  let i ← deref o
  nodes.write i f

/-- A write that the source makes only if the index is valid. -/
def VlNodes.writeValid {ν : Type} (nodes : VlNodes ν) (o : Option VlPoolIdx) (f : ν → ν) :
    Except Fault (VlNodes ν) :=
  if o.isSome then nodes.writeAt o f else .ok nodes

/-- `vlDequeInit`. The size of a node is passed in 16 bits. -/
def vlDequeInit (elementSize : ℕ) : VlDeque α where
  nodes := vlNodesInit (vlDequeNodeSize + elementSize)
  totalElements := 0
  elementSize := elementSize
  head := none
  tail := none

/-- `vlDequeClear`. -/
def vlDequeClear (deq : VlDeque α) : Except Fault (VlDeque α) := do
  let nodes ← deq.nodes.clear
  return { deq with nodes, head := none, tail := none, totalElements := 0 }

/-- `vlDequeReserve`. -/
def vlDequeReserve (deq : VlDeque α) (numElems : ℕ) : Except Fault (VlDeque α) := do
  let nodes ← deq.nodes.reserve numElems
  return { deq with nodes }

/-- `vlDequePushFront`. -/
def vlDequePushFront (deq : VlDeque α) (val : α) : Except Fault (VlDeque α) := do
  let oldHead := deq.head
  let (newHead, nodes) ←
    deq.nodes.take (vlDequeNodeSize + deq.elementSize) fun _ => ⟨none, oldHead, val⟩
  let nodes ← nodes.writeValid oldHead (·.setPrev (some newHead))
  let tail := if deq.tail.isNone then some newHead else deq.tail
  return { deq with nodes, tail, head := some newHead, totalElements := deq.totalElements + 1 }

/-- `vlDequePushBack`. -/
def vlDequePushBack (deq : VlDeque α) (val : α) : Except Fault (VlDeque α) := do
  let oldTail := deq.tail
  let (newTail, nodes) ←
    deq.nodes.take (vlDequeNodeSize + deq.elementSize) fun _ => ⟨oldTail, none, val⟩
  let nodes ← nodes.writeValid oldTail (·.setNext (some newTail))
  let head := if deq.head.isNone then some newTail else deq.head
  return { deq with nodes, head, tail := some newTail, totalElements := deq.totalElements + 1 }

/-- `memcpy` of an element to an output that has to be there. -/
def vlDequeCopyOut (val : Bool) (elem : α) : Except Fault (Option α) :=
  if val then .ok (some elem) else .error .nullDeref

/-- `vlDequePopFront`, with what it returns and what it copies out. The only element is copied out
without asking for an output. -/
def vlDequePopFront (deq : VlDeque α) (val : Bool) : Except Fault ((ℕ × Option α) × VlDeque α) :=
  match deq.head with
  | none => .ok ((0, none), deq)
  | some head =>
    if deq.head = deq.tail then do
      let oldHead ← deq.nodes.read head
      let copied ← vlDequeCopyOut val oldHead.elem
      let nodes ← deq.nodes.ret head
      return ((1, copied), { deq with
        nodes, head := none, tail := none, totalElements := deq.totalElements - 1 })
    else do
      let oldNode ← deq.nodes.read head
      let copied := if val then some oldNode.elem else none
      let rightIter := oldNode.next
      let nodes ← deq.nodes.writeAt rightIter (·.setPrev none)
      let nodes ← nodes.ret head
      return ((1, copied), { deq with
        nodes, head := rightIter, totalElements := deq.totalElements - 1 })

/-- `vlDequePopBack`, with what it returns and what it copies out. The only element is copied out
without asking for an output. -/
def vlDequePopBack (deq : VlDeque α) (val : Bool) : Except Fault ((ℕ × Option α) × VlDeque α) :=
  match deq.tail with
  | none => .ok ((0, none), deq)
  | some tail =>
    if deq.head = deq.tail then do
      let oldHead ← deq.nodes.read tail
      let copied ← vlDequeCopyOut val oldHead.elem
      let nodes ← deq.nodes.ret tail
      return ((1, copied), { deq with
        nodes, head := none, tail := none, totalElements := deq.totalElements - 1 })
    else do
      let oldNode ← deq.nodes.read tail
      let copied := if val then some oldNode.elem else none
      let leftIter := oldNode.prev
      let nodes ← deq.nodes.writeAt leftIter (·.setNext none)
      let nodes ← nodes.ret tail
      return ((1, copied), { deq with
        nodes, tail := leftIter, totalElements := deq.totalElements - 1 })

/-! ### Linked nodes -/

section Linked

variable {nodes nodes' : VlNodes (VlDequeNode α)} {size : ℕ} {l l₁ l₂ : List (VlPoolIdx × α)}
  {e : VlPoolIdx × α} {o : Option VlPoolIdx} {i : VlPoolIdx}
  {f : VlDequeNode α → VlDequeNode α}

/-- The nodes of a pool are linked as a sequence, and are all that live in it. -/
structure VlNodes.Linked (nodes : VlNodes (VlDequeNode α)) (size : ℕ) (l : List (VlPoolIdx × α)) :
    Prop where
  inv : nodes.Inv size (l.map Prod.fst)
  segment : Segment nodes.heap none l none

namespace VlNodes

/-- A write to a live node, if any, is a modification of the heap. -/
theorem writeValid_spec {live : List VlPoolIdx} (h : nodes.Inv size live)
    (ho : ∀ i, o = some i → i ∈ live) (f : VlDequeNode α → VlDequeNode α) :
    ∃ nodes', nodes.writeValid o f = .ok nodes' ∧ nodes'.Inv size live ∧
      nodes'.heap = ListHeap.modify nodes.heap o f := by
  cases o with
  | none => exact ⟨nodes, rfl, h, ListHeap.modify_none.symm⟩
  | some i =>
    obtain ⟨nodes', hop, hinv, hself, hother⟩ := write_spec h (ho i rfl) f
    refine ⟨nodes', hop, hinv, ?_⟩
    funext j
    by_cases hj : j = i
    · rw [hj, hself, ListHeap.modify_self]
    · rw [hother j hj, ListHeap.modify_of_ne (by simpa using Ne.symm hj)]

namespace Linked

theorem nodup (h : nodes.Linked size l) : (l.map Prod.fst).Nodup := h.inv.pool.live_nodup

/-- The entries on both sides of a place are live. -/
theorem mem_ends (l₁ l₂ : List (VlPoolIdx × α)) :
    (∀ i, tailIter none l₁ = some i → i ∈ (l₁ ++ l₂).map Prod.fst) ∧
      ∀ i, headIter l₂ none = some i → i ∈ (l₁ ++ l₂).map Prod.fst := by
  rw [List.map_append]
  exact ⟨fun i hi => List.mem_append_left _ (mem_of_tailIter hi),
    fun i hi => List.mem_append_right _ (mem_of_headIter hi)⟩

/-- **An entry is put in** at any place: a node is taken and linked to its neighbours. -/
theorem insert (h : nodes.Linked size (l₁ ++ l₂)) (hroom : nodes.pool.Room 1) (a : α) :
    ∃ i nodes₁ nodes₂ nodes₃,
      nodes.take size (fun _ => ⟨tailIter none l₁, headIter l₂ none, a⟩) = .ok (i, nodes₁) ∧
      nodes₁.writeValid (tailIter none l₁) (·.setNext (some i)) = .ok nodes₂ ∧
      nodes₂.writeValid (headIter l₂ none) (·.setPrev (some i)) = .ok nodes₃ ∧
      nodes₃.Linked size (l₁ ++ (i, a) :: l₂) := by
  obtain ⟨i, nodes₁, htake, hinv₁, hnew, hkeep⟩ := take_spec h.inv hroom
    fun _ => (⟨tailIter none l₁, headIter l₂ none, a⟩ : VlDequeNode α)
  obtain ⟨hleft, hright⟩ := mem_ends l₁ l₂
  obtain ⟨nodes₂, hop₂, hinv₂, hheap₂⟩ := writeValid_spec hinv₁
    (fun j hj => List.mem_cons_of_mem _ (hleft j hj)) (·.setNext (some i))
  obtain ⟨nodes₃, hop₃, hinv₃, hheap₃⟩ := writeValid_spec hinv₂
    (fun j hj => List.mem_cons_of_mem _ (hright j hj)) (·.setPrev (some i))
  refine ⟨i, nodes₁, nodes₂, nodes₃, htake, hop₂, hop₃, hinv₃.perm ?_, ?_⟩
  · rw [List.map_append, List.map_append, List.map_cons]
    exact List.perm_middle
  · have hseg : Segment nodes₁.heap none (l₁ ++ l₂) none := h.segment.congr hkeep
    rw [hheap₃, hheap₂]
    exact hseg.insert hinv₁.pool.live_nodup hnew

/-- **An entry is taken out** from any place: its neighbours are linked, and its node is returned. -/
theorem remove (h : nodes.Linked size (l₁ ++ e :: l₂)) :
    ∃ nodes₁ nodes₂ nodes₃,
      nodes.writeValid (tailIter none l₁) (·.setNext (headIter l₂ none)) = .ok nodes₁ ∧
      nodes₁.writeValid (headIter l₂ none) (·.setPrev (tailIter none l₁)) = .ok nodes₂ ∧
      nodes₂.ret e.1 = .ok nodes₃ ∧ nodes₃.Linked size (l₁ ++ l₂) := by
  have hperm : ((l₁ ++ e :: l₂).map Prod.fst).Perm (e.1 :: (l₁ ++ l₂).map Prod.fst) := by
    rw [List.map_append, List.map_append, List.map_cons]
    exact List.perm_middle
  obtain ⟨hleft, hright⟩ := mem_ends l₁ l₂
  have hmem : ∀ j ∈ (l₁ ++ l₂).map Prod.fst, j ∈ (l₁ ++ e :: l₂).map Prod.fst :=
    fun j hj => hperm.mem_iff.mpr (List.mem_cons_of_mem _ hj)
  obtain ⟨nodes₁, hop₁, hinv₁, hheap₁⟩ := writeValid_spec h.inv
    (fun j hj => hmem j (hleft j hj)) (·.setNext (headIter l₂ none))
  obtain ⟨nodes₂, hop₂, hinv₂, hheap₂⟩ := writeValid_spec hinv₁
    (fun j hj => hmem j (hright j hj)) (·.setPrev (tailIter none l₁))
  obtain ⟨nodes₃, hop₃, hinv₃, hkeep⟩ := ret_spec hinv₂
    (hperm.mem_iff.mpr List.mem_cons_self)
  have herase := hperm.erase e.1
  rw [List.erase_cons_head] at herase
  have hout := h.segment.remove h.nodup
  rw [← hheap₁, ← hheap₂] at hout
  exact ⟨nodes₁, nodes₂, nodes₃, hop₁, hop₂, hop₃, hinv₃.perm herase.symm,
    hout.congr fun j hj => hkeep j (hmem j hj)⟩

theorem read_eq (h : nodes.Linked size (l₁ ++ e :: l₂)) :
    nodes.read e.1 = .ok ⟨tailIter none l₁, headIter l₂ none, e.2⟩ := by
  rw [read, h.segment.node, deref_some]

end Linked

end VlNodes

end Linked

/-! ### The invariant -/

/-- The **deque invariant**. -/
structure VlDeque.Inv (deq : VlDeque α) (entries : List (VlPoolIdx × α)) : Prop where
  linked : deq.nodes.Linked (vlDequeNodeSize + deq.elementSize) entries
  head_eq : deq.head = headIter entries none
  tail_eq : deq.tail = tailIter none entries
  total_eq : deq.totalElements.toNat = entries.length

section Specs

variable {deq : VlDeque α} {entries l l₁ l₂ : List (VlPoolIdx × α)} {e : VlPoolIdx × α}

/-- The counter does not wrap: the memory of a pool that nodes fit holds fewer elements. -/
theorem VlNodes.Linked.length_lt {nodes : VlNodes (VlDequeNode α)} {elementSize : ℕ}
    (h : nodes.Linked (vlDequeNodeSize + elementSize) entries) : entries.length < 2 ^ 32 := by
  have hlt := h.inv.fits.length_lt h.inv.pool
  rw [List.length_map, vlDequeNodeSize] at hlt
  have hle : 16 * entries.length ≤ (16 + elementSize) * entries.length :=
    Nat.mul_le_mul_right _ (Nat.le_add_right _ _)
  omega

theorem UInt32.toNat_add_one {n : UInt32} (h : n.toNat + 1 < 2 ^ 32) :
    (n + 1).toNat = n.toNat + 1 := by
  rw [UInt32.toNat_add]
  exact Nat.mod_eq_of_lt h

theorem UInt32.toNat_sub_one {n : UInt32} (h : 0 < n.toNat) : (n - 1).toNat = n.toNat - 1 :=
  UInt32.toNat_sub_of_le _ _ (UInt32.le_iff_toNat_le.mpr h)

/-- The head and the tail are the same exactly when there is one entry. -/
theorem VlDeque.Inv.head_eq_tail_iff (h : deq.Inv (e :: l)) : deq.head = deq.tail ↔ l = [] := by
  rw [h.head_eq, h.tail_eq]
  exact headIter_eq_tailIter_iff h.linked.nodup

/-- **`vlDequePushFront`** puts an entry in front. -/
theorem vlDequePushFront_spec (h : deq.Inv entries) (hroom : deq.nodes.pool.Room 1) (a : α) :
    ∃ i deq', vlDequePushFront deq a = .ok deq' ∧ deq'.Inv ((i, a) :: entries) := by
  have hlinked : deq.nodes.Linked (vlDequeNodeSize + deq.elementSize) ([] ++ entries) := h.linked
  obtain ⟨i, nodes₁, nodes₂, nodes₃, htake, hop₂, hop₃, hlinked'⟩ := hlinked.insert hroom a
  obtain rfl : nodes₁ = nodes₂ := Except.ok.inj hop₂
  have htail : (if deq.tail.isNone then some i else deq.tail) = tailIter (some i) entries := by
    rcases entries.eq_nil_or_concat' with rfl | ⟨l, e, rfl⟩
    · rw [h.tail_eq]
      rfl
    · rw [h.tail_eq, tailIter_concat, tailIter_concat]
      rfl
  have hcount := hlinked'.length_lt
  refine ⟨i, { deq with
    nodes := nodes₃
    tail := tailIter (some i) entries
    head := some i
    totalElements := deq.totalElements + 1 }, ?_, hlinked', rfl, rfl, ?_⟩
  · rw [tailIter_nil] at htake
    rw [vlDequePushFront, h.head_eq, htake, ok_bind]
    dsimp only
    rw [hop₃, ok_bind, htail]
    rfl
  · rw [List.nil_append, List.length_cons, ← h.total_eq] at hcount
    rw [List.length_cons, ← h.total_eq]
    exact UInt32.toNat_add_one hcount

/-- **`vlDequePushBack`** puts an entry behind. -/
theorem vlDequePushBack_spec (h : deq.Inv entries) (hroom : deq.nodes.pool.Room 1) (a : α) :
    ∃ i deq', vlDequePushBack deq a = .ok deq' ∧ deq'.Inv (entries ++ [(i, a)]) := by
  have hlinked : deq.nodes.Linked (vlDequeNodeSize + deq.elementSize) (entries ++ []) := by
    rw [List.append_nil]
    exact h.linked
  obtain ⟨i, nodes₁, nodes₂, nodes₃, htake, hop₂, hop₃, hlinked'⟩ := hlinked.insert hroom a
  obtain rfl : nodes₂ = nodes₃ := Except.ok.inj hop₃
  have hhead : (if deq.head.isNone then some i else deq.head) =
      headIter (entries ++ [(i, a)]) none := by
    rw [h.head_eq]
    cases entries with
    | nil => rfl
    | cons e l => rfl
  have hcount := hlinked'.length_lt
  refine ⟨i, { deq with
    nodes := nodes₂
    head := headIter (entries ++ [(i, a)]) none
    tail := some i
    totalElements := deq.totalElements + 1 }, ?_, hlinked', rfl, ?_, ?_⟩
  · rw [headIter_nil] at htake
    rw [vlDequePushBack, h.tail_eq, htake, ok_bind]
    dsimp only
    rw [hop₂, ok_bind, hhead]
    rfl
  · rw [tailIter_concat]
  · rw [List.length_append, List.length_singleton, ← h.total_eq] at hcount
    rw [List.length_append, List.length_singleton, ← h.total_eq]
    exact UInt32.toNat_add_one hcount

/-- **`vlDequePopFront`** of an empty deque. -/
theorem vlDequePopFront_nil (h : deq.Inv []) (val : Bool) :
    vlDequePopFront deq val = .ok ((0, none), deq) := by
  rw [vlDequePopFront, h.head_eq]
  rfl

/-- **`vlDequePopBack`** of an empty deque. -/
theorem vlDequePopBack_nil (h : deq.Inv []) (val : Bool) :
    vlDequePopBack deq val = .ok ((0, none), deq) := by
  rw [vlDequePopBack, h.tail_eq]
  rfl

/-- **`vlDequePopFront`** copies the first entry out and takes it. -/
theorem vlDequePopFront_cons (h : deq.Inv (e :: l)) :
    ∃ deq', vlDequePopFront deq true = .ok ((1, some e.2), deq') ∧ deq'.Inv l := by
  have hlinked : deq.nodes.Linked (vlDequeNodeSize + deq.elementSize) ([] ++ e :: l) := h.linked
  obtain ⟨nodes₁, nodes₂, nodes₃, hop₁, hop₂, hop₃, hlinked'⟩ := hlinked.remove
  obtain rfl : deq.nodes = nodes₁ := Except.ok.inj hop₁
  have hread := hlinked.read_eq
  have hhead : deq.head = some e.1 := h.head_eq
  have htail : deq.tail = tailIter (some e.1) l := h.tail_eq
  have hcount : (deq.totalElements - 1).toNat = l.length := by
    rw [UInt32.toNat_sub_one (by rw [h.total_eq]; exact Nat.succ_pos _), h.total_eq]
    rfl
  rw [vlDequePopFront, hhead]
  dsimp only
  rw [← hhead, hread, ok_bind]
  cases l with
  | nil =>
    obtain rfl : deq.nodes = nodes₂ := Except.ok.inj hop₂
    have heq : deq.head = deq.tail := h.head_eq_tail_iff.mpr rfl
    refine ⟨{ deq with
      nodes := nodes₃, head := none, tail := none, totalElements := deq.totalElements - 1 }, ?_,
      hlinked', rfl, rfl, hcount⟩
    rw [if_pos heq, vlDequeCopyOut, if_pos rfl, ok_bind, hop₃]
    rfl
  | cons e' l =>
    have hne : ¬ deq.head = deq.tail := fun heq =>
      List.cons_ne_nil _ _ (h.head_eq_tail_iff.mp heq)
    have hright : deq.nodes.writeAt (some e'.1) (·.setPrev none) = .ok nodes₂ := hop₂
    refine ⟨{ deq with
      nodes := nodes₃, head := some e'.1, totalElements := deq.totalElements - 1 }, ?_, hlinked',
      rfl, htail.trans (tailIter_eq_of_ne_nil (List.cons_ne_nil _ _)), hcount⟩
    rw [if_neg hne, ok_bind]
    dsimp only [headIter_cons]
    rw [hright, ok_bind, hop₃]
    rfl

/-- **`vlDequePopBack`** copies the last entry out and takes it. -/
theorem vlDequePopBack_concat (h : deq.Inv (l ++ [e])) :
    ∃ deq', vlDequePopBack deq true = .ok ((1, some e.2), deq') ∧ deq'.Inv l := by
  obtain ⟨nodes₁, nodes₂, nodes₃, hop₁, hop₂, hop₃, hlinked'⟩ := h.linked.remove
  obtain rfl : nodes₁ = nodes₂ := Except.ok.inj hop₂
  rw [List.append_nil] at hlinked'
  have hread := h.linked.read_eq
  have htail : deq.tail = some e.1 := by rw [h.tail_eq, tailIter_concat]
  have hcount : (deq.totalElements - 1).toNat = l.length := by
    have hlen : deq.totalElements.toNat = l.length + 1 := by
      rw [h.total_eq, List.length_append, List.length_singleton]
    rw [UInt32.toNat_sub_one (by rw [hlen]; exact Nat.succ_pos _), hlen]
    rfl
  rw [vlDequePopBack, htail]
  dsimp only
  rw [← htail, hread, ok_bind]
  cases l with
  | nil =>
    obtain rfl : deq.nodes = nodes₁ := Except.ok.inj hop₁
    have heq : deq.head = deq.tail := VlDeque.Inv.head_eq_tail_iff h |>.mpr rfl
    refine ⟨{ deq with
      nodes := nodes₃, head := none, tail := none, totalElements := deq.totalElements - 1 }, ?_,
      hlinked', rfl, rfl, hcount⟩
    rw [if_pos heq, vlDequeCopyOut, if_pos rfl, ok_bind, hop₃]
    rfl
  | cons e₁ l =>
    have hne : ¬ deq.head = deq.tail := fun heq =>
      List.append_ne_nil_of_right_ne_nil _ (List.cons_ne_nil _ _)
        ((VlDeque.Inv.head_eq_tail_iff h).mp heq)
    obtain ⟨i, hi⟩ : ∃ i, tailIter none (e₁ :: l) = some i :=
      Option.ne_none_iff_exists'.mp fun hnil => by
        rw [tailIter_none_eq_none] at hnil
        cases hnil
    rw [hi] at hop₁
    have hleft : deq.nodes.writeAt (some i) (·.setNext none) = .ok nodes₁ := hop₁
    refine ⟨{ deq with
      nodes := nodes₃, tail := some i, totalElements := deq.totalElements - 1 }, ?_, hlinked',
      ?_, hi.symm, hcount⟩
    · rw [if_neg hne, ok_bind, hi]
      dsimp only
      rw [hleft, ok_bind, hop₃]
      rfl
    · exact h.head_eq

/-- **`vlDequeReserve`** keeps the entries. -/
theorem vlDequeReserve_spec (h : deq.Inv entries) {n : ℕ} (hroom : deq.nodes.pool.Room n) :
    ∃ deq', vlDequeReserve deq n = .ok deq' ∧ deq'.Inv entries := by
  obtain ⟨nodes, hop, hnodes, hkeep⟩ := VlNodes.reserve_spec h.linked.inv hroom
  exact ⟨{ deq with nodes }, by rw [vlDequeReserve, hop]; rfl,
    ⟨hnodes, h.linked.segment.congr hkeep⟩, h.head_eq, h.tail_eq, h.total_eq⟩

/-- **`vlDequeClear`** leaves none. -/
theorem vlDequeClear_spec (h : deq.Inv entries) :
    ∃ deq', vlDequeClear deq = .ok deq' ∧ deq'.Inv [] := by
  obtain ⟨nodes, hop, hnodes⟩ := VlNodes.clear_spec h.linked.inv
  exact ⟨_, by rw [vlDequeClear, hop]; rfl, ⟨hnodes, trivial⟩, rfl, rfl, rfl⟩

/-- A deque just initialised is empty, if a node keeps its size. -/
theorem vlDequeInit_inv {elementSize : ℕ}
    (hsize : vlMemoryPadUp (vlDequeNodeSize + elementSize) vlDefaultMemoryAlign < 2 ^ 16) :
    (vlDequeInit elementSize : VlDeque α).Inv [] :=
  ⟨⟨vlNodesInit_inv (Nat.add_pos_left (by decide) _) hsize, trivial⟩, rfl, rfl, rfl⟩

end Specs

end VeritableLasagna
