import VeritableLasagna.Lib.ForwardList
import VeritableLasagna.Pool.Nodes

/-!
# The queue

`vl_queue` is a singly linked list whose nodes live in a fixed pool. Elements are pushed behind the
tail and popped at the head. A node names the next one by its pool index; that of a new node names
the node itself, until the next push writes it anew. `VL_POOL_INVALID_IDX` is `none` at the ends of
the queue, and an element is a value of an arbitrary type.

The queue invariant `VlQueue.Inv queue entries` says that the nodes are linked as the sequence
`entries`. Every operation returns and keeps it, as long as the pool has room.
-/

namespace VeritableLasagna

/-- `vl_queue_header` together with the element stored behind it. -/
abbrev VlQueueNode (α : Type) := ForwardNode VlPoolIdx α

/-- `sizeof(vl_queue_header)`: one index. -/
def vlQueueHeaderSize : ℕ := 8

/-- `vl_queue`, together with the memory of its pool. -/
structure VlQueue (α : Type) where
  nodes : VlNodes (VlQueueNode α)
  totalElements : UInt32
  elementSize : ℕ
  head : Option VlPoolIdx
  tail : Option VlPoolIdx

variable {α : Type}

/-- `vlQueueInit`, when the memory of the queue holds `totalElements` in the field of this name,
which is not written. The size of a node is passed in 16 bits. -/
def vlQueueInit (totalElements : UInt32) (elementSize : ℕ) : VlQueue α where
  nodes := vlNodesInit (vlQueueHeaderSize + elementSize)
  totalElements := totalElements
  elementSize := elementSize
  head := none
  tail := none

/-- `vlQueueSize`. -/
def vlQueueSize (queue : VlQueue α) : UInt32 := queue.totalElements

/-- `vlQueueClear`. -/
def vlQueueClear (queue : VlQueue α) : Except Fault (VlQueue α) := do
  let nodes ← queue.nodes.clear
  return { queue with nodes, head := none, tail := none }

/-- `vlQueueReserve`. -/
def vlQueueReserve (queue : VlQueue α) (numElems : ℕ) : Except Fault (VlQueue α) := do
  let nodes ← queue.nodes.reserve numElems
  return { queue with nodes }

/-- `vlQueuePushBack`. The header of the new node names the node itself. -/
def vlQueuePushBack (queue : VlQueue α) (element : α) : Except Fault (VlQueue α) := do
  let oldTail := queue.tail
  let (newTail, nodes) ←
    queue.nodes.take (vlQueueHeaderSize + queue.elementSize) fun newTail => ⟨newTail, element⟩
  let nodes ← match oldTail with
    | some oldTail => nodes.write oldTail (·.setNext newTail)
    | none => .ok nodes
  let head := if queue.head.isNone then some newTail else queue.head
  return { queue with nodes, head, tail := some newTail }

/-- `vlQueuePopFront`, with what it returns and what it copies out. The output may be missing. -/
def vlQueuePopFront (queue : VlQueue α) (element : Bool) :
    Except Fault ((ℕ × Option α) × VlQueue α) :=
  match queue.head with
  | none => .ok ((0, none), queue)
  | some target => do
    let header ← queue.nodes.read target
    let (head, tail) := if queue.head = queue.tail then (none, none)
      else (some header.next, queue.tail)
    let copied := if element then some header.elem else none
    let nodes ← queue.nodes.ret target
    return ((1, copied), { queue with nodes, head, tail })

/-! ### The invariant -/

/-- The **queue invariant**. -/
structure VlQueue.Inv (queue : VlQueue α) (entries : List (VlPoolIdx × α)) : Prop where
  nodes : queue.nodes.Inv (vlQueueHeaderSize + queue.elementSize) (entries.map Prod.fst)
  linked : ∃ q, Forward queue.nodes.heap entries q
  head_eq : queue.head = headIter entries none
  tail_eq : queue.tail = tailIter none entries

variable {queue : VlQueue α} {entries l : List (VlPoolIdx × α)} {e : VlPoolIdx × α}

theorem VlQueue.Inv.nodup (h : queue.Inv entries) : (entries.map Prod.fst).Nodup :=
  h.nodes.pool.live_nodup

/-- The head and the tail are the same exactly when there is one entry. -/
theorem VlQueue.Inv.head_eq_tail_iff (h : queue.Inv (e :: l)) : queue.head = queue.tail ↔ l = [] := by
  rw [h.head_eq, h.tail_eq]
  exact headIter_eq_tailIter_iff h.nodup

/-- **`vlQueuePushBack`** puts an entry behind the last one. -/
theorem vlQueuePushBack_spec (h : queue.Inv entries) (hroom : queue.nodes.pool.Room 1) (a : α) :
    ∃ i queue', vlQueuePushBack queue a = .ok queue' ∧ queue'.Inv (entries ++ [(i, a)]) := by
  obtain ⟨i, nodes, htake, hnodes, hnew, hkeep⟩ :=
    VlNodes.take_spec h.nodes hroom fun i => (⟨i, a⟩ : VlQueueNode α)
  have hfresh : i ∉ entries.map Prod.fst := (List.nodup_cons.mp hnodes.pool.live_nodup).1
  obtain ⟨q, hlinked⟩ := h.linked
  have hperm : ((entries ++ [(i, a)]).map Prod.fst).Perm (i :: entries.map Prod.fst) := by
    rw [List.map_append]
    exact List.perm_append_singleton _ _
  rcases entries.eq_nil_or_concat' with rfl | ⟨l, e, rfl⟩
  -- the only node is the head, and names itself
  · refine ⟨i, { queue with nodes, head := some i, tail := some i }, ?_, hnodes,
      ⟨i, hnew, trivial⟩, rfl, rfl⟩
    rw [vlQueuePushBack, htake, ok_bind]
    dsimp only
    rw [h.tail_eq, h.head_eq]
    rfl
  -- the last node is linked to the new one
  · have hmem : e.1 ∈ (l ++ [e]).map Prod.fst := by simp
    obtain ⟨nodes', hwrite, hnodes', hself, hother⟩ :=
      VlNodes.write_spec hnodes (List.mem_cons_of_mem _ hmem) (·.setNext i)
    have htail : queue.tail = some e.1 := by rw [h.tail_eq, tailIter_concat]
    have hhead : queue.head = headIter (l ++ [e] ++ [(i, a)]) none := by
      rw [h.head_eq, headIter_append, headIter_append, headIter_append]
      rfl
    have hsome : queue.head.isNone = false := by
      cases hq : queue.head with
      | none =>
        rw [h.head_eq, headIter_none_eq_none] at hq
        exact absurd hq (List.append_ne_nil_of_right_ne_nil _ (List.cons_ne_nil _ _))
      | some j => rfl
    refine ⟨i, { queue with nodes := nodes', tail := some i }, ?_, hnodes'.perm hperm, ⟨i, ?_⟩,
      hhead, ?_⟩
    · rw [vlQueuePushBack, htake, ok_bind]
      dsimp only
      rw [htail]
      dsimp only
      rw [hwrite, ok_bind, hsome]
      rfl
    · rw [List.append_assoc]
      have hnd := h.nodup
      rw [List.map_append, List.nodup_append'] at hnd
      refine hlinked.concat (fun j hj => ?_) ?_ ?_
      · have hje : j ≠ e.1 := fun heq => hnd.2.2 hj (by simp [heq])
        rw [hother j hje]
        exact hkeep j (by rw [List.map_append]; exact List.mem_append_left _ hj)
      · rw [hself, hkeep e.1 hmem]
      · rw [hother i (ne_of_mem_of_not_mem hmem hfresh).symm, hnew]
    · rw [tailIter_concat]

/-- **`vlQueuePopFront`** of an empty queue. -/
theorem vlQueuePopFront_nil (h : queue.Inv []) (element : Bool) :
    vlQueuePopFront queue element = .ok ((0, none), queue) := by
  rw [vlQueuePopFront, h.head_eq]
  rfl

/-- **`vlQueuePopFront`** takes the first entry and copies it out. -/
theorem vlQueuePopFront_cons (h : queue.Inv (e :: l)) (element : Bool) :
    ∃ queue', vlQueuePopFront queue element =
        .ok ((1, if element then some e.2 else none), queue') ∧ queue'.Inv l := by
  obtain ⟨q, hnode, hlinked⟩ := h.linked
  have hmem : e.1 ∈ (e :: l).map Prod.fst := List.mem_cons_self
  obtain ⟨nodes, hret, hnodes, hkeep⟩ := VlNodes.ret_spec h.nodes hmem
  have hread : queue.nodes.read e.1 = .ok ⟨startIter l q, e.2⟩ := by
    rw [VlNodes.read, hnode, deref_some]
  have hlive : ((e :: l).map Prod.fst).erase e.1 = l.map Prod.fst := by
    rw [List.map_cons, List.erase_cons_head]
  rw [hlive] at hnodes
  have hlinked' : Forward nodes.heap l q :=
    hlinked.congr fun j hj => hkeep j (List.mem_cons_of_mem _ hj)
  have hhead : queue.head = some e.1 := h.head_eq
  have htail : queue.tail = tailIter (some e.1) l := h.tail_eq
  rw [vlQueuePopFront, hhead]
  dsimp only
  rw [← hhead, hread, ok_bind, hret, ok_bind]
  cases l with
  | nil =>
    have heq : queue.head = queue.tail := h.head_eq_tail_iff.mpr rfl
    exact ⟨_, by rw [if_pos heq]; rfl, hnodes, ⟨q, hlinked'⟩, rfl, rfl⟩
  | cons e' l =>
    have hne : ¬ queue.head = queue.tail := fun heq =>
      List.cons_ne_nil _ _ (h.head_eq_tail_iff.mp heq)
    refine ⟨_, by rw [if_neg hne]; rfl, hnodes, ⟨q, hlinked'⟩, rfl, ?_⟩
    exact htail.trans (tailIter_eq_of_ne_nil (List.cons_ne_nil _ _))

/-- **`vlQueueReserve`** keeps the entries. -/
theorem vlQueueReserve_spec (h : queue.Inv entries) {n : ℕ} (hroom : queue.nodes.pool.Room n) :
    ∃ queue', vlQueueReserve queue n = .ok queue' ∧ queue'.Inv entries := by
  obtain ⟨nodes, hop, hnodes, hkeep⟩ := VlNodes.reserve_spec h.nodes hroom
  obtain ⟨q, hlinked⟩ := h.linked
  exact ⟨{ queue with nodes }, by rw [vlQueueReserve, hop]; rfl, hnodes,
    ⟨q, hlinked.congr hkeep⟩, h.head_eq, h.tail_eq⟩

/-- **`vlQueueClear`** leaves none. -/
theorem vlQueueClear_spec (h : queue.Inv entries) :
    ∃ queue', vlQueueClear queue = .ok queue' ∧ queue'.Inv [] := by
  obtain ⟨nodes, hop, hnodes⟩ := VlNodes.clear_spec h.nodes
  exact ⟨_, by rw [vlQueueClear, hop]; rfl, hnodes, ⟨⟨0, 0⟩, trivial⟩, rfl, rfl⟩

/-- A queue just initialised is empty, if a node keeps its size. -/
theorem vlQueueInit_inv {totalElements : UInt32} {elementSize : ℕ}
    (hsize : vlMemoryPadUp (vlQueueHeaderSize + elementSize) vlDefaultMemoryAlign < 2 ^ 16) :
    (vlQueueInit totalElements elementSize : VlQueue α).Inv [] :=
  ⟨vlNodesInit_inv (Nat.add_pos_left (by decide) _) hsize, ⟨⟨0, 0⟩, trivial⟩, rfl, rfl⟩

end VeritableLasagna
