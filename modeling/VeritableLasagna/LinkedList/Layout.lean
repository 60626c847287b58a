import VeritableLasagna.LinkedList.Basic
import VeritableLasagna.Pool.Runs

/-!
# The list invariant

`VlLinkedList.Inv list l` says that the nodes of a list are linked as the sequence of entries `l`,
and that the live indices of the pool are their iterators. The mutators of `vl_linked_list` put in
one entry or take one out: `VlLinkedList.Inv.insert` and `VlLinkedList.Inv.remove` are the two
surgeries, for every place in the sequence and whatever is done about the counter.
-/

namespace VeritableLasagna

variable {α : Type} {list : VlLinkedList α} {l l₁ l₂ : List (VlPoolIdx × α)} {e : VlPoolIdx × α}
  {i : VlPoolIdx} {o left right : Option VlPoolIdx} {n : VlLinkedListNode α}
  {f : VlLinkedListNode α → VlLinkedListNode α}

/-- The **list invariant**. -/
structure VlLinkedList.Inv (list : VlLinkedList α) (l : List (VlPoolIdx × α)) : Prop where
  pool : list.nodePool.Inv (l.map Prod.fst)
  stride : vlLinkedListNodeSize + list.elementSize ≤ list.nodePool.elementSize
  linked : Segment list.heap none l none
  head_eq : list.head = headIter l none
  tail_eq : list.tail = tailIter none l

namespace VlLinkedList

/-- The pool gives no slot to two indices. -/
def Apart (list : VlLinkedList α) : Prop :=
  ∀ i j p, vlPoolSample list.nodePool i = some p → vlPoolSample list.nodePool j = some p → i = j

/-! ### Access to nodes -/

theorem node_some (h : list.heap i = some n) : list.node (some i) = .ok n := by
  rw [node, deref_some, ok_bind, h, deref_some]

/-- Writing to the slot of an iterator changes the node of that iterator only. -/
theorem heap_update {p : Slot} (hap : list.Apart) (hp : vlPoolSample list.nodePool i = some p)
    (m : VlLinkedListNode α) :
    heap { list with mem := Function.update list.mem p (some m) } =
      Function.update list.heap i (some m) := by
  funext j
  change (vlPoolSample list.nodePool j).bind (Function.update list.mem p (some m)) = _
  by_cases hj : j = i
  · rw [hj, Function.update_self, hp, Option.bind_some, Function.update_self]
  · rw [Function.update_of_ne hj]
    cases hq : vlPoolSample list.nodePool j with
    | none => rw [heap, hq, Option.bind_none, Option.bind_none]
    | some q =>
      have hqp : q ≠ p := by
        rintro rfl
        exact hj (hap j i q hq hp)
      rw [heap, hq, Option.bind_some, Option.bind_some, Function.update_of_ne hqp]

theorem modify_spec (hap : list.Apart) (hi : list.heap i = some n)
    (f : VlLinkedListNode α → VlLinkedListNode α) :
    ∃ mem, list.modify (some i) f = .ok { list with mem } ∧
      heap { list with mem } = list.heap.modify (some i) f := by
  obtain ⟨p, hp, hmem⟩ := Option.bind_eq_some_iff.mp hi
  refine ⟨Function.update list.mem p (some (f n)), ?_, ?_⟩
  · rw [modify, deref_some, ok_bind, hp, deref_some, ok_bind, hmem]
    rfl
  · rw [heap_update hap hp]
    funext j
    by_cases hj : j = i
    · rw [hj, Function.update_self, ListHeap.modify_self, hi, Option.map_some]
    · rw [Function.update_of_ne hj, ListHeap.modify_of_ne (by simpa using Ne.symm hj)]

theorem modifyValid_spec (hap : list.Apart) (ho : ∀ i, o = some i → ∃ n, list.heap i = some n)
    (f : VlLinkedListNode α → VlLinkedListNode α) :
    ∃ mem, list.modifyValid o f = .ok { list with mem } ∧
      heap { list with mem } = list.heap.modify o f := by
  cases o with
  | none => exact ⟨list.mem, rfl, ListHeap.modify_none.symm⟩
  | some i =>
    obtain ⟨n, hn⟩ := ho i rfl
    exact modify_spec hap hn f

/-- The two writes of a mutator, to the nodes on both sides of a place. -/
def relink (list : VlLinkedList α) (left right next prev : Option VlPoolIdx) :
    Except Fault (VlLinkedList α) := do
  let list ← list.modifyValid left (·.setNext next)
  list.modifyValid right (·.setPrev prev)

theorem relink_spec (hap : list.Apart) (hleft : ∀ i, left = some i → ∃ n, list.heap i = some n)
    (hright : ∀ i, right = some i → ∃ n, list.heap i = some n) (next prev : Option VlPoolIdx) :
    ∃ mem, list.relink left right next prev = .ok { list with mem } ∧
      heap { list with mem } =
        (list.heap.modify left (·.setNext next)).modify right (·.setPrev prev) := by
  obtain ⟨mem₁, hop₁, hheap₁⟩ := modifyValid_spec hap hleft (·.setNext next)
  have hright₁ : ∀ i, right = some i → ∃ n, heap { list with mem := mem₁ } i = some n := by
    intro i hi
    obtain ⟨n, hn⟩ := hright i hi
    rw [hheap₁, ListHeap.modify]
    split_ifs
    · exact ⟨_, by rw [hn]; rfl⟩
    · exact ⟨n, hn⟩
  have hap₁ : Apart { list with mem := mem₁ } := hap
  obtain ⟨mem₂, hop₂, hheap₂⟩ := modifyValid_spec hap₁ hright₁ (·.setPrev prev)
  refine ⟨mem₂, ?_, ?_⟩
  · rw [relink, hop₁, ok_bind, hop₂]
  · rw [← hheap₁]
    exact hheap₂

/-! ### The invariant -/

theorem Inv.apart (h : list.Inv l) : list.Apart := by
  have hstride := h.stride
  rw [vlLinkedListNodeSize] at hstride
  exact fun _ _ _ => h.pool.sample_inj (by omega)

theorem Inv.nodup (h : list.Inv l) : (l.map Prod.fst).Nodup := h.pool.live_nodup

/-- The node of an entry. -/
theorem Inv.node_eq (h : list.Inv (l₁ ++ e :: l₂)) :
    list.heap e.1 = some ⟨tailIter none l₁, headIter l₂ none, e.2⟩ := h.linked.node

theorem Inv.exists_node (h : list.Inv l) (hi : i ∈ l.map Prod.fst) :
    ∃ n, list.heap i = some n := by
  obtain ⟨e, he, rfl⟩ := List.mem_map.mp hi
  obtain ⟨l₁, l₂, rfl⟩ := List.append_of_mem he
  exact ⟨_, h.node_eq⟩

/-- The entries on both sides of a place have nodes. -/
theorem Inv.exists_ends (h : list.Inv (l₁ ++ l₂)) :
    (∀ i, tailIter none l₁ = some i → ∃ n, list.heap i = some n) ∧
      ∀ i, headIter l₂ none = some i → ∃ n, list.heap i = some n := by
  constructor
  · intro i hi
    refine h.exists_node ?_
    rw [List.map_append]
    exact List.mem_append_left _ (mem_of_tailIter hi)
  · intro i hi
    refine h.exists_node ?_
    rw [List.map_append]
    exact List.mem_append_right _ (mem_of_headIter hi)

/-- The head and the tail are the same exactly when there is at most one entry. -/
theorem Inv.head_eq_tail_iff (h : list.Inv (e :: l)) : list.head = list.tail ↔ l = [] := by
  rw [h.head_eq, h.tail_eq]
  exact headIter_eq_tailIter_iff h.nodup

/-- **A node is taken**, written inside its block, and none of the others is touched. -/
theorem Inv.newNode (h : list.Inv l) (node : VlLinkedListNode α) :
    ∃ i nodePool mem, list.newNode node = .ok (i, { list with nodePool, mem }) ∧
      nodePool.Inv (i :: l.map Prod.fst) ∧
      nodePool.elementSize = list.nodePool.elementSize ∧
      heap { list with nodePool, mem } i = some node ∧
      ∀ j ∈ l.map Prod.fst, heap { list with nodePool, mem } j = list.heap j := by
  obtain ⟨i, nodePool, htake, hinv, hext, hsize⟩ := vlPoolTake_spec h.pool
  have hstride := h.stride
  rw [← hsize] at hstride
  have hapart : Apart { list with nodePool } := by
    rw [vlLinkedListNodeSize] at hstride
    exact fun _ _ _ => hinv.sample_inj (by omega)
  obtain ⟨block, hblock, hlt⟩ := hinv.exists_block List.mem_cons_self
  have hsample : vlPoolSample nodePool i =
      some ⟨block.elements, i.elementIndex * nodePool.elementSize⟩ := by
    rw [vlPoolSample, hblock, Option.map_some]
  -- the whole stride of the index is inside the block
  have hinside : i.elementIndex * nodePool.elementSize + vlLinkedListNodeSize + list.elementSize ≤
      block.blockSize * nodePool.elementSize := by
    have hend : (i.elementIndex + 1) * nodePool.elementSize ≤
        block.blockSize * nodePool.elementSize := Nat.mul_le_mul_right _ hlt
    rw [Nat.add_mul, Nat.one_mul] at hend
    omega
  have hheap := heap_update hapart hsample node
  refine ⟨i, nodePool, Function.update list.mem
    ⟨block.elements, i.elementIndex * nodePool.elementSize⟩ (some node), ?_, hinv, hsize, ?_,
    fun j hj => ?_⟩
  · rw [VlLinkedList.newNode, htake, ok_bind]
    dsimp only
    rw [hsample, deref_some, ok_bind, hblock, deref_some, ok_bind, if_pos hinside]
    rfl
  · exact (congrFun hheap i).trans (Function.update_self _ _ _)
  · have hji : j ≠ i := ne_of_mem_of_not_mem hj (List.nodup_cons.mp hinv.live_nodup).1
    refine (congrFun hheap j).trans ((Function.update_of_ne hji _ _).trans ?_)
    obtain ⟨n, hn⟩ := h.exists_node hj
    obtain ⟨p, hp, hmem⟩ := Option.bind_eq_some_iff.mp hn
    rw [hn]
    exact Option.bind_eq_some_iff.mpr ⟨p, hext j p hp, hmem⟩

/-- **An entry is put in** at any place: a node is taken and linked to its neighbours, and what is
left is to set the ends of the list. -/
theorem Inv.insert (h : list.Inv (l₁ ++ l₂)) (elem : α) :
    ∃ i nodePool mem mem',
      list.newNode ⟨tailIter none l₁, headIter l₂ none, elem⟩ =
        .ok (i, { list with nodePool, mem }) ∧
      relink { list with nodePool, mem } (tailIter none l₁) (headIter l₂ none) (some i) (some i) =
        .ok { list with nodePool, mem := mem' } ∧
      ∀ n, Inv { list with
          nodePool
          mem := mem'
          head := headIter (l₁ ++ (i, elem) :: l₂) none
          tail := tailIter none (l₁ ++ (i, elem) :: l₂)
          length := n } (l₁ ++ (i, elem) :: l₂) := by
  obtain ⟨i, nodePool, mem, hnew, hinv, hsize, hnode, hold⟩ :=
    h.newNode ⟨tailIter none l₁, headIter l₂ none, elem⟩
  have hstride := h.stride
  rw [← hsize] at hstride
  have hapart : Apart { list with nodePool, mem } := by
    rw [vlLinkedListNodeSize] at hstride
    exact fun _ _ _ => hinv.sample_inj (by omega)
  have hends := h.exists_ends
  have hkept : ∀ j ∈ (l₁ ++ l₂).map Prod.fst,
      (∃ n, list.heap j = some n) → ∃ n, heap { list with nodePool, mem } j = some n := by
    intro j hj ⟨n, hn⟩
    exact ⟨n, (hold j hj).trans hn⟩
  obtain ⟨mem', hlink, hheap⟩ := relink_spec hapart
    (fun j hj => hkept j (by rw [List.map_append]; exact List.mem_append_left _ (mem_of_tailIter hj))
      (hends.1 j hj))
    (fun j hj => hkept j
      (by rw [List.map_append]; exact List.mem_append_right _ (mem_of_headIter hj))
      (hends.2 j hj)) (some i) (some i)
  refine ⟨i, nodePool, mem, mem', hnew, hlink, fun n => ⟨hinv.perm ?_, hstride, ?_, rfl, rfl⟩⟩
  · rw [List.map_append, List.map_append, List.map_cons]
    exact List.perm_middle
  · have hseg : Segment (heap { list with nodePool, mem }) none (l₁ ++ l₂) none :=
      h.linked.congr hold
    have hput := hseg.insert hinv.live_nodup hnode
    rw [← hheap] at hput
    exact hput

/-- **An entry is taken out** from any place: its neighbours are linked, its index is returned, and
what is left is to set the ends of the list. -/
theorem Inv.remove (h : list.Inv (l₁ ++ e :: l₂)) :
    ∃ nodePool mem,
      list.relink (tailIter none l₁) (headIter l₂ none) (headIter l₂ none) (tailIter none l₁) =
        .ok { list with mem } ∧
      vlPoolReturn list.nodePool e.1 = .ok nodePool ∧
      ∀ n, Inv { list with
          nodePool
          mem
          head := headIter (l₁ ++ l₂) none
          tail := tailIter none (l₁ ++ l₂)
          length := n } (l₁ ++ l₂) := by
  have hsub : (l₁ ++ l₂).map Prod.fst ⊆ (l₁ ++ e :: l₂).map Prod.fst :=
    (((List.sublist_cons_self e l₂).append_left l₁).map _).subset
  have hmem : e.1 ∈ (l₁ ++ e :: l₂).map Prod.fst :=
    List.mem_map_of_mem (List.mem_append_right _ List.mem_cons_self)
  obtain ⟨mem, hlink, hheap⟩ := relink_spec h.apart
    (fun j hj => h.exists_node (hsub (by
      rw [List.map_append]; exact List.mem_append_left _ (mem_of_tailIter hj))))
    (fun j hj => h.exists_node (hsub (by
      rw [List.map_append]; exact List.mem_append_right _ (mem_of_headIter hj))))
    (headIter l₂ none) (tailIter none l₁)
  obtain ⟨nodePool, hret, hinv, hext, hsize⟩ := vlPoolReturn_spec h.pool hmem
  have hlive : ((l₁ ++ l₂).map Prod.fst).Perm (((l₁ ++ e :: l₂).map Prod.fst).erase e.1) := by
    have hperm : ((l₁ ++ e :: l₂).map Prod.fst).Perm (e.1 :: (l₁ ++ l₂).map Prod.fst) := by
      rw [List.map_append, List.map_append, List.map_cons]
      exact List.perm_middle
    have herase := hperm.erase e.1
    rw [List.erase_cons_head] at herase
    exact herase.symm
  refine ⟨nodePool, mem, hlink, hret, fun n => ⟨hinv.perm hlive, ?_, ?_, rfl, rfl⟩⟩
  · exact h.stride.trans hsize.ge
  · have hout := h.linked.remove h.nodup
    rw [← hheap] at hout
    refine hout.congr fun j hj => ?_
    obtain ⟨e', he', rfl⟩ := List.mem_map.mp hj
    obtain ⟨k₁, k₂, hk⟩ := List.append_of_mem he'
    rw [hk] at hout
    obtain ⟨p, hp, hmem⟩ := Option.bind_eq_some_iff.mp hout.node
    rw [hout.node]
    exact Option.bind_eq_some_iff.mpr ⟨p, hext _ p hp, hmem⟩

end VlLinkedList

end VeritableLasagna
