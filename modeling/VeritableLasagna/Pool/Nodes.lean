import VeritableLasagna.Pool.Table

/-!
# Pools of nodes

The queue and the deque keep their elements in **nodes**, one to a slot of a fixed pool. `VlNodes`
is a pool together with the nodes that were written to its slots. A new node is written in full, and
the write has to stay inside the block it goes to.

How large that block really is, is a matter of its own: the source computes the size of a block in
32 bits. `VlPool.blockBytes` is the element memory a block gets in this way, and `VlPool.Room` says
that the blocks a call may add all keep their size. As long as this is so, a pool keeps the
**fitting** property `VlPool.Fits`, every node is written inside its block, and the nodes of the live
indices are there and apart (`VlNodes.Inv`).
-/

namespace VeritableLasagna

/-- `sizeof(vl_pool_node)`. -/
def vlPoolNodeSize : ℕ := 32

/-! ### The size of a block -/

namespace VlPool

/-- The bytes `vl_PoolNodeNew` puts in front of the elements of a block. -/
def alignedHeaderSize (pool : VlPool) : ℕ :=
  vlMemoryPadUp vlPoolNodeSize pool.elementAlign % 2 ^ 16

/-- What `vl_PoolNodeNew` asks for, before the 32 bits of the sum are full. -/
def blockSpan (pool : VlPool) (blockSize : ℕ) : ℕ :=
  pool.alignedHeaderSize + pool.elementSize * blockSize

/-- The element memory of a block: its size is computed in 32 bits. -/
def blockBytes (pool : VlPool) (node : VlPoolNode) : ℕ :=
  pool.blockSpan node.blockSize % 2 ^ 32 - pool.alignedHeaderSize

/-- The blocks that have to be added until `n` elements are available, each twice as large as the one
before, all keep their size in 32 bits. -/
def Room (pool : VlPool) (n : ℕ) : Prop :=
  ∀ k < n, vlPoolAvailable pool + (2 ^ k - 1) * pool.growthIncrement < n →
    pool.blockSpan (2 ^ k * pool.growthIncrement) < 2 ^ 32

instance (pool : VlPool) (n : ℕ) : Decidable (pool.Room n) :=
  inferInstanceAs (Decidable (∀ k < n, _ → _))

/-- Nodes of `size` bytes **fit** the pool: a node fits its slot, every block has kept its size, and
the next block is as large as all there are. -/
structure Fits (pool : VlPool) (size : ℕ) : Prop where
  stride : size ≤ pool.elementSize
  block : ∀ {k node}, pool.lookupTable k = some node → pool.blockSpan node.blockSize < 2 ^ 32
  capacity_eq : pool.capacity = pool.growthIncrement
  growth_lt : pool.elementSize * pool.growthIncrement < 2 ^ 33

variable {pool pool' : VlPool} {live : List VlPoolIdx} {size n : ℕ} {i : VlPoolIdx}

/-- A block that kept its size holds all its slots. -/
theorem Fits.blockBytes_eq (h : pool.Fits size) {k : ℕ} {node : VlPoolNode}
    (hk : pool.lookupTable k = some node) :
    pool.blockBytes node = pool.elementSize * node.blockSize := by
  rw [blockBytes, Nat.mod_eq_of_lt (h.block hk), blockSpan, Nat.add_sub_cancel_left]

/-- There is room for the next block, if nothing is available. -/
theorem Room.next (h : pool.Room n) (hlt : vlPoolAvailable pool < n) :
    pool.blockSpan pool.growthIncrement < 2 ^ 32 := by
  have h0 := h 0 (by omega) (by rwa [Nat.pow_zero, Nat.sub_self, Nat.zero_mul, Nat.add_zero])
  rwa [Nat.pow_zero, Nat.one_mul] at h0

/-- The counters and the free stack do not matter. -/
theorem Fits.setTaken (h : pool.Fits size) {k n cap : ℕ} {node : VlPoolNode}
    {free : List VlPoolIdx} (hk : pool.lookupTable k = some node) :
    Fits { pool.setTaken k node n with freeCapacity := cap, freeStack := free } size := by
  refine ⟨h.stride, fun {j m} hm => ?_, (capacity_setTaken hk _ _ _).trans h.capacity_eq, h.growth_lt⟩
  obtain ⟨m', hm', rfl⟩ := BlockChain.lookup_update hk hm
  exact (h.block hm' :)

/-- A block that keeps its size may be added. -/
theorem Fits.newBlock (h : pool.Fits size)
    (hspan : pool.blockSpan pool.growthIncrement < 2 ^ 32) :
    (vlPoolNodeNew pool).2.Fits size := by
  have hgrow : (vlPoolNodeNew pool).2.growthIncrement = pool.growthIncrement * 2 := rfl
  refine ⟨h.stride, fun {j m} hm => ?_, ?_, ?_⟩
  · rcases BlockChain.lookup_push hm with ⟨-, rfl⟩ | ⟨-, hm⟩
    · exact hspan
    · exact h.block hm
  · rw [capacity_newBlock, h.capacity_eq, hgrow, Nat.mul_two]
  · have hstride : (vlPoolNodeNew pool).2.elementSize = pool.elementSize := rfl
    rw [blockSpan] at hspan
    rw [hgrow, hstride, ← Nat.mul_assoc]
    omega

/-- The live indices of a pool that nodes fit are few. -/
theorem Fits.length_lt (h : pool.Fits size) (hinv : pool.Inv live) :
    size * live.length < 2 ^ 33 := by
  have hle := hinv.length_le_capacity
  rw [h.capacity_eq] at hle
  exact (Nat.mul_le_mul h.stride hle).trans_lt h.growth_lt

end VlPool

section Pool

variable {pool pool' : VlPool} {live : List VlPoolIdx} {size n : ℕ} {i : VlPoolIdx}

/-- When every block is expended, nothing is available. -/
theorem vlPoolAvailable_eq_zero
    (hfull : ∀ j node, pool.lookupTable j = some node → node.blockSize ≤ node.totalTaken) :
    vlPoolAvailable pool = 0 := by
  refine List.sum_eq_zero fun a ha => ?_
  obtain ⟨j, -, rfl⟩ := List.mem_map.mp ha
  cases hj : pool.lookupTable j with
  | none => rfl
  | some node => exact Nat.sub_eq_zero_of_le (hfull j node hj)

/-- A property of pools that the operations **keep**, as long as the blocks they add keep their size. -/
structure VlPool.Kept (P : VlPool → Prop) : Prop where
  setTaken : ∀ {pool : VlPool} {k n cap node free}, P pool → pool.lookupTable k = some node →
    P { pool.setTaken k node n with freeCapacity := cap, freeStack := free }
  newBlock : ∀ {pool : VlPool}, P pool → pool.blockSpan pool.growthIncrement < 2 ^ 32 →
    P (vlPoolNodeNew pool).2
  freeStack : ∀ {pool : VlPool}, P pool → P { pool with freeStack := [] }

variable {P : VlPool → Prop}

/-- **`vlPoolTake`** keeps it, if there is room for one more. -/
theorem vlPoolTake_keeps (hP : VlPool.Kept P) (h : pool.Inv live) (hpool : P pool)
    (hroom : pool.Room 1) (hop : vlPoolTake pool = .ok (i, pool')) : P pool' := by
  rcases vlPoolTake_cases h with ⟨j, rest, node, -, hnode, hop'⟩ | ⟨k, node, -, hnode, -, -, hop'⟩ |
    ⟨-, hfull, hop'⟩ <;> obtain ⟨-, rfl⟩ := Prod.mk.inj (Except.ok.inj (hop'.symm.trans hop))
  · exact hP.setTaken hpool hnode
  · exact hP.setTaken hpool hnode
  · have hlt : vlPoolAvailable pool < 1 := by
      rw [vlPoolAvailable_eq_zero hfull]
      exact Nat.one_pos
    exact hP.setTaken (hP.newBlock hpool (hroom.next hlt)) (vlPoolNodeNew_lookup pool)

/-- **`vlPoolReturn`** keeps it. -/
theorem vlPoolReturn_keeps (hP : VlPool.Kept P) (hpool : P pool)
    (hop : vlPoolReturn pool i = .ok pool') : P pool' := by
  rw [vlPoolReturn] at hop
  cases hnode : pool.lookupTable i.nodeIndex with
  | none =>
    rw [hnode] at hop
    cases hop
  | some node =>
    rw [hnode] at hop
    obtain rfl := Except.ok.inj hop
    exact hP.setTaken hpool hnode

/-- The loop of `vlPoolReserve` keeps it, if every block it may add keeps its size. -/
theorem vlPoolReserveLoop_keeps (hP : VlPool.Kept P) :
    ∀ (fuel : ℕ) (pool : VlPool) (available : ℕ), P pool →
      (∀ k, available + (2 ^ k - 1) * pool.growthIncrement < n →
        pool.blockSpan (2 ^ k * pool.growthIncrement) < 2 ^ 32) →
      vlPoolReserveLoop n fuel pool available = .ok pool' → P pool' := by
  intro fuel
  induction fuel with
  | zero =>
    intro pool available hpool _ hop
    rw [vlPoolReserveLoop] at hop
    split_ifs at hop
    obtain rfl := Except.ok.inj hop
    exact hpool
  | succ fuel ih =>
    intro pool available hpool hroom hop
    rw [vlPoolReserveLoop] at hop
    split_ifs at hop with hlt
    · have hnew : (vlPoolNodeNew pool).2.lookupTable (vlPoolNodeNew pool).1 = _ :=
        vlPoolNodeNew_lookup pool
      dsimp only at hop
      rw [hnew, deref_some, ok_bind] at hop
      have hfirst := hroom 0 (by rwa [Nat.pow_zero, Nat.sub_self, Nat.zero_mul, Nat.add_zero])
      rw [Nat.pow_zero, Nat.one_mul] at hfirst
      refine ih _ _ (hP.newBlock hpool hfirst) (fun k hk => ?_) hop
      -- the blocks after this one are those after the first
      have hgrow : (vlPoolNodeNew pool).2.growthIncrement = pool.growthIncrement * 2 := rfl
      have hpow : 0 < 2 ^ k := Nat.two_pow_pos k
      have hsum : pool.growthIncrement + (2 ^ k - 1) * (pool.growthIncrement * 2) =
          (2 ^ (k + 1) - 1) * pool.growthIncrement := by
        obtain ⟨m, hm⟩ : ∃ m, 2 ^ k = m + 1 := ⟨2 ^ k - 1, by omega⟩
        rw [Nat.pow_succ, hm, Nat.add_sub_cancel, show (m + 1) * 2 - 1 = m * 2 + 1 by omega]
        ring
      have hsize : 2 ^ k * (pool.growthIncrement * 2) = 2 ^ (k + 1) * pool.growthIncrement := by
        rw [Nat.pow_succ]
        ring
      rw [hgrow] at hk ⊢
      rw [hsize]
      exact hroom (k + 1) (by dsimp only at hk; omega)
    · obtain rfl := Except.ok.inj hop
      exact hpool

/-- **`vlPoolReserve`** keeps it, if there is room for what is reserved. -/
theorem vlPoolReserve_keeps (hP : VlPool.Kept P) (h : pool.Inv live) (hpool : P pool)
    (hroom : pool.Room n) (hop : vlPoolReserve pool n = .ok pool') : P pool' := by
  rw [vlPoolReserve] at hop
  split_ifs at hop
  · obtain rfl := Except.ok.inj hop
    exact hpool
  · refine vlPoolReserveLoop_keeps hP n pool _ hpool (fun k hk => ?_) hop
    have hpow : k < 2 ^ k := Nat.lt_two_pow_self
    have hle : 2 ^ k - 1 ≤ (2 ^ k - 1) * pool.growthIncrement :=
      Nat.le_mul_of_pos_right _ h.growth_pos
    exact hroom k (by omega) hk

/-- **`vlPoolClear`** keeps it. -/
theorem vlPoolClear_keeps (hP : VlPool.Kept P) (hpool : P pool)
    (hop : vlPoolClear pool = .ok pool') : P pool' := by
  have hloop : ∀ (fuel : ℕ) (pool pool' : VlPool) (cur : Option ℕ), P pool →
      vlPoolClearLoop fuel pool cur = .ok pool' → P pool' := by
    intro fuel
    induction fuel with
    | zero =>
      intro pool pool' cur hpool hop
      cases cur with
      | none =>
        obtain rfl := Except.ok.inj hop
        exact hpool
      | some cur => cases hop
    | succ fuel ih =>
      intro pool pool' cur hpool hop
      cases cur with
      | none =>
        obtain rfl := Except.ok.inj hop
        exact hpool
      | some cur =>
        rw [vlPoolClearLoop] at hop
        cases hnode : pool.lookupTable cur with
        | none =>
          rw [hnode] at hop
          cases hop
        | some node =>
          rw [hnode, deref_some, ok_bind] at hop
          exact ih _ _ _ (hP.setTaken hpool hnode) hop
  obtain ⟨pool₁, hclear, hop⟩ := exists_of_bind_eq_ok hop
  obtain rfl := Except.ok.inj hop
  exact hP.freeStack (hloop _ _ _ _ hpool hclear)

/-- **The operations keep the nodes fitting.** -/
theorem fits_kept (size : ℕ) : VlPool.Kept (VlPool.Fits · size) :=
  ⟨fun h hk => h.setTaken hk, fun h hspan => h.newBlock hspan,
    fun h => ⟨h.stride, h.block, h.capacity_eq, h.growth_lt⟩⟩

end Pool

/-! ### Nodes -/

/-- A pool whose slots hold nodes. -/
structure VlNodes (ν : Type) extends VlPoolObject where
  mem : Slot → Option ν

variable {ν : Type}

namespace VlNodes

/-- The node of an index. -/
def heap (nodes : VlNodes ν) : VlPoolIdx → Option ν :=
  fun i => (vlPoolSample nodes.pool i).bind nodes.mem

/-- Read a node, which has to be there. -/
def read (nodes : VlNodes ν) (i : VlPoolIdx) : Except Fault ν := deref (nodes.heap i)

/-- Write to a node, which has to be there. -/
def write (nodes : VlNodes ν) (i : VlPoolIdx) (f : ν → ν) : Except Fault (VlNodes ν) := do
  let slot ← deref (vlPoolSample nodes.pool i)
  let node ← deref (nodes.mem slot)
  return { nodes with mem := Function.update nodes.mem slot (some (f node)) }

/-- Take a node of `size` bytes and write it in full; it may hold its own index. -/
def take (nodes : VlNodes ν) (size : ℕ) (node : VlPoolIdx → ν) :
    Except Fault (VlPoolIdx × VlNodes ν) := do
  let (i, o) ← nodes.toVlPoolObject.take
  let slot ← deref (vlPoolSample o.pool i)
  let block ← deref (o.pool.lookupTable i.nodeIndex)
  if slot.offset + size ≤ o.pool.blockBytes block then
    return (i, ⟨o, Function.update nodes.mem slot (some (node i))⟩)
  else .error .outOfBounds

/-- Return a node. -/
def ret (nodes : VlNodes ν) (i : VlPoolIdx) : Except Fault (VlNodes ν) := do
  let o ← nodes.toVlPoolObject.ret i
  return ⟨o, nodes.mem⟩

/-- Reserve `n` nodes. -/
def reserve (nodes : VlNodes ν) (n : ℕ) : Except Fault (VlNodes ν) := do
  let o ← nodes.toVlPoolObject.reserve n
  return ⟨o, nodes.mem⟩

/-- Return all nodes. -/
def clear (nodes : VlNodes ν) : Except Fault (VlNodes ν) := do
  let o ← nodes.toVlPoolObject.clear
  return ⟨o, nodes.mem⟩

/-- The **node invariant**: nodes of `size` bytes fit, and every live index has one. -/
structure Inv (nodes : VlNodes ν) (size : ℕ) (live : List VlPoolIdx) : Prop where
  pool : nodes.pool.Inv live
  table : nodes.Tabled
  fits : nodes.pool.Fits size
  size_pos : 0 < size
  held : ∀ i ∈ live, ∃ node, nodes.heap i = some node

variable {nodes nodes' : VlNodes ν} {size n : ℕ} {live : List VlPoolIdx} {i : VlPoolIdx} {f : ν → ν}

namespace Inv

theorem apart (h : nodes.Inv size live) {i j : VlPoolIdx} {p : Slot}
    (hi : vlPoolSample nodes.pool i = some p) (hj : vlPoolSample nodes.pool j = some p) : i = j :=
  h.pool.sample_inj (h.size_pos.trans_le h.fits.stride) hi hj

/-- An extension of the pool keeps the nodes of the live indices. -/
theorem heap_extends (h : nodes.Inv size live) (o : VlPoolObject)
    (hext : o.pool.Extends nodes.pool) : ∀ j ∈ live, heap ⟨o, nodes.mem⟩ j = nodes.heap j := by
  intro j hj
  obtain ⟨node, hnode⟩ := h.held j hj
  obtain ⟨p, hp, hmem⟩ := Option.bind_eq_some_iff.mp hnode
  rw [hnode]
  exact Option.bind_eq_some_iff.mpr ⟨p, hext j p hp, hmem⟩

/-- The order of the live indices does not matter. -/
theorem perm (h : nodes.Inv size live) {live' : List VlPoolIdx} (hp : live'.Perm live) :
    nodes.Inv size live' :=
  ⟨h.pool.perm hp, h.table, h.fits, h.size_pos, fun i hi => h.held i (hp.mem_iff.mp hi)⟩

theorem read_eq (h : nodes.Inv size live) (hi : i ∈ live) :
    ∃ node, nodes.heap i = some node ∧ nodes.read i = .ok node := by
  obtain ⟨node, hnode⟩ := h.held i hi
  exact ⟨node, hnode, by rw [read, hnode, deref_some]⟩

end Inv

/-- Writing to the slot of an index changes the node of that index only. -/
theorem heap_update {o : VlPoolObject} (mem : Slot → Option ν) {p : Slot} (node : ν)
    (hap : ∀ j, vlPoolSample o.pool j = some p → j = i) (hp : vlPoolSample o.pool i = some p) :
    heap ⟨o, Function.update mem p (some node)⟩ =
      Function.update (heap ⟨o, mem⟩) i (some node) := by
  funext j
  change (vlPoolSample o.pool j).bind (Function.update mem p (some node)) = _
  by_cases hj : j = i
  · rw [hj, Function.update_self, hp, Option.bind_some, Function.update_self]
  · rw [Function.update_of_ne hj]
    cases hq : vlPoolSample o.pool j with
    | none => rw [heap, hq, Option.bind_none, Option.bind_none]
    | some q =>
      have hqp : q ≠ p := by
        rintro rfl
        exact hj (hap j hq)
      rw [heap, hq, Option.bind_some, Option.bind_some, Function.update_of_ne hqp]

/-- **A node is written to**, and no other one is. -/
theorem write_spec (h : nodes.Inv size live) (hi : i ∈ live) (f : ν → ν) :
    ∃ nodes', nodes.write i f = .ok nodes' ∧ nodes'.Inv size live ∧
      nodes'.heap i = (nodes.heap i).map f ∧ ∀ j ≠ i, nodes'.heap j = nodes.heap j := by
  obtain ⟨node, hnode⟩ := h.held i hi
  obtain ⟨p, hp, hmem⟩ := Option.bind_eq_some_iff.mp hnode
  have hheap := heap_update nodes.mem (f node) (fun j hj => h.apart hj hp) hp
  have hself : heap { nodes with mem := Function.update nodes.mem p (some (f node)) } i =
      some (f node) := (congrFun hheap i).trans (Function.update_self _ _ _)
  have hother : ∀ j ≠ i, heap { nodes with mem := Function.update nodes.mem p (some (f node)) } j =
      nodes.heap j := fun j hj => (congrFun hheap j).trans (Function.update_of_ne hj _ _)
  refine ⟨{ nodes with mem := Function.update nodes.mem p (some (f node)) }, ?_,
    ⟨h.pool, h.table, h.fits, h.size_pos, fun j hj => ?_⟩, ?_, hother⟩
  · rw [write, hp, deref_some, ok_bind, hmem]
    rfl
  · by_cases hji : j = i
    · exact ⟨_, hji ▸ hself⟩
    · rw [hother j hji]
      exact h.held j hj
  · rw [hself, hnode, Option.map_some]

/-- **A node is taken**, written inside its block, and none of the others is touched. -/
theorem take_spec (h : nodes.Inv size live) (hroom : nodes.pool.Room 1) (node : VlPoolIdx → ν) :
    ∃ i nodes', nodes.take size node = .ok (i, nodes') ∧ nodes'.Inv size (i :: live) ∧
      nodes'.heap i = some (node i) ∧ ∀ j ∈ live, nodes'.heap j = nodes.heap j := by
  obtain ⟨i, o, hop, htake, htable⟩ := VlPoolObject.take_spec h.pool h.table
  obtain ⟨hinv, hext⟩ : o.pool.Inv (i :: live) ∧ o.pool.Extends nodes.pool := by
    obtain ⟨i', pool, htake', hinv, hext, -⟩ := vlPoolTake_spec h.pool
    obtain ⟨rfl, rfl⟩ := Prod.mk.inj (Except.ok.inj (htake'.symm.trans htake))
    exact ⟨hinv, hext⟩
  have hfits := vlPoolTake_keeps (fits_kept size) h.pool h.fits hroom htake
  obtain ⟨block, hblock, hlt⟩ := hinv.exists_block List.mem_cons_self
  have hsample : vlPoolSample o.pool i =
      some ⟨block.elements, i.elementIndex * o.pool.elementSize⟩ := by
    rw [vlPoolSample, hblock, Option.map_some]
  -- the whole slot of the index is inside the block
  have hinside : i.elementIndex * o.pool.elementSize + size ≤ o.pool.blockBytes block := by
    have hend : (i.elementIndex + 1) * o.pool.elementSize ≤ block.blockSize * o.pool.elementSize :=
      Nat.mul_le_mul_right _ hlt
    have hstride := hfits.stride
    rw [hfits.blockBytes_eq hblock, Nat.mul_comm o.pool.elementSize]
    rw [Nat.add_mul, Nat.one_mul] at hend
    omega
  have hpos : 0 < o.pool.elementSize := h.size_pos.trans_le hfits.stride
  have hheap := heap_update nodes.mem (node i)
    (fun j hj => hinv.sample_inj hpos hj hsample) hsample
  have hself := (congrFun hheap i).trans (Function.update_self _ _ _)
  have hother : ∀ j ∈ live, heap ⟨o, Function.update nodes.mem
      ⟨block.elements, i.elementIndex * o.pool.elementSize⟩ (some (node i))⟩ j = nodes.heap j := by
    intro j hj
    have hji : j ≠ i := ne_of_mem_of_not_mem hj (List.nodup_cons.mp hinv.live_nodup).1
    rw [hheap, Function.update_of_ne hji]
    exact h.heap_extends o hext j hj
  refine ⟨i, _, ?_, ⟨hinv, htable, hfits, h.size_pos, fun j hj => ?_⟩, hself, hother⟩
  · rw [take, hop, ok_bind]
    dsimp only
    rw [hsample, deref_some, ok_bind, hblock, deref_some, ok_bind, if_pos hinside]
    rfl
  · rcases List.mem_cons.mp hj with rfl | hj
    · exact ⟨_, hself⟩
    · rw [hother j hj]
      exact h.held j hj

/-- **A node is returned**, and the others stay as they are. -/
theorem ret_spec (h : nodes.Inv size live) (hi : i ∈ live) :
    ∃ nodes', nodes.ret i = .ok nodes' ∧ nodes'.Inv size (live.erase i) ∧
      ∀ j ∈ live, nodes'.heap j = nodes.heap j := by
  obtain ⟨pool, hret, hinv, hext, -⟩ := vlPoolReturn_spec h.pool hi
  have hkeep := h.heap_extends ⟨pool, nodes.tableSize⟩ hext
  have hfits : pool.Fits size := vlPoolReturn_keeps (fits_kept size) h.fits hret
  refine ⟨⟨⟨pool, nodes.tableSize⟩, nodes.mem⟩, by rw [ret, VlPoolObject.ret, hret]; rfl,
    ⟨hinv, VlPoolObject.ret_tabled h.table hret, hfits, h.size_pos, fun j hj => ?_⟩, hkeep⟩
  rw [hkeep j (List.mem_of_mem_erase hj)]
  exact h.held j (List.mem_of_mem_erase hj)

/-- **Nodes are reserved**, and those that are there stay as they are. -/
theorem reserve_spec (h : nodes.Inv size live) (hroom : nodes.pool.Room n) :
    ∃ nodes', nodes.reserve n = .ok nodes' ∧ nodes'.Inv size live ∧
      ∀ j ∈ live, nodes'.heap j = nodes.heap j := by
  obtain ⟨o, hop, hres, htable⟩ := VlPoolObject.reserve_spec h.pool h.table n
  obtain ⟨hinv, hext⟩ : o.pool.Inv live ∧ o.pool.Extends nodes.pool := by
    obtain ⟨pool, hres', hinv, hext⟩ := vlPoolReserve_spec h.pool n
    obtain rfl := Except.ok.inj (hres'.symm.trans hres)
    exact ⟨hinv, hext⟩
  have hkeep := h.heap_extends o hext
  refine ⟨⟨o, nodes.mem⟩, by rw [reserve, hop]; rfl,
    ⟨hinv, htable, vlPoolReserve_keeps (fits_kept size) h.pool h.fits hroom hres, h.size_pos,
      fun j hj => ?_⟩, hkeep⟩
  rw [hkeep j hj]
  exact h.held j hj

/-- **All nodes are returned.** -/
theorem clear_spec (h : nodes.Inv size live) :
    ∃ nodes', nodes.clear = .ok nodes' ∧ nodes'.Inv size [] := by
  obtain ⟨pool, hop, hinv, -⟩ := vlPoolClear_spec h.pool
  exact ⟨⟨⟨pool, nodes.tableSize⟩, nodes.mem⟩, by rw [clear, VlPoolObject.clear, hop]; rfl, hinv,
    VlPoolObject.clear_tabled h.table hop, vlPoolClear_keeps (fits_kept size) h.fits hop, h.size_pos,
    fun j hj => (by cases hj)⟩

end VlNodes

/-! ### A pool just initialised -/

/-- The nodes of a pool that `vlPoolInit` just initialised. The size of a node is passed in
16 bits. -/
def vlNodesInit (size : ℕ) : VlNodes ν :=
  ⟨.init (size % 2 ^ 16) vlDefaultMemoryAlign, fun _ => none⟩

section Init

variable {size : ℕ}

theorem vlNodesInit_elementSize :
    (vlNodesInit size : VlNodes ν).pool.elementSize =
      vlMemoryPadUp (size % 2 ^ 16) vlDefaultMemoryAlign % 2 ^ 16 := rfl

theorem vlNodesInit_header : (vlNodesInit size : VlNodes ν).pool.alignedHeaderSize = 32 := by
  have halign : (vlNodesInit size : VlNodes ν).pool.elementAlign = vlDefaultMemoryAlign := rfl
  rw [VlPool.alignedHeaderSize, halign]
  decide

/-- The nodes fit, if a padded node keeps its size in 16 bits. -/
theorem vlNodesInit_inv (hpos : 0 < size)
    (hsize : vlMemoryPadUp size vlDefaultMemoryAlign < 2 ^ 16) :
    (vlNodesInit size : VlNodes ν).Inv size [] := by
  have hle : size ≤ vlMemoryPadUp size vlDefaultMemoryAlign := by
    simp only [vlMemoryPadUp, vlDefaultMemoryAlign]
    omega
  have hstride : (vlNodesInit size : VlNodes ν).pool.elementSize =
      vlMemoryPadUp size vlDefaultMemoryAlign := by
    rw [vlNodesInit_elementSize, Nat.mod_eq_of_lt (hle.trans_lt hsize), Nat.mod_eq_of_lt hsize]
  refine ⟨vlPoolInitAligned_inv _ _, VlPoolObject.init_tabled _ _,
    ⟨hle.trans hstride.ge, fun {k node} hk => ?_, rfl, ?_⟩, hpos, fun i hi => (by cases hi)⟩
  · have hblock : node.blockSize = vlPoolDefaultSize := by
      rcases BlockChain.lookup_push hk with ⟨-, rfl⟩ | ⟨-, hk⟩
      · rfl
      · cases hk
    rw [VlPool.blockSpan, hstride, hblock, vlNodesInit_header, vlPoolDefaultSize]
    omega
  · have hgrow : (vlNodesInit size : VlNodes ν).pool.growthIncrement = vlPoolDefaultSize := rfl
    rw [hstride, hgrow, vlPoolDefaultSize]
    omega

/-- There is room for the first node: the first block is there. -/
theorem vlNodesInit_room : (vlNodesInit size : VlNodes ν).pool.Room 1 := by
  intro k hk havail
  obtain rfl := Nat.lt_one_iff.mp hk
  have hsome : 0 < vlPoolAvailable (vlNodesInit size : VlNodes ν).pool := Nat.zero_lt_succ 15
  omega

/-- If a padded node does not keep its size, it does not fit into the first block. -/
theorem vlNodesInit_take (hle : size < 2 ^ 16 + 16)
    (hsize : 2 ^ 16 ≤ vlMemoryPadUp size vlDefaultMemoryAlign) (node : VlPoolIdx → ν) :
    (vlNodesInit size).take size node = .error .outOfBounds := by
  have hstride : (vlNodesInit size : VlNodes ν).pool.elementSize ≤ 16 := by
    rw [vlNodesInit_elementSize]
    simp only [vlMemoryPadUp, vlDefaultMemoryAlign] at hsize ⊢
    omega
  have hbig : 65528 < size := by
    simp only [vlMemoryPadUp, vlDefaultMemoryAlign] at hsize
    omega
  have htake : (vlNodesInit size).take size node =
      if 0 * (vlNodesInit size : VlNodes ν).pool.elementSize + size ≤
        ((vlNodesInit size : VlNodes ν).pool.alignedHeaderSize +
          (vlNodesInit size : VlNodes ν).pool.elementSize * vlPoolDefaultSize) % 2 ^ 32 -
            (vlNodesInit size : VlNodes ν).pool.alignedHeaderSize
      then _ else .error .outOfBounds := rfl
  rw [htake, vlNodesInit_header, vlPoolDefaultSize, if_neg]
  omega

end Init

end VeritableLasagna
