import VeritableLasagna.Lib.Simulation
import VeritableLasagna.Pool.Nodes

/-!
# Cloning a pool

`vlPoolClone` copies a pool into a new one or over another one. The pools of a program share one heap
(`PoolHeap`), which hands out a number for every block, so that a block of one pool may be told from a
block of another; memory that was handed out but not written holds `none`.

A clone is **independent** (`ClonesIndependently`) if every live index denotes the same contents in a
block that the clone allocated itself, and if the two pools, whatever is called on either, answer like
two pools in heaps of their own, each of them the original. Two pools that answer alike are **mirrors**
of each other (`PoolSite.Mirrors`): they agree in all but the numbers of their blocks.

The one thing `vlPoolClone` does not copy is the allocation of the lookup table: it compares the two
capacities after it made them equal. `vlPoolClone_independent_iff` says what follows: the clone is
independent exactly when the table of the destination is as large as that of the source already.
-/

namespace VeritableLasagna

variable {ν : Type}

/-! ### Pools in a heap -/

/-- The memory of all blocks, and the number of the next one. -/
structure PoolHeap (ν : Type) where
  mem : Slot → Option ν
  allocated : ℕ

/-- Blocks not handed out hold nothing. -/
def PoolHeap.Fresh (heap : PoolHeap ν) : Prop :=
  ∀ b offset, heap.allocated ≤ b → heap.mem ⟨b, offset⟩ = none

/-- The blocks of a pool, numbered from `base` on. -/
def VlPool.rebase (pool : VlPool) (base : ℕ) : VlPool :=
  { pool with
    lookupTable := fun k => (pool.lookupTable k).map fun node =>
      { node with elements := base + node.elements }
    allocated := base + pool.allocated }

/-- `vlPoolNewAligned`. -/
def vlPoolNewAligned (elementSize alignment : ℕ) (heap : PoolHeap ν) :
    VlPoolObject × PoolHeap ν :=
  let o := VlPoolObject.init elementSize alignment
  let pool := o.pool.rebase heap.allocated
  ({ o with pool }, { heap with allocated := pool.allocated })

/-- The loop of `vlPoolClone` over the blocks from `i` on: a block found in the table of the
destination is freed, and a copy of the source's takes its place. -/
def vlPoolCloneLoop (src : VlPool) :
    ℕ → ℕ → VlPoolObject → PoolHeap ν → Except Fault (VlPoolObject × PoolHeap ν)
  | 0, _, dest, heap => .ok (dest, heap)
  | n + 1, i, dest, heap => do
    let srcNode ← deref (src.lookupTable i)
    if i < dest.tableSize ∧ srcNode.blockOrdinal < dest.tableSize then
      -- `vlMemClone` of the block
      let destNode :=
        { srcNode with elements := heap.allocated, nextLookup := dest.pool.lookupHead }
      let mem : Slot → Option ν := fun slot =>
        if slot.block = heap.allocated then heap.mem ⟨srcNode.elements, slot.offset⟩
        else heap.mem slot
      let pool := { dest.pool with
        lookupTable := Function.update dest.pool.lookupTable destNode.blockOrdinal (some destNode)
        lookupHead := some destNode.blockOrdinal
        allocated := heap.allocated + 1 }
      vlPoolCloneLoop src n (i + 1) { dest with pool } ⟨mem, heap.allocated + 1⟩
    else .error .outOfBounds

/-- `vlPoolClone`. The capacity of the table is copied before it is compared. -/
def vlPoolClone (src : VlPool) (dest : Option VlPoolObject) (heap : PoolHeap ν) :
    Except Fault (VlPoolObject × PoolHeap ν) := do
  let (dest, heap) ← match dest with
    | none => .ok (vlPoolNewAligned src.elementSize src.elementAlign heap)
    | some dest => dest.reset.map fun dest => (dest, heap)
  let pool := { dest.pool with
    growthIncrement := src.growthIncrement
    elementSize := src.elementSize
    elementAlign := src.elementAlign
    lookupTotal := src.lookupTotal
    lookupCapacity := src.lookupCapacity }
  let tableSize :=
    if pool.lookupCapacity < src.lookupCapacity then src.lookupCapacity else dest.tableSize
  let pool := { pool with
    freeCapacity := if pool.freeCapacity < src.freeCapacity then src.freeCapacity
      else pool.freeCapacity
    freeStack := src.freeStack
    lookupHead := none }
  let head ← deref src.lookupHead
  let last ← deref (src.lookupTable head)
  vlPoolCloneLoop src (last.blockOrdinal + 1) 0 ⟨pool, tableSize⟩ heap

/-- `vlPoolClone` of a pool and its nodes into another one. -/
def VlNodes.clone (src dest : VlNodes ν) : Except Fault (VlNodes ν) := do
  let (copy, heap) ← vlPoolClone src.pool (some dest.toVlPoolObject) ⟨src.mem, src.pool.allocated⟩
  return ⟨copy, heap.mem⟩

/-- The entries allocated for the table of a destination: a new pool has the default. -/
def vlPoolTableSize (dest : Option VlPoolObject) : ℕ :=
  dest.elim vlPoolDefaultSize VlPoolObject.tableSize

/-! ### Calls -/

/-- What a program does with a pool: it takes and returns indices, and accesses their elements. -/
inductive VlPoolCall (ν : Type)
  | take
  | ret (idx : VlPoolIdx)
  | write (idx : VlPoolIdx) (element : ν)
  | read (idx : VlPoolIdx)

/-- What a call returns. -/
inductive VlPoolResult (ν : Type)
  | index (idx : VlPoolIdx)
  | done
  | element (contents : Option ν)

/-- A pool and its live indices. -/
structure PoolSite where
  object : VlPoolObject
  live : List VlPoolIdx

/-- Only live indices are returned or accessed. -/
def VlPoolCall.Allowed (s : PoolSite) : VlPoolCall ν → Prop
  | .take => True
  | .ret idx | .write idx _ | .read idx => idx ∈ s.live

/-- A call on a pool of a heap. -/
def vlPoolCall (s : PoolSite) (heap : PoolHeap ν) :
    VlPoolCall ν → Except Fault (VlPoolResult ν × PoolSite × PoolHeap ν)
  | .take => do
    let pool := { s.object.pool with allocated := heap.allocated }
    let (i, o) ← VlPoolObject.take { s.object with pool }
    return (.index i, ⟨o, i :: s.live⟩, { heap with allocated := o.pool.allocated })
  | .ret idx => do
    let o ← s.object.ret idx
    return (.done, ⟨o, s.live.erase idx⟩, heap)
  | .write idx element => do
    let slot ← deref (vlPoolSample s.object.pool idx)
    return (.done, s, { heap with mem := Function.update heap.mem slot (some element) })
  | .read idx => do
    let slot ← deref (vlPoolSample s.object.pool idx)
    return (.element (heap.mem slot), s, heap)

/-- A pool in a heap of its own. -/
def soloPool (ν : Type) : Component (PoolSite × PoolHeap ν) (VlPoolCall ν) (VlPoolResult ν) where
  guard s o := o.Allowed s.1
  call s o := do
    let (r, site, heap) ← vlPoolCall s.1 s.2 o
    return (r, (site, heap))

/-- Two pools in one heap, with calls on either. -/
def poolPair (ν : Type) :
    Component (PoolSite × PoolSite × PoolHeap ν) (VlPoolCall ν ⊕ VlPoolCall ν) (VlPoolResult ν) where
  guard s
    | .inl o => o.Allowed s.1
    | .inr o => o.Allowed s.2.1
  call s
    | .inl o => do
      let (r, site, heap) ← vlPoolCall s.1 s.2.2 o
      return (r, (site, s.2.1, heap))
    | .inr o => do
      let (r, site, heap) ← vlPoolCall s.2.1 s.2.2 o
      return (r, (s.1, site, heap))

/-- **An independent copy**: the clone returns, no store of it is beyond the table; every live index
denotes the contents it has in the source, in a block that the clone allocated; and from then on the
two pools answer every sequence of calls like two pools that have nothing to do with each other, both
of them the source. -/
def ClonesIndependently (src : PoolSite) (dest : Option VlPoolObject) (heap : PoolHeap ν) : Prop :=
  ∃ copy heap', vlPoolClone src.object.pool dest heap = .ok (copy, heap') ∧
    (∀ i ∈ src.live, ∃ p q, vlPoolSample src.object.pool i = some p ∧
      vlPoolSample copy.pool i = some q ∧ heap'.mem q = heap.mem p ∧ heap.allocated ≤ q.block) ∧
    (poolPair ν).Refines ((soloPool ν).both (soloPool ν)) (src, ⟨copy, src.live⟩, heap')
      ((src, heap), (src, heap))

/-! ### Reachable pools -/

/-- An operation on a pool and its table, with the bookkeeping of the live indices. -/
def vlPoolSiteStep (s : PoolSite) : VlPoolOp → Except Fault PoolSite
  | .take => do
    let (i, o) ← s.object.take
    return ⟨o, i :: s.live⟩
  | .ret i => do
    let o ← s.object.ret i
    return ⟨o, s.live.erase i⟩
  | .reserve n => do
    let o ← s.object.reserve n
    return ⟨o, s.live⟩
  | .clear => do
    let o ← s.object.clear
    return ⟨o, []⟩
  | .reset => do
    let o ← s.object.reset
    return ⟨o, []⟩

/-- The pools a program can have: initialised, after operations on live indices, and clones into a
table that is large enough. -/
inductive PoolSite.Reachable : PoolSite → Prop
  | init (elementSize alignment : ℕ) : Reachable ⟨.init elementSize alignment, []⟩
  | step {s s' : PoolSite} {o : VlPoolOp} : Reachable s →
      poolMachine.guard ⟨s.object.pool, s.live⟩ o → vlPoolSiteStep s o = .ok s' → Reachable s'
  | clone {ν : Type} {src : PoolSite} {copy : VlPoolObject} {heap heap' : PoolHeap ν} :
      Reachable src → src.object.pool.allocated ≤ heap.allocated →
      src.object.pool.lookupCapacity ≤ vlPoolTableSize none →
      vlPoolClone src.object.pool none heap = .ok (copy, heap') → Reachable ⟨copy, src.live⟩
  | cloneInto {ν : Type} {src dest : PoolSite} {copy : VlPoolObject} {heap heap' : PoolHeap ν} :
      Reachable src → Reachable dest → src.object.pool.allocated ≤ heap.allocated →
      src.object.pool.lookupCapacity ≤ vlPoolTableSize (some dest.object) →
      vlPoolClone src.object.pool (some dest.object) heap = .ok (copy, heap') →
      Reachable ⟨copy, src.live⟩

/-! ### Mirrors -/

/-- Two pools agree in all but the numbers of their blocks, and their blocks hold the same. -/
structure VlPool.Alike (p q : VlPool) (mem mem' : Slot → Option ν) : Prop where
  size_eq : p.elementSize = q.elementSize
  growth_eq : p.growthIncrement = q.growthIncrement
  total_eq : p.lookupTotal = q.lookupTotal
  free_eq : p.freeStack = q.freeStack
  block : ∀ {k node node'}, p.lookupTable k = some node → q.lookupTable k = some node' →
    node.totalTaken = node'.totalTaken ∧ node.blockSize = node'.blockSize ∧
      ∀ offset, mem ⟨node.elements, offset⟩ = mem' ⟨node'.elements, offset⟩

/-- The block is one of the pool. -/
def VlPool.Owns (pool : VlPool) (b : ℕ) : Prop :=
  ∃ k node, pool.lookupTable k = some node ∧ node.elements = b

/-- **Mirrors**: two pools in heaps, alike, with the same live indices, and both in order. -/
structure PoolSite.Mirrors (s : PoolSite) (heap : PoolHeap ν) (t : PoolSite) (heap' : PoolHeap ν) :
    Prop where
  live_eq : s.live = t.live
  inv : s.object.pool.Inv s.live
  inv' : t.object.pool.Inv t.live
  tabled : s.object.Tabled
  tabled' : t.object.Tabled
  allocated_le : s.object.pool.allocated ≤ heap.allocated
  allocated_le' : t.object.pool.allocated ≤ heap'.allocated
  fresh : heap.Fresh
  fresh' : heap'.Fresh
  alike : s.object.pool.Alike t.object.pool heap.mem heap'.mem

section Alike

variable {p q : VlPool} {mem mem' : Slot → Option ν} {k n a b : ℕ} {node node' : VlPoolNode}
  {live : List VlPoolIdx} {free : List VlPoolIdx} {i : VlPoolIdx}

namespace VlPool

/-- A larger number for the next block. -/
theorem Inv.allocate (h : p.Inv live) (hle : p.allocated ≤ a) :
    Inv { p with allocated := a } live :=
  ⟨⟨h.chain.total_pos, h.chain.block, h.chain.vacant, h.chain.ordinal, h.chain.next,
    h.chain.size_pos, fun hk => (h.chain.elements_lt hk).trans_le hle, h.chain.elements_inj⟩,
    h.head_eq, h.growth_pos, h.taken, h.handed_le, h.nodup, h.mem_iff⟩

/-- A number not yet used is not that of a block. -/
theorem Inv.owns_lt (h : p.Inv live) (hown : p.Owns b) : b < p.allocated := by
  obtain ⟨k, node, hk, rfl⟩ := hown
  exact h.chain.elements_lt hk

/-- The block of a slot. -/
theorem owns_of_sample {slot : Slot} (h : vlPoolSample p i = some slot) : p.Owns slot.block := by
  obtain ⟨node, hnode, rfl⟩ := Option.map_eq_some_iff.mp h
  exact ⟨_, node, hnode, rfl⟩

/-- The counter of a block changes alike. -/
theorem Alike.setTaken (h : p.Alike q mem mem') (hk : p.lookupTable k = some node)
    (hk' : q.lookupTable k = some node') (n : ℕ) :
    (p.setTaken k node n).Alike (q.setTaken k node' n) mem mem' := by
  refine ⟨h.size_eq, h.growth_eq, h.total_eq, h.free_eq, fun {j m m'} hm hm' => ?_⟩
  obtain ⟨m₀, hm₀, rfl⟩ := BlockChain.lookup_update hk hm
  obtain ⟨m₁, hm₁, rfl⟩ := BlockChain.lookup_update hk' hm'
  obtain ⟨htaken, hsize, hmem⟩ := h.block hm₀ hm₁
  refine ⟨?_, hsize, hmem⟩
  simp only [htaken]

/-- The free stack changes alike. -/
theorem Alike.setFree (h : p.Alike q mem mem') (cap cap' : ℕ) (free : List VlPoolIdx) :
    Alike { p with freeCapacity := cap, freeStack := free }
      { q with freeCapacity := cap', freeStack := free } mem mem' :=
  ⟨h.size_eq, h.growth_eq, h.total_eq, rfl, h.block⟩

/-- New blocks of the same size hold nothing yet. -/
theorem Alike.newBlock (h : p.Alike q mem mem')
    (hmem : ∀ offset, mem ⟨p.allocated, offset⟩ = mem' ⟨q.allocated, offset⟩) :
    Alike (vlPoolNodeNew p).2 (vlPoolNodeNew q).2 mem mem' := by
  have hgrow : ∀ r : VlPool, (vlPoolNodeNew r).2.growthIncrement = r.growthIncrement * 2 :=
    fun r => rfl
  have htotal : ∀ r : VlPool, (vlPoolNodeNew r).2.lookupTotal = r.lookupTotal + 1 := fun r => rfl
  refine ⟨h.size_eq, ?_, ?_, h.free_eq, fun {j m m'} hm hm' => ?_⟩
  · rw [hgrow, hgrow, h.growth_eq]
  · rw [htotal, htotal, h.total_eq]
  · rcases BlockChain.lookup_push hm with ⟨hj, rfl⟩ | ⟨hj, hm⟩ <;>
      rcases BlockChain.lookup_push hm' with ⟨hj', rfl⟩ | ⟨hj', hm'⟩
    · exact ⟨rfl, h.growth_eq, hmem⟩
    · exact absurd (hj.trans h.total_eq) hj'
    · exact absurd (hj'.trans h.total_eq.symm) hj
    · exact h.block hm hm'

/-- Both pools have the block. -/
theorem Alike.exists_block (h : p.Alike q mem mem') (hq : q.Inv live)
    (hp : p.Inv live) (hk : p.lookupTable k = some node) : ∃ node', q.lookupTable k = some node' := by
  refine hq.chain.block k ?_
  rw [← h.total_eq]
  exact hp.chain.lt_total hk

/-- A slot is the same place of the same block in both pools. -/
theorem Alike.sample (h : p.Alike q mem mem') (hp : p.Inv live) (hq : q.Inv live) (hi : i ∈ live) :
    ∃ node node', p.lookupTable i.nodeIndex = some node ∧ q.lookupTable i.nodeIndex = some node' ∧
      vlPoolSample p i = some ⟨node.elements, i.elementIndex * p.elementSize⟩ ∧
      vlPoolSample q i = some ⟨node'.elements, i.elementIndex * p.elementSize⟩ := by
  obtain ⟨node, hnode, -⟩ := hp.exists_block hi
  obtain ⟨node', hnode', -⟩ := hq.exists_block hi
  refine ⟨node, node', hnode, hnode', ?_, ?_⟩
  · rw [vlPoolSample, hnode, Option.map_some]
  · rw [vlPoolSample, hnode', Option.map_some, h.size_eq]

/-- Blocks are what they were, or new. -/
theorem owns_setTaken (hk : p.lookupTable k = some node) (hown : (p.setTaken k node n).Owns b) :
    p.Owns b := by
  obtain ⟨j, m, hm, rfl⟩ := hown
  obtain ⟨m', hm', rfl⟩ := BlockChain.lookup_update hk hm
  exact ⟨j, m', hm', rfl⟩

theorem owns_newBlock (hown : (vlPoolNodeNew p).2.Owns b) : p.Owns b ∨ b = p.allocated := by
  obtain ⟨j, m, hm, rfl⟩ := hown
  rcases BlockChain.lookup_push hm with ⟨-, rfl⟩ | ⟨-, hm⟩
  · exact Or.inr rfl
  · exact Or.inl ⟨j, m, hm, rfl⟩

end VlPool

/-- **Pools that are alike take alike**: the same index, and they stay alike. -/
theorem vlPoolTake_alike (h : p.Alike q mem mem') (hp : p.Inv live) (hq : q.Inv live)
    (hmem : ∀ offset, mem ⟨p.allocated, offset⟩ = mem' ⟨q.allocated, offset⟩) :
    ∃ i p' q', vlPoolTake p = .ok (i, p') ∧ vlPoolTake q = .ok (i, q') ∧ p'.Alike q' mem mem' ∧
      p.allocated ≤ p'.allocated ∧ q.allocated ≤ q'.allocated ∧
      ∀ b, p'.Owns b → p.Owns b ∨ b = p.allocated := by
  rcases vlPoolTake_cases hp with ⟨i, rest, node, hfree, hnode, hop⟩ |
    ⟨k, node, hfree, hnode, hlt, hfull, hop⟩ | ⟨hfree, hfull, hop⟩
  -- the free stack is popped
  · rcases vlPoolTake_cases hq with ⟨i', rest', node', hfree', hnode', hop'⟩ |
      ⟨k', node', hfree', -⟩ | ⟨hfree', -⟩
    · rw [h.free_eq, hfree'] at hfree
      obtain ⟨rfl, rfl⟩ := List.cons.inj hfree
      refine ⟨i', _, _, hop, hop', ?_, le_rfl, le_rfl, fun b hown => ?_⟩
      · rw [(h.block hnode hnode').1]
        exact (h.setTaken hnode hnode' _).setFree _ _ _
      · exact Or.inl (VlPool.owns_setTaken hnode hown)
    · rw [h.free_eq, hfree'] at hfree
      cases hfree
    · rw [h.free_eq, hfree'] at hfree
      cases hfree
  -- both find the newest block that is not expended
  · rcases vlPoolTake_cases hq with ⟨i', rest', node', hfree', -⟩ |
      ⟨k', node', hfree', hnode', hlt', hfull', hop'⟩ | ⟨hfree', hfull', -⟩
    · rw [h.free_eq, hfree'] at hfree
      cases hfree
    · have hkk : k = k' := by
        rcases Nat.lt_trichotomy k k' with hkk | hkk | hkk
        · obtain ⟨m, hm⟩ := hp.chain.block k' (h.total_eq ▸ hq.chain.lt_total hnode')
          have hm' := hfull k' hkk m hm
          obtain ⟨htaken, hsize, -⟩ := h.block hm hnode'
          omega
        · exact hkk
        · obtain ⟨m, hm⟩ := hq.chain.block k (h.total_eq ▸ hp.chain.lt_total hnode)
          have hm' := hfull' k hkk m hm
          obtain ⟨htaken, hsize, -⟩ := h.block hnode hm
          omega
      subst hkk
      have htaken := (h.block hnode hnode').1
      rw [← htaken] at hop'
      exact ⟨_, _, _, hop, hop', h.setTaken hnode hnode' _, le_rfl, le_rfl,
        fun b hown => Or.inl (VlPool.owns_setTaken hnode hown)⟩
    · obtain ⟨m, hm⟩ := hq.chain.block k (h.total_eq ▸ hp.chain.lt_total hnode)
      have hm' := hfull' k m hm
      obtain ⟨htaken, hsize, -⟩ := h.block hnode hm
      omega
  -- both add a block
  · rcases vlPoolTake_cases hq with ⟨i', rest', node', hfree', -⟩ |
      ⟨k', node', hfree', hnode', hlt', -, hop'⟩ | ⟨hfree', hfull', hop'⟩
    · rw [h.free_eq, hfree'] at hfree
      cases hfree
    · obtain ⟨m, hm⟩ := hp.chain.block k' (h.total_eq ▸ hq.chain.lt_total hnode')
      have hm' := hfull k' m hm
      obtain ⟨htaken, hsize, -⟩ := h.block hm hnode'
      omega
    · have hnew := vlPoolNodeNew_lookup p
      rw [← h.total_eq] at hop'
      refine ⟨_, _, _, hop, hop', ?_, Nat.le_succ _, Nat.le_succ _, fun b hown => ?_⟩
      · have hnew' := vlPoolNodeNew_lookup q
        rw [← h.total_eq] at hnew'
        exact (h.newBlock hmem).setTaken hnew hnew' 1
      · exact VlPool.owns_newBlock (VlPool.owns_setTaken hnew hown)

end Alike

/-! ### Calls on mirrors -/

namespace PoolSite

variable {s t u w : PoolSite} {heap heap' heap₁ heap₂ : PoolHeap ν} {o : VlPoolCall ν}
  {r : VlPoolResult ν}

/-- What a call on a pool may do to the heap: it hands out numbers in turn, writes to its own blocks
only, and has no blocks but its own and new ones. -/
structure Keeps (s : PoolSite) (heap : PoolHeap ν) (s' : PoolSite) (heap' : PoolHeap ν) : Prop where
  allocated_le : heap.allocated ≤ heap'.allocated
  owns : ∀ b, s'.object.pool.Owns b → s.object.pool.Owns b ∨ heap.allocated ≤ b
  mem : ∀ b offset, ¬ s.object.pool.Owns b → heap'.mem ⟨b, offset⟩ = heap.mem ⟨b, offset⟩

/-- The numbers of the blocks were handed out. -/
theorem Mirrors.owns_lt (h : s.Mirrors heap t heap') {b : ℕ} (hown : s.object.pool.Owns b) :
    b < heap.allocated := (h.inv.owns_lt hown).trans_le h.allocated_le

theorem Mirrors.owns_lt' (h : s.Mirrors heap t heap') {b : ℕ} (hown : t.object.pool.Owns b) :
    b < heap'.allocated := (h.inv'.owns_lt hown).trans_le h.allocated_le'

/-- **Frame rule**: what a call on another pool does, is not seen. -/
theorem Mirrors.frame (h : u.Mirrors heap w heap₂) (hkeep : s.Keeps heap t heap')
    (hfresh : heap'.Fresh) (hapart : ∀ b, u.object.pool.Owns b → ¬ s.object.pool.Owns b) :
    u.Mirrors heap' w heap₂ := by
  refine ⟨h.live_eq, h.inv, h.inv', h.tabled, h.tabled', h.allocated_le.trans hkeep.allocated_le,
    h.allocated_le', hfresh, h.fresh', h.alike.size_eq, h.alike.growth_eq, h.alike.total_eq,
    h.alike.free_eq, fun {k node node'} hk hk' => ?_⟩
  obtain ⟨htaken, hsize, hmem⟩ := h.alike.block hk hk'
  refine ⟨htaken, hsize, fun offset => ?_⟩
  rw [hkeep.mem _ _ (hapart _ ⟨k, node, hk, rfl⟩)]
  exact hmem offset

/-- A slot that is written to is not among the fresh ones. -/
theorem fresh_update (slot : Slot) (hfresh : heap.Fresh) (hlt : slot.block < heap.allocated)
    (v : Option ν) : PoolHeap.Fresh { heap with mem := Function.update heap.mem slot v } := by
  intro b offset hb
  refine (Function.update_of_ne ?_ _ _).trans (hfresh b offset hb)
  rintro rfl
  exact absurd hlt (Nat.not_lt.mpr hb)

/-- A call returns the same on both pools, and leaves mirrors. -/
def AnswersAlike (s : PoolSite) (heap : PoolHeap ν) (t : PoolSite) (heap' : PoolHeap ν)
    (o : VlPoolCall ν) : Prop :=
  ∃ r s' heap₁ t' heap₂, vlPoolCall s heap o = .ok (r, s', heap₁) ∧
    vlPoolCall t heap' o = .ok (r, t', heap₂) ∧ s'.Mirrors heap₁ t' heap₂ ∧ s.Keeps heap s' heap₁

/-- A take from a pool and its table, whatever number the next block gets. -/
theorem take_object {a : ℕ} {live : List VlPoolIdx} {pool : VlPool} {i : VlPoolIdx}
    (hinv : VlPool.Inv { s.object.pool with allocated := a } live) (htabled : s.object.Tabled)
    (hop : vlPoolTake { s.object.pool with allocated := a } = .ok (i, pool)) :
    ∃ tableSize, VlPoolObject.take
        { s.object with pool := { s.object.pool with allocated := a } } =
      .ok (i, ⟨pool, tableSize⟩) ∧ VlPoolObject.Tabled ⟨pool, tableSize⟩ ∧ pool.Inv (i :: live) := by
  let o : VlPoolObject := { s.object with pool := { s.object.pool with allocated := a } }
  have ho : o.Tabled := htabled.congr rfl rfl
  obtain ⟨i', o', htake, hop', htabled'⟩ := VlPoolObject.take_spec (show o.pool.Inv live from hinv) ho
  obtain ⟨rfl, rfl⟩ := Prod.mk.inj (Except.ok.inj (hop.symm.trans hop'))
  obtain ⟨j, pool', hop'', hinv', -⟩ := vlPoolTake_spec hinv
  obtain ⟨rfl, rfl⟩ := Prod.mk.inj (Except.ok.inj (hop.symm.trans hop''))
  exact ⟨o'.tableSize, htake, htabled', hinv'⟩

theorem Mirrors.take (h : s.Mirrors heap t heap') : AnswersAlike s heap t heap' .take := by
  have hp := h.inv.allocate h.allocated_le
  have hq := h.inv'.allocate h.allocated_le'
  rw [← h.live_eq] at hq
  have halike : VlPool.Alike { s.object.pool with allocated := heap.allocated }
      { t.object.pool with allocated := heap'.allocated } heap.mem heap'.mem :=
    ⟨h.alike.size_eq, h.alike.growth_eq, h.alike.total_eq, h.alike.free_eq, h.alike.block⟩
  have hmem : ∀ offset, heap.mem ⟨heap.allocated, offset⟩ = heap'.mem ⟨heap'.allocated, offset⟩ := by
    intro offset
    rw [h.fresh _ _ le_rfl, h.fresh' _ _ le_rfl]
  obtain ⟨i, p', q', htake, htake', halike', hle, hle', howns⟩ := vlPoolTake_alike halike hp hq hmem
  obtain ⟨size, hcall, htabled, hinv⟩ := take_object hp h.tabled htake
  obtain ⟨size', hcall', htabled', hinv'⟩ := take_object hq h.tabled' htake'
  rw [h.live_eq] at hinv'
  refine ⟨.index i, ⟨⟨p', size⟩, i :: s.live⟩, { heap with allocated := p'.allocated },
    ⟨⟨q', size'⟩, i :: t.live⟩, { heap' with allocated := q'.allocated }, ?_, ?_,
    ⟨by rw [h.live_eq], hinv, hinv', htabled, htabled', le_rfl, le_rfl,
      fun b offset hb => h.fresh b offset (hle.trans hb),
      fun b offset hb => h.fresh' b offset (hle'.trans hb), halike'⟩,
    ⟨hle, fun b hown => (howns b hown).imp id fun heq => heq.ge, fun b offset _ => rfl⟩⟩
  · rw [vlPoolCall]
    dsimp only
    rw [hcall]
    rfl
  · rw [vlPoolCall]
    dsimp only
    rw [hcall']
    rfl

theorem Mirrors.ret (h : s.Mirrors heap t heap') {idx : VlPoolIdx} (ho : idx ∈ s.live) :
    AnswersAlike s heap t heap' (.ret idx) := by
  obtain ⟨node, node', hnode, hnode', -⟩ := h.alike.sample h.inv (h.live_eq ▸ h.inv') ho
  obtain ⟨pool, hret, hinv, -⟩ := vlPoolReturn_spec h.inv ho
  obtain ⟨pool', hret', hinv', -⟩ := vlPoolReturn_spec h.inv' (h.live_eq ▸ ho)
  have htabled := VlPoolObject.ret_tabled h.tabled hret
  have htabled' := VlPoolObject.ret_tabled h.tabled' hret'
  refine ⟨.done, ⟨⟨pool, s.object.tableSize⟩, s.live.erase idx⟩, heap,
    ⟨⟨pool', t.object.tableSize⟩, t.live.erase idx⟩, heap', ?_, ?_, ?_⟩
  · rw [vlPoolCall, VlPoolObject.ret, hret]
    rfl
  · rw [vlPoolCall, VlPoolObject.ret, hret']
    rfl
  · rw [vlPoolReturn, hnode] at hret
    rw [vlPoolReturn, hnode'] at hret'
    obtain rfl := Except.ok.inj hret
    obtain rfl := Except.ok.inj hret'
    refine ⟨⟨by rw [h.live_eq], hinv, hinv', htabled, htabled', h.allocated_le, h.allocated_le',
      h.fresh, h.fresh', ?_⟩, ⟨le_rfl, fun b hown => Or.inl (VlPool.owns_setTaken hnode hown),
        fun b offset _ => rfl⟩⟩
    rw [(h.alike.block hnode hnode').1, h.alike.free_eq]
    exact (h.alike.setTaken hnode hnode' _).setFree _ _ _

/-- The same place of the same block is written in both heaps. -/
theorem Mirrors.write (h : s.Mirrors heap t heap') {idx : VlPoolIdx} (ho : idx ∈ s.live)
    (element : ν) : AnswersAlike s heap t heap' (.write idx element) := by
  obtain ⟨node, node', hnode, hnode', hslot, hslot'⟩ :=
    h.alike.sample h.inv (h.live_eq ▸ h.inv') ho
  have howned : s.object.pool.Owns node.elements := ⟨_, node, hnode, rfl⟩
  have howned' : t.object.pool.Owns node'.elements := ⟨_, node', hnode', rfl⟩
  let place : ℕ := idx.elementIndex * s.object.pool.elementSize
  have hfresh := fresh_update ⟨node.elements, place⟩ h.fresh (h.owns_lt howned)
    (some element)
  have hfresh' := fresh_update ⟨node'.elements, place⟩ h.fresh' (h.owns_lt' howned')
    (some element)
  refine ⟨.done, s, { heap with mem := Function.update heap.mem ⟨node.elements, place⟩ (some element) },
    t, { heap' with mem := Function.update heap'.mem ⟨node'.elements, place⟩ (some element) },
    by rw [vlPoolCall, hslot]; rfl, by rw [vlPoolCall, hslot']; rfl,
    ⟨h.live_eq, h.inv, h.inv', h.tabled, h.tabled', h.allocated_le, h.allocated_le', hfresh, hfresh',
      h.alike.size_eq, h.alike.growth_eq, h.alike.total_eq, h.alike.free_eq, ?_⟩,
    ⟨le_rfl, fun b hown => Or.inl hown, fun b offset hb => ?_⟩⟩
  · intro k m m' hm hm'
    obtain ⟨htaken, hsize, hmem⟩ := h.alike.block hm hm'
    refine ⟨htaken, hsize, fun offset => ?_⟩
    dsimp only
    by_cases hk : k = idx.nodeIndex ∧ offset = place
    · obtain ⟨rfl, rfl⟩ := hk
      obtain rfl := Option.some_injective _ (hnode.symm.trans hm)
      obtain rfl := Option.some_injective _ (hnode'.symm.trans hm')
      rw [Function.update_self, Function.update_self]
    · have hne : (⟨m.elements, offset⟩ : Slot) ≠ ⟨node.elements, place⟩ := by
        intro heq
        obtain ⟨hblock, hoffset⟩ := Slot.mk.inj heq
        exact hk ⟨h.inv.chain.elements_inj hm hnode hblock, hoffset⟩
      have hne' : (⟨m'.elements, offset⟩ : Slot) ≠ ⟨node'.elements, place⟩ := by
        intro heq
        obtain ⟨hblock, hoffset⟩ := Slot.mk.inj heq
        exact hk ⟨h.inv'.chain.elements_inj hm' hnode' hblock, hoffset⟩
      rw [Function.update_of_ne hne, Function.update_of_ne hne']
      exact hmem offset
  · refine Function.update_of_ne ?_ _ _
    intro heq
    obtain ⟨rfl, -⟩ := Slot.mk.inj heq
    exact hb howned

theorem Mirrors.read (h : s.Mirrors heap t heap') {idx : VlPoolIdx} (ho : idx ∈ s.live) :
    AnswersAlike s heap t heap' (.read idx) := by
  obtain ⟨node, node', hnode, hnode', hslot, hslot'⟩ :=
    h.alike.sample h.inv (h.live_eq ▸ h.inv') ho
  have hread := (h.alike.block hnode hnode').2.2 (idx.elementIndex * s.object.pool.elementSize)
  refine ⟨.element (heap.mem ⟨node.elements, idx.elementIndex * s.object.pool.elementSize⟩), s,
    heap, t, heap', by rw [vlPoolCall, hslot]; rfl, ?_, h,
    ⟨le_rfl, fun b hown => Or.inl hown, fun b offset _ => rfl⟩⟩
  rw [vlPoolCall, hslot', hread]
  rfl

/-- **Step lemma**: a call on mirrors returns the same on both, and leaves mirrors. -/
theorem Mirrors.call (h : s.Mirrors heap t heap') (ho : o.Allowed s) :
    AnswersAlike s heap t heap' o := by
  cases o with
  | take => exact h.take
  | ret idx => exact h.ret ho
  | write idx element => exact h.write ho element
  | read idx => exact h.read ho

end PoolSite

/-! ### Two pools in one heap -/

/-- The pools of a pair, each next to a mirror in a heap of its own. -/
structure PoolPairMirrors (p : PoolSite × PoolSite × PoolHeap ν)
    (q : (PoolSite × PoolHeap ν) × (PoolSite × PoolHeap ν)) : Prop where
  original : p.1.Mirrors p.2.2 q.1.1 q.1.2
  copy : p.2.1.Mirrors p.2.2 q.2.1 q.2.2
  apart : ∀ b, p.1.object.pool.Owns b → ¬ p.2.1.object.pool.Owns b

/-- **Two pools in one heap do not disturb each other**: they answer like two pools in heaps of their
own. -/
theorem poolPair_simulation :
    (poolPair ν).Simulation ((soloPool ν).both (soloPool ν)) PoolPairMirrors := by
  rintro ⟨s, u, heap⟩ ⟨⟨t, heapt⟩, ⟨w, heapw⟩⟩ (o | o) ⟨hs, hu, hapart⟩ hg
  · obtain ⟨r, s', heap₁, t', heap₂, hop, hop', hs', hkeep⟩ := hs.call hg
    refine ⟨r, (s', u, heap₁), ((t', heap₂), (w, heapw)), ?_, ?_, hs', ?_, ?_⟩
    · change (do
        let (r, site, heap) ← vlPoolCall s heap o
        return (r, (site, u, heap))) = _
      rw [hop]
      rfl
    · change (do
        let (r, s₁) ← (do
          let (r, site, heap) ← vlPoolCall t heapt o
          return (r, (site, heap)) : Except Fault _)
        return (r, (s₁, (w, heapw)))) = _
      rw [hop']
      rfl
    · exact hu.frame hkeep hs'.fresh fun b hb hb' => hapart b hb' hb
    · intro b hb hb'
      rcases hkeep.owns b hb with hold | hnew
      · exact hapart b hold hb'
      · exact absurd (hu.owns_lt hb') (Nat.not_lt.mpr hnew)
  · obtain ⟨r, u', heap₁, w', heap₂, hop, hop', hu', hkeep⟩ := hu.call hg
    refine ⟨r, (s, u', heap₁), ((t, heapt), (w', heap₂)), ?_, ?_, ?_, hu', ?_⟩
    · change (do
        let (r, site, heap) ← vlPoolCall u heap o
        return (r, (s, site, heap))) = _
      rw [hop]
      rfl
    · change (do
        let (r, s₂) ← (do
          let (r, site, heap) ← vlPoolCall w heapw o
          return (r, (site, heap)) : Except Fault _)
        return (r, ((t, heapt), s₂))) = _
      rw [hop']
      rfl
    · exact hs.frame hkeep hu'.fresh hapart
    · intro b hb hb'
      rcases hkeep.owns b hb' with hold | hnew
      · exact hapart b hb hold
      · exact absurd (hs.owns_lt hb) (Nat.not_lt.mpr hnew)

end VeritableLasagna
