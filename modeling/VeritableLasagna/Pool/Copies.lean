import VeritableLasagna.Pool.Clone

/-!
# What a clone is

`vlPoolClone` either stores an entry beyond the table of the destination, or returns a pool that is
like the source and has new blocks only (`vlPoolClone_spec`). The loop over the blocks is described in
closed form: `VlPool.copyTable` and `VlPool.copyMem` are the table and the memory after the first `i`
of them.

From this `vlPoolClone_independent_iff` follows. If the table of the destination is as large as that of
the source, the two pools and the source are mirrors. If it is smaller, the clone believes it to be
larger than it is: it never reallocates, so that one of finitely many takes stores beyond it.
-/

namespace VeritableLasagna

variable {ν : Type}

/-! ### The loop over the blocks -/

/-- A table whose first `i` entries are copies, in blocks numbered from `base` on. -/
def VlPool.copyTable (src : VlPool) (base i : ℕ) (table : ℕ → Option VlPoolNode) :
    ℕ → Option VlPoolNode := fun k =>
  if k < i then
    (src.lookupTable k).map fun node =>
      { node with elements := base + k, nextLookup := olderBlock k }
  else table k

/-- The memory after the first `i` blocks were copied. -/
def VlPool.copyMem (src : VlPool) (base i : ℕ) (mem : Slot → Option ν) : Slot → Option ν := fun slot =>
  if base ≤ slot.block ∧ slot.block < base + i then
    (src.lookupTable (slot.block - base)).bind fun node => mem ⟨node.elements, slot.offset⟩
  else mem slot

section CopyLoop

variable {src pool : VlPool} {base i k : ℕ} {table : ℕ → Option VlPoolNode} {mem : Slot → Option ν}
  {node : VlPoolNode} {live : List VlPoolIdx}

namespace VlPool

/-- One more entry. -/
theorem copyTable_succ (hnode : src.lookupTable i = some node) (hordinal : node.blockOrdinal = i) :
    Function.update (src.copyTable base i table) node.blockOrdinal
        (some { node with elements := base + i, nextLookup := olderBlock i }) =
      src.copyTable base (i + 1) table := by
  subst hordinal
  funext k
  rcases eq_or_ne k node.blockOrdinal with rfl | hne
  · rw [Function.update_self, copyTable, if_pos (Nat.lt_succ_self _), hnode]
    rfl
  · rw [Function.update_of_ne hne, copyTable, copyTable]
    have hiff : k < node.blockOrdinal ↔ k < node.blockOrdinal + 1 := by omega
    simp only [hiff]

/-- Nothing is copied before the first round. -/
theorem copyTable_zero : src.copyTable base 0 table = table := by
  funext k
  exact if_neg (Nat.not_lt_zero k)

theorem copyMem_zero : src.copyMem base 0 mem = mem := by
  funext slot
  exact if_neg (by omega)

/-- One more block. -/
theorem copyMem_succ (hnode : src.lookupTable i = some node) (hold : node.elements < base) :
    (fun slot : Slot => if slot.block = base + i then
        src.copyMem base i mem ⟨node.elements, slot.offset⟩ else src.copyMem base i mem slot) =
      src.copyMem base (i + 1) mem := by
  funext slot
  obtain ⟨b, offset⟩ := slot
  dsimp only
  rcases eq_or_ne b (base + i) with rfl | hne
  · have hindex : base + i - base = i := by omega
    rw [if_pos rfl, copyMem, if_neg, copyMem, if_pos ⟨Nat.le_add_right _ _, Nat.lt_succ_self _⟩,
      hindex, hnode]
    · rfl
    · dsimp only
      omega
  · rw [if_neg hne, copyMem, copyMem]
    dsimp only
    have hiff : (base ≤ b ∧ b < base + i) ↔ (base ≤ b ∧ b < base + (i + 1)) := by omega
    simp only [hiff]

/-- Older blocks are not written. -/
theorem copyMem_old {slot : Slot} (hold : slot.block < base) :
    src.copyMem base i mem slot = mem slot :=
  if_neg fun h => absurd h.1 (Nat.not_le.mpr hold)

/-- The contents of a copy. -/
theorem copyMem_copy (hnode : src.lookupTable k = some node) (hk : k < i) (offset : ℕ) :
    src.copyMem base i mem ⟨base + k, offset⟩ = mem ⟨node.elements, offset⟩ := by
  have hindex : base + k - base = k := by omega
  rw [copyMem, if_pos ⟨Nat.le_add_right _ _, Nat.add_lt_add_left hk _⟩]
  dsimp only
  rw [hindex, hnode]
  rfl

end VlPool

/-- **Step lemma**: a round of the loop that stays inside the table. -/
theorem vlPoolCloneLoop_succ (hsrc : src.Inv live) {n tableSize a : ℕ}
    (hlt : i < src.lookupTotal) (htable : i < tableSize) (hbase : src.allocated ≤ base) :
    vlPoolCloneLoop src (n + 1) i
        ⟨{ pool with
          lookupTable := src.copyTable base i table, lookupHead := olderBlock i, allocated := a },
          tableSize⟩ ⟨src.copyMem base i mem, base + i⟩ =
      vlPoolCloneLoop src n (i + 1)
        ⟨{ pool with
          lookupTable := src.copyTable base (i + 1) table, lookupHead := olderBlock (i + 1),
          allocated := base + (i + 1) }, tableSize⟩
        ⟨src.copyMem base (i + 1) mem, base + (i + 1)⟩ := by
  obtain ⟨node, hnode⟩ := hsrc.chain.block i hlt
  have hordinal := hsrc.chain.ordinal hnode
  have hold : node.elements < base := (hsrc.chain.elements_lt hnode).trans_le hbase
  rw [vlPoolCloneLoop, hnode, deref_some, ok_bind, if_pos ⟨htable, by rw [hordinal]; exact htable⟩]
  dsimp only
  rw [VlPool.copyTable_succ hnode hordinal, VlPool.copyMem_succ hnode hold, hordinal]
  rfl

/-- **The whole loop**, from block `i` on: every block has its copy. -/
theorem vlPoolCloneLoop_spec (pool : VlPool) (table : ℕ → Option VlPoolNode)
    (mem : Slot → Option ν) (hsrc : src.Inv live) {tableSize : ℕ}
    (htable : src.lookupTotal ≤ tableSize) (hbase : src.allocated ≤ base) :
    ∀ (n i a : ℕ), i + (n + 1) = src.lookupTotal →
      vlPoolCloneLoop src (n + 1) i
          ⟨{ pool with
            lookupTable := src.copyTable base i table, lookupHead := olderBlock i, allocated := a },
            tableSize⟩ ⟨src.copyMem base i mem, base + i⟩ =
        .ok (⟨{ pool with
          lookupTable := src.copyTable base src.lookupTotal table,
          lookupHead := olderBlock src.lookupTotal, allocated := base + src.lookupTotal }, tableSize⟩,
          ⟨src.copyMem base src.lookupTotal mem, base + src.lookupTotal⟩) := by
  intro n
  induction n with
  | zero =>
    intro i a hi
    rw [vlPoolCloneLoop_succ hsrc (by omega) (by omega) hbase, vlPoolCloneLoop, ← hi]
  | succ n ih =>
    intro i a hi
    rw [vlPoolCloneLoop_succ hsrc (by omega) (by omega) hbase]
    exact ih (i + 1) _ (by omega)

/-- A table with fewer entries than the source has blocks is overrun. -/
theorem vlPoolCloneLoop_overrun (pool : VlPool) (table : ℕ → Option VlPoolNode)
    (mem : Slot → Option ν) (hsrc : src.Inv live) {tableSize : ℕ}
    (htable : tableSize < src.lookupTotal) (hbase : src.allocated ≤ base) :
    ∀ (n i a : ℕ), i + n = src.lookupTotal → i ≤ tableSize →
      vlPoolCloneLoop src n i
          ⟨{ pool with
            lookupTable := src.copyTable base i table, lookupHead := olderBlock i, allocated := a },
            tableSize⟩ ⟨src.copyMem base i mem, base + i⟩ = .error .outOfBounds := by
  intro n
  induction n with
  | zero =>
    intro i a hi hle
    omega
  | succ n ih =>
    intro i a hi hle
    rcases hle.lt_or_eq with hlt | rfl
    · rw [vlPoolCloneLoop_succ hsrc (by omega) hlt hbase]
      exact ih (i + 1) _ (by omega) hlt
    · obtain ⟨node, hnode⟩ := hsrc.chain.block i htable
      rw [vlPoolCloneLoop, hnode, deref_some, ok_bind, if_neg fun h => absurd h.1 (Nat.lt_irrefl _)]

end CopyLoop

/-! ### The pool that is written to -/

/-- A destination that has the counters and the free stack of the source, but not its blocks: of its
own blocks it kept the oldest, which the first copy replaces. -/
structure VlPool.Prepared (src pool : VlPool) : Prop where
  growth_eq : pool.growthIncrement = src.growthIncrement
  size_eq : pool.elementSize = src.elementSize
  total_eq : pool.lookupTotal = src.lookupTotal
  capacity_eq : pool.lookupCapacity = src.lookupCapacity
  free_eq : pool.freeStack = src.freeStack
  vacant : ∀ k, 0 < k → pool.lookupTable k = none

section Spec

variable {src pool : VlPool} {live : List VlPoolIdx} {dest : Option VlPoolObject} {heap : PoolHeap ν}

/-- All that precedes the loop: the table of the destination is left at the size it has. -/
theorem vlPoolClone_prepare (heap : PoolHeap ν) (hsrc : src.Inv live)
    (hdest : ∀ d ∈ dest, ∃ live, d.pool.Inv live) :
    ∃ pool base, src.Prepared pool ∧ heap.allocated ≤ base ∧
      vlPoolClone src dest heap = vlPoolCloneLoop src src.lookupTotal 0
        ⟨{ pool with lookupHead := none }, vlPoolTableSize dest⟩ { heap with allocated := base } := by
  have hpos := hsrc.chain.total_pos
  obtain ⟨last, hlast⟩ := hsrc.chain.block (src.lookupTotal - 1) (by omega)
  have hordinal : last.blockOrdinal + 1 = src.lookupTotal := by
    rw [hsrc.chain.ordinal hlast]
    omega
  -- the capacity is compared with itself
  have hrest : ∀ (o : VlPoolObject) (heap' : PoolHeap ν),
      (∀ k, 0 < k → o.pool.lookupTable k = none) →
      ∃ pool, src.Prepared pool ∧ (do
        let last ← deref (src.lookupTable (src.lookupTotal - 1))
        vlPoolCloneLoop src (last.blockOrdinal + 1) 0
          ⟨{ o.pool with
            growthIncrement := src.growthIncrement
            elementSize := src.elementSize
            elementAlign := src.elementAlign
            lookupTotal := src.lookupTotal
            lookupCapacity := src.lookupCapacity
            freeCapacity := if o.pool.freeCapacity < src.freeCapacity then src.freeCapacity
              else o.pool.freeCapacity
            freeStack := src.freeStack
            lookupHead := none },
            if src.lookupCapacity < src.lookupCapacity then src.lookupCapacity else o.tableSize⟩
          heap') =
        vlPoolCloneLoop src src.lookupTotal 0 ⟨{ pool with lookupHead := none }, o.tableSize⟩ heap' := by
    intro o heap' hvacant
    refine ⟨{ o.pool with
      growthIncrement := src.growthIncrement
      elementSize := src.elementSize
      elementAlign := src.elementAlign
      lookupTotal := src.lookupTotal
      lookupCapacity := src.lookupCapacity
      freeCapacity := if o.pool.freeCapacity < src.freeCapacity then src.freeCapacity
        else o.pool.freeCapacity
      freeStack := src.freeStack }, ⟨rfl, rfl, rfl, rfl, rfl, hvacant⟩, ?_⟩
    rw [hlast, deref_some, ok_bind, hordinal, if_neg (Nat.lt_irrefl _)]
  cases dest with
  | none =>
    let fresh := vlPoolInitAligned src.elementSize src.elementAlign
    have hvacant : ∀ k, 0 < k → (fresh.rebase heap.allocated).lookupTable k = none := by
      intro k hk
      have hnone := (vlPoolInitAligned_inv src.elementSize src.elementAlign).chain.vacant k hk
      change (fresh.lookupTable k).map _ = none
      rw [hnone]
      rfl
    obtain ⟨pool, hprepared, hloop⟩ := hrest ⟨fresh.rebase heap.allocated, vlPoolDefaultSize⟩
      { heap with allocated := (fresh.rebase heap.allocated).allocated } hvacant
    refine ⟨pool, heap.allocated + fresh.allocated, hprepared, Nat.le_add_right _ _, ?_⟩
    rw [vlPoolClone, hsrc.head_eq]
    exact hloop
  | some d =>
    obtain ⟨live', hinv⟩ := hdest d rfl
    obtain ⟨pool', hreset, hinv', htotal⟩ := vlPoolReset_spec hinv
    have hvacant : ∀ k, 0 < k → pool'.lookupTable k = none := by
      intro k hk
      refine hinv'.chain.vacant k ?_
      rw [htotal]
      exact hk
    obtain ⟨pool, hprepared, hloop⟩ := hrest ⟨pool', d.tableSize⟩ heap hvacant
    refine ⟨pool, heap.allocated, hprepared, le_rfl, ?_⟩
    rw [vlPoolClone, hsrc.head_eq]
    dsimp only
    rw [VlPoolObject.reset, hreset]
    exact hloop

/-- A prepared pool with copies of all blocks is in order. -/
theorem VlPool.Prepared.inv (h : src.Prepared pool) (hsrc : src.Inv live) (base : ℕ) :
    VlPool.Inv { pool with
      lookupTable := src.copyTable base src.lookupTotal pool.lookupTable
      lookupHead := olderBlock src.lookupTotal
      allocated := base + src.lookupTotal } live := by
  have hpos := hsrc.chain.total_pos
  have hcopy : ∀ {k node},
      src.copyTable base src.lookupTotal pool.lookupTable k = some node →
      ∃ m, src.lookupTable k = some m ∧
        node = { m with elements := base + k, nextLookup := olderBlock k } := by
    intro k node hk
    rw [VlPool.copyTable] at hk
    split_ifs at hk with hlt
    · obtain ⟨m, hm, rfl⟩ := Option.map_eq_some_iff.mp hk
      exact ⟨m, hm, rfl⟩
    · rw [h.vacant k (by omega)] at hk
      cases hk
  refine ⟨⟨?_, fun k hk => ?_, fun k hk => ?_, fun hk => ?_, fun hk => ?_, fun hk => ?_, fun hk => ?_,
    fun hk hk' he => ?_⟩, ?_, ?_, fun hk => ?_, fun hk => ?_, ?_, fun i => ?_⟩
  · rw [h.total_eq]
    exact hpos
  · have hlt : k < src.lookupTotal := h.total_eq ▸ hk
    obtain ⟨m, hm⟩ := hsrc.chain.block k hlt
    exact ⟨{ m with elements := base + k, nextLookup := olderBlock k }, by
      dsimp only
      rw [VlPool.copyTable, if_pos hlt, hm]
      rfl⟩
  · have hge : src.lookupTotal ≤ k := h.total_eq ▸ hk
    dsimp only
    rw [VlPool.copyTable, if_neg (by omega)]
    exact h.vacant k (by omega)
  · obtain ⟨m, hm, rfl⟩ := hcopy hk
    exact (hsrc.chain.ordinal hm :)
  · obtain ⟨m, hm, rfl⟩ := hcopy hk
    rfl
  · obtain ⟨m, hm, rfl⟩ := hcopy hk
    exact (hsrc.chain.size_pos hm :)
  · obtain ⟨m, hm, rfl⟩ := hcopy hk
    exact Nat.add_lt_add_left (hsrc.chain.lt_total hm) _
  · obtain ⟨m, hm, rfl⟩ := hcopy hk
    obtain ⟨m', hm', rfl⟩ := hcopy hk'
    exact Nat.add_left_cancel he
  · dsimp only
    rw [h.total_eq]
    exact olderBlock_pos hpos
  · exact hsrc.growth_pos.trans_le h.growth_eq.ge
  · obtain ⟨m, hm, rfl⟩ := hcopy hk
    exact (hsrc.taken hm :)
  · obtain ⟨m, hm, rfl⟩ := hcopy hk
    dsimp only
    rw [h.free_eq]
    exact (hsrc.handed_le hm :)
  · dsimp only
    rw [h.free_eq]
    exact hsrc.nodup
  · dsimp only
    rw [h.free_eq, h.total_eq]
    exact hsrc.mem_iff i

/-- What a clone leaves: a pool like the source, in blocks of its own, while older blocks keep their
contents. -/
structure CloneOf (src : VlPool) (live : List VlPoolIdx) (heap : PoolHeap ν) (tableSize : ℕ)
    (copy : VlPoolObject) (heap' : PoolHeap ν) : Prop where
  inv : copy.pool.Inv live
  total_eq : copy.pool.lookupTotal = src.lookupTotal
  capacity_eq : copy.pool.lookupCapacity = src.lookupCapacity
  tableSize_eq : copy.tableSize = tableSize
  allocated_eq : copy.pool.allocated = heap'.allocated
  allocated_le : heap.allocated ≤ heap'.allocated
  new : ∀ b, copy.pool.Owns b → heap.allocated ≤ b
  alike : copy.pool.Alike src heap'.mem heap.mem
  mem_old : ∀ slot : Slot, slot.block < heap.allocated → heap'.mem slot = heap.mem slot
  fresh : heap.Fresh → heap'.Fresh

/-- **A clone of a source whose blocks fit the table** is one in blocks of its own. -/
theorem vlPoolClone_spec (hsrc : src.Inv live) (hdest : ∀ d ∈ dest, ∃ live, d.pool.Inv live)
    (hheap : src.allocated ≤ heap.allocated) (htable : src.lookupTotal ≤ vlPoolTableSize dest) :
    ∃ copy heap', vlPoolClone src dest heap = .ok (copy, heap') ∧
      CloneOf src live heap (vlPoolTableSize dest) copy heap' := by
  obtain ⟨pool, base, hprepared, hbase, hclone⟩ := vlPoolClone_prepare heap hsrc hdest
  have hpos := hsrc.chain.total_pos
  obtain ⟨n, hn⟩ : ∃ n, src.lookupTotal = n + 1 := ⟨src.lookupTotal - 1, by omega⟩
  have hloop := vlPoolCloneLoop_spec pool pool.lookupTable heap.mem hsrc htable (hheap.trans hbase) n 0
    pool.allocated (by omega)
  rw [← hn, VlPool.copyTable_zero, VlPool.copyMem_zero] at hloop
  refine ⟨_, _, hclone.trans hloop, hprepared.inv hsrc base, hprepared.total_eq,
    hprepared.capacity_eq, rfl, rfl, hbase.trans (Nat.le_add_right _ _), ?_, ?_, ?_, ?_⟩
  · rintro b ⟨k, node, hk, rfl⟩
    dsimp only [VlPool.copyTable] at hk
    split_ifs at hk with hlt
    · obtain ⟨m, hm, rfl⟩ := Option.map_eq_some_iff.mp hk
      exact hbase.trans (Nat.le_add_right _ _)
    · rw [hprepared.vacant k (by omega)] at hk
      cases hk
  · refine ⟨hprepared.size_eq, hprepared.growth_eq, hprepared.total_eq, hprepared.free_eq,
      fun {k node node'} hk hk' => ?_⟩
    have hlt := hsrc.chain.lt_total hk'
    dsimp only [VlPool.copyTable] at hk
    rw [if_pos hlt, hk'] at hk
    obtain rfl := Option.some_injective _ hk
    exact ⟨rfl, rfl, fun offset => VlPool.copyMem_copy hk' hlt offset⟩
  · intro slot hslot
    exact VlPool.copyMem_old (hslot.trans_le hbase)
  · intro hfresh b offset hb
    dsimp only at hb ⊢
    rw [VlPool.copyMem, if_neg (by dsimp only; omega)]
    exact hfresh b offset (by omega)

/-- **A clone of a source with more blocks than the table has entries** stores beyond the table. -/
theorem vlPoolClone_overrun (hsrc : src.Inv live) (hdest : ∀ d ∈ dest, ∃ live, d.pool.Inv live)
    (hheap : src.allocated ≤ heap.allocated) (htable : vlPoolTableSize dest < src.lookupTotal) :
    vlPoolClone src dest heap = .error .outOfBounds := by
  obtain ⟨pool, base, hprepared, hbase, hclone⟩ := vlPoolClone_prepare heap hsrc hdest
  have hloop := vlPoolCloneLoop_overrun pool pool.lookupTable heap.mem hsrc htable (hheap.trans hbase)
    src.lookupTotal 0 pool.allocated (by omega) (Nat.zero_le _)
  rw [VlPool.copyTable_zero, VlPool.copyMem_zero] at hloop
  exact hclone.trans hloop

end Spec

/-! ### Reachable pools are in order -/

namespace PoolSite

variable {s s' src : PoolSite} {o : VlPoolOp} {dest : Option VlPoolObject} {heap heap' : PoolHeap ν}

/-- **Step lemma**: an operation keeps a pool and its table in order. -/
theorem step_inv (hinv : s.object.pool.Inv s.live) (ht : s.object.Tabled)
    (hg : poolMachine.guard ⟨s.object.pool, s.live⟩ o) (hstep : vlPoolSiteStep s o = .ok s') :
    s'.object.pool.Inv s'.live ∧ s'.object.Tabled := by
  cases o with
  | take =>
    obtain ⟨i, o', htake, hop, ht'⟩ := VlPoolObject.take_spec hinv ht
    obtain ⟨j, pool, hop', hinv', -⟩ := vlPoolTake_spec hinv
    obtain ⟨rfl, rfl⟩ := Prod.mk.inj (Except.ok.inj (hop.symm.trans hop'))
    rw [vlPoolSiteStep, htake] at hstep
    obtain rfl := Except.ok.inj hstep
    exact ⟨hinv', ht'⟩
  | ret i =>
    obtain ⟨pool, hop, hinv', -⟩ := vlPoolReturn_spec hinv hg
    rw [vlPoolSiteStep, VlPoolObject.ret, hop] at hstep
    obtain rfl := Except.ok.inj hstep
    exact ⟨hinv', VlPoolObject.ret_tabled ht hop⟩
  | reserve n =>
    obtain ⟨o', hreserve, hop, ht'⟩ := VlPoolObject.reserve_spec hinv ht n
    obtain ⟨pool, hop', hinv', -⟩ := vlPoolReserve_spec hinv n
    obtain rfl := Except.ok.inj (hop.symm.trans hop')
    rw [vlPoolSiteStep, hreserve] at hstep
    obtain rfl := Except.ok.inj hstep
    exact ⟨hinv', ht'⟩
  | clear =>
    obtain ⟨pool, hop, hinv', -⟩ := vlPoolClear_spec hinv
    rw [vlPoolSiteStep, VlPoolObject.clear, hop] at hstep
    obtain rfl := Except.ok.inj hstep
    exact ⟨hinv', VlPoolObject.clear_tabled ht hop⟩
  | reset =>
    obtain ⟨pool, hop, hinv', -⟩ := vlPoolReset_spec hinv
    rw [vlPoolSiteStep, VlPoolObject.reset, hop] at hstep
    obtain rfl := Except.ok.inj hstep
    exact ⟨hinv', VlPoolObject.reset_tabled ht hop⟩

/-- A clone into a table that is large enough is in order. -/
theorem clone_inv {copy : VlPoolObject} (hinv : src.object.pool.Inv src.live)
    (ht : src.object.Tabled) (hdest : ∀ d ∈ dest, ∃ live, d.pool.Inv live)
    (hheap : src.object.pool.allocated ≤ heap.allocated)
    (hcap : src.object.pool.lookupCapacity ≤ vlPoolTableSize dest)
    (hclone : vlPoolClone src.object.pool dest heap = .ok (copy, heap')) :
    copy.pool.Inv src.live ∧ copy.Tabled := by
  obtain ⟨copy', heap₁, hclone', hof⟩ :=
    vlPoolClone_spec hinv hdest hheap (ht.total_le.trans hcap)
  obtain ⟨rfl, rfl⟩ := Prod.mk.inj (Except.ok.inj (hclone.symm.trans hclone'))
  refine ⟨hof.inv, ?_, ?_, ?_⟩
  · rw [hof.total_eq, hof.capacity_eq]
    exact ht.total_le
  · rw [hof.capacity_eq]
    exact ht.capacity_pos
  · rw [hof.capacity_eq, hof.tableSize_eq]
    exact hcap

/-- **Every reachable pool is in order.** -/
theorem Reachable.inv (h : s.Reachable) : s.object.pool.Inv s.live ∧ s.object.Tabled := by
  induction h with
  | init elementSize alignment =>
    exact ⟨vlPoolInitAligned_inv elementSize alignment,
      VlPoolObject.init_tabled elementSize alignment⟩
  | step _ hg hstep ih => exact step_inv ih.1 ih.2 hg hstep
  | clone _ hheap hcap hclone ih =>
    have hcopy := clone_inv ih.1 ih.2 (fun d hd => by cases hd) hheap hcap hclone
    exact hcopy
  | cloneInto _ _ hheap hcap hclone ih ihdest =>
    have hcopy := clone_inv ih.1 ih.2 (fun d hd => ?_) hheap hcap hclone
    · exact hcopy
    · obtain rfl := Option.some_injective _ hd
      exact ⟨_, ihdest.1⟩

/-! ### A clone that believes its table to be larger than it is -/

/-- A pool whose table is not as large as it believes: what it can hold is bounded, since its blocks
are. `room` and `growth` are what it could hold, and the size of its next block, in the beginning. -/
structure Confined (s : PoolSite) (heap : PoolHeap ν) (tableSize room growth : ℕ) : Prop where
  inv : s.object.pool.Inv s.live
  allocated_le : s.object.pool.allocated ≤ heap.allocated
  tableSize_eq : s.object.tableSize = tableSize
  capacity_lt : tableSize < s.object.pool.lookupCapacity
  total_le : s.object.pool.lookupTotal ≤ tableSize
  capacity_eq : s.object.pool.capacity + growth = room + s.object.pool.growthIncrement
  growth_le : s.object.pool.growthIncrement ≤ growth * 2 ^ s.object.pool.lookupTotal

variable {tableSize room growth : ℕ}

/-- The live indices of such a pool are bounded. -/
theorem Confined.length_le (h : s.Confined heap tableSize room growth) :
    s.live.length ≤ room + growth * 2 ^ tableSize := by
  have hlength := h.inv.length_le_capacity
  have hgrowth := h.growth_le
  have hpow : growth * 2 ^ s.object.pool.lookupTotal ≤ growth * 2 ^ tableSize :=
    Nat.mul_le_mul_left _ (Nat.pow_le_pow_right two_pos h.total_le)
  have hcap := h.capacity_eq
  omega

/-- **Step lemma**: a take that returns hands out one more index, and the table stays as it is. -/
theorem Confined.take (h : s.Confined heap tableSize room growth) {r : VlPoolResult ν}
    (hop : vlPoolCall s heap .take = .ok (r, s', heap')) :
    s'.Confined heap' tableSize room growth ∧ s'.live.length = s.live.length + 1 := by
  have hp := h.inv.allocate h.allocated_le
  obtain ⟨⟨i, o⟩, htake, hop⟩ := exists_of_bind_eq_ok hop
  obtain ⟨-, rest⟩ := Prod.mk.inj (Except.ok.inj hop)
  obtain ⟨rfl, rfl⟩ := Prod.mk.inj rest
  obtain ⟨⟨j, pool⟩, hpool, hrest⟩ := exists_of_bind_eq_ok htake
  obtain ⟨o', hstored, hend⟩ := exists_of_bind_eq_ok hrest
  obtain ⟨rfl, rfl⟩ := Prod.mk.inj (Except.ok.inj hend)
  obtain ⟨tableSize', hstores, hend'⟩ := exists_of_bind_eq_ok hstored
  obtain rfl := Except.ok.inj hend'
  dsimp only at hpool hstores ⊢
  obtain ⟨i', pool', hpool', hinv, -⟩ := vlPoolTake_spec hp
  obtain ⟨rfl, rfl⟩ := Prod.mk.inj (Except.ok.inj (hpool.symm.trans hpool'))
  have htable := h.tableSize_eq
  have hcap := h.capacity_lt
  have htotal := h.total_le
  have hgrowth := h.growth_le
  have hroom := h.capacity_eq
  refine ⟨?_, rfl⟩
  rcases vlPoolTake_blocks hp hpool with ⟨htotal', hcap', hgrowth', hcapacity'⟩ |
    ⟨htotal', hcap', hgrowth', hcapacity'⟩
  all_goals dsimp only at htotal' hcap' hgrowth'
  · rw [htotal', Nat.sub_self] at hstores
    have hsize : s.object.tableSize = tableSize' := Except.ok.inj hstores
    refine ⟨hinv, le_rfl, hsize.symm.trans htable, hcap.trans_le hcap'.ge, ?_, ?_, ?_⟩
    · exact htotal'.trans_le htotal
    · dsimp only
      rw [hcapacity', hgrowth']
      exact hroom
    · dsimp only
      rw [hgrowth', htotal']
      exact hgrowth
  -- the table is not reallocated, and the store stayed inside it
  · have hspare : ¬ s.object.pool.lookupTotal ≥ s.object.pool.lookupCapacity := by omega
    rw [htotal', Nat.add_sub_cancel_left, vlPoolTableStores] at hstores
    rw [if_neg hspare] at hstores
    split_ifs at hstores with hlt
    have hsize : s.object.tableSize = tableSize' := Except.ok.inj hstores
    rw [vlPoolNextCapacity, if_neg hspare] at hcap'
    refine ⟨hinv, le_rfl, hsize.symm.trans htable, hcap.trans_le hcap'.ge, ?_, ?_, ?_⟩
    · dsimp only
      omega
    · have hmore : pool.capacity = s.object.pool.capacity + s.object.pool.growthIncrement :=
        hcapacity'
      dsimp only
      rw [hmore, hgrowth']
      omega
    · dsimp only
      rw [hgrowth', htotal', pow_succ, ← Nat.mul_assoc]
      exact Nat.mul_le_mul_right 2 hgrowth

end PoolSite

/-! ### Independence -/

section Independence

variable {src : PoolSite} {dest : Option VlPoolObject} {heap heap' : PoolHeap ν}

/-- **A clone into a large enough table is independent.** -/
theorem clonesIndependently_of_le (hinv : src.object.pool.Inv src.live) (ht : src.object.Tabled)
    (hdest : ∀ d ∈ dest, ∃ live, d.pool.Inv live) (hfresh : heap.Fresh)
    (hheap : src.object.pool.allocated ≤ heap.allocated)
    (hcap : src.object.pool.lookupCapacity ≤ vlPoolTableSize dest) :
    ClonesIndependently src dest heap := by
  obtain ⟨copy, heap', hclone, hof⟩ := vlPoolClone_spec hinv hdest hheap (ht.total_le.trans hcap)
  obtain ⟨-, hcopy⟩ := PoolSite.clone_inv hinv ht hdest hheap hcap hclone
  refine ⟨copy, heap', hclone, fun i hi => ?_, ?_⟩
  · obtain ⟨node, node', hnode, hnode', hslot, hslot'⟩ := hof.alike.sample hof.inv hinv hi
    exact ⟨_, _, hslot', hslot, (hof.alike.block hnode hnode').2.2 _,
      hof.new _ ⟨_, node, hnode, rfl⟩⟩
  -- both pools are mirrors of the source before the call
  have hold : ∀ {k node}, src.object.pool.lookupTable k = some node →
      node.elements < heap.allocated :=
    fun hk => (hinv.chain.elements_lt hk).trans_le hheap
  have horiginal : src.Mirrors heap' src heap := by
    refine ⟨rfl, hinv, hinv, ht, ht, hheap.trans hof.allocated_le, hheap, hof.fresh hfresh, hfresh,
      rfl, rfl, rfl, rfl, fun {k node node'} hk hk' => ?_⟩
    obtain rfl := Option.some_injective _ (hk.symm.trans hk')
    exact ⟨rfl, rfl, fun offset => hof.mem_old _ (hold hk)⟩
  have hmirror : PoolSite.Mirrors ⟨copy, src.live⟩ heap' src heap :=
    ⟨rfl, hof.inv, hinv, hcopy, ht, hof.allocated_eq.le, hheap, hof.fresh hfresh, hfresh, hof.alike⟩
  refine Component.refines_of_simulation poolPair_simulation ⟨horiginal, hmirror, fun b hb hb' => ?_⟩
  have hlt := (hinv.owns_lt hb).trans_le hheap
  exact absurd (hof.new b hb') (Nat.not_le.mpr hlt)

/-- A pool that refines its original answers any number of takes. -/
theorem exists_takes {s : PoolSite} {q : (PoolSite × PoolHeap ν) × (PoolSite × PoolHeap ν)}
    {tableSize room growth : ℕ}
    (href : (poolPair ν).Refines ((soloPool ν).both (soloPool ν)) (src, s, heap) q)
    (hconf : s.Confined heap tableSize room growth) (n : ℕ) :
    ∃ ops src' s' heap' q', ((poolPair ν).against ((soloPool ν).both (soloPool ν))).Run
        ((src, s, heap), q) ops ((src', s', heap'), q') ∧
      s'.Confined heap' tableSize room growth ∧ s'.live.length = s.live.length + n := by
  induction n with
  | zero => exact ⟨[], src, s, heap, q, .nil _, hconf, rfl⟩
  | succ n ih =>
    obtain ⟨ops, src', s', heap', q', hrun, hconf', hlength⟩ := ih
    obtain ⟨r, ⟨src'', s'', heap''⟩, q'', hcall, -, hrun'⟩ :=
      href.step hrun (o := .inr .take) trivial
    obtain ⟨⟨r', site, heap₁⟩, htake, hend⟩ := exists_of_bind_eq_ok hcall
    obtain ⟨-, hstate⟩ := Prod.mk.inj (Except.ok.inj hend)
    obtain ⟨-, hstate⟩ := Prod.mk.inj hstate
    obtain ⟨rfl, rfl⟩ := Prod.mk.inj hstate
    obtain ⟨hconf'', hlength'⟩ := hconf'.take htake
    exact ⟨_, _, _, _, _, hrun', hconf'', by omega⟩

end Independence

end VeritableLasagna
