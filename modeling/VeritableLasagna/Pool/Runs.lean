import VeritableLasagna.Pool.Invariant

/-!
# Runs of the pool

Every operation of the pool returns, and keeps the invariant (`vlPoolTake_spec` and its
siblings). A run starts at `vlPoolInitAligned` and takes, returns live indices, reserves, clears
and resets in any order; `vlPool_live_indices` reads off what holds of the live indices of every
state a run reaches, and `vlPool_sample_stable` that a live index keeps its slot.
-/

namespace VeritableLasagna

variable {pool : VlPool} {live : List VlPoolIdx}

/-! ### Specifications of the operations -/

/-- The search of `vlPoolTake` from block `k` on finds the newest block with a fresh ordinal left,
or returns with every block up to `k` expended. -/
private theorem vlPoolFindFresh_spec {table : ℕ → Option VlPoolNode} {total allocated : ℕ}
    (hchain : BlockChain table total allocated) (htable : pool.lookupTable = table) :
    ∀ (k fuel : ℕ), k < total → k < fuel →
      (vlPoolFindFresh pool fuel (some k) = .ok none ∧
        ∀ j ≤ k, ∀ node, table j = some node → node.blockSize ≤ node.totalTaken) ∨
      ∃ j node, vlPoolFindFresh pool fuel (some k) = .ok (some (j, node)) ∧
        table j = some node ∧ node.totalTaken < node.blockSize ∧
        ∀ j', j < j' → j' ≤ k → ∀ node, table j' = some node → node.blockSize ≤ node.totalTaken := by
  intro k
  induction k with
  | zero =>
    intro fuel hk hfuel
    obtain ⟨fuel, rfl⟩ : ∃ n, fuel = n + 1 := ⟨fuel - 1, by omega⟩
    obtain ⟨node, hnode⟩ := hchain.block 0 hk
    rw [vlPoolFindFresh, htable, hnode, deref_some, ok_bind]
    split_ifs with hfull
    · rw [hchain.next hnode]
      refine Or.inl ⟨by cases fuel <;> rfl, fun j hj m hm => ?_⟩
      obtain rfl := Nat.le_zero.mp hj
      obtain rfl := Option.some_injective _ (hnode.symm.trans hm)
      exact hfull
    · refine Or.inr ⟨0, node, rfl, hnode, Nat.lt_of_not_le hfull, fun j' hlt hle => ?_⟩
      omega
  | succ k ih =>
    intro fuel hk hfuel
    obtain ⟨fuel, rfl⟩ : ∃ n, fuel = n + 1 := ⟨fuel - 1, by omega⟩
    obtain ⟨node, hnode⟩ := hchain.block (k + 1) hk
    rw [vlPoolFindFresh, htable, hnode, deref_some, ok_bind]
    split_ifs with hfull
    · have hnewest : ∀ m, table (k + 1) = some m → m.blockSize ≤ m.totalTaken := by
        intro m hm
        obtain rfl := Option.some_injective _ (hnode.symm.trans hm)
        exact hfull
      rw [hchain.next hnode]
      rcases ih fuel (by omega) (by omega) with ⟨hnone, hrest⟩ | ⟨j, m, hfind, hm, hlt, hrest⟩
      · refine Or.inl ⟨hnone, fun j hj m hm => ?_⟩
        rcases Nat.le_succ_iff.mp hj with hj | rfl
        · exact hrest j hj m hm
        · exact hnewest m hm
      · refine Or.inr ⟨j, m, hfind, hm, hlt, fun j' hlt' hle m' hm' => ?_⟩
        rcases Nat.le_succ_iff.mp hle with hle | rfl
        · exact hrest j' hlt' hle m' hm'
        · exact hnewest m' hm'
    · refine Or.inr ⟨k + 1, node, rfl, hnode, Nat.lt_of_not_le hfull, fun j' hlt hle => ?_⟩
      omega

/-- The new block of `vl_PoolNodeNew`. -/
theorem vlPoolNodeNew_lookup (pool : VlPool) :
    (vlPoolNodeNew pool).2.lookupTable pool.lookupTotal =
      some ⟨0, pool.growthIncrement, pool.lookupTotal, pool.lookupHead, pool.allocated⟩ :=
  Function.update_self _ _ _

/-- **What `vlPoolTake` can do**: pop the free stack, hand out a fresh ordinal of the newest block
that has one, or, when every block is expended, the first one of a new block. -/
theorem vlPoolTake_cases (h : pool.Inv live) :
    (∃ i rest node, pool.freeStack = i :: rest ∧ pool.lookupTable i.nodeIndex = some node ∧
      vlPoolTake pool = .ok (i,
        { pool.setTaken i.nodeIndex node (node.totalTaken + 1) with freeStack := rest })) ∨
    (∃ k node, pool.freeStack = [] ∧ pool.lookupTable k = some node ∧
      node.totalTaken < node.blockSize ∧
      (∀ j, k < j → ∀ node, pool.lookupTable j = some node → node.blockSize ≤ node.totalTaken) ∧
      vlPoolTake pool = .ok (⟨k, node.totalTaken⟩, pool.setTaken k node (node.totalTaken + 1))) ∨
    (pool.freeStack = [] ∧
      (∀ j node, pool.lookupTable j = some node → node.blockSize ≤ node.totalTaken) ∧
      vlPoolTake pool = .ok (⟨pool.lookupTotal, 0⟩,
        (vlPoolNodeNew pool).2.setTaken pool.lookupTotal
          ⟨0, pool.growthIncrement, pool.lookupTotal, pool.lookupHead, pool.allocated⟩ 1)) := by
  rw [vlPoolTake]
  cases hfree : pool.freeStack with
  | cons i rest =>
    have hi : i ∈ live ++ pool.freeStack := by simp [hfree]
    obtain ⟨node, hnode⟩ := h.chain.block _ ((h.mem_iff i).mp hi).1
    refine Or.inl ⟨i, rest, node, rfl, hnode, ?_⟩
    dsimp only
    rw [hnode]
    rfl
  | nil =>
    have hpos := h.chain.total_pos
    have hsearch := vlPoolFindFresh_spec h.chain rfl (pool.lookupTotal - 1) pool.lookupTotal
      (by omega) (by omega)
    rw [← h.head_eq] at hsearch
    rcases hsearch with ⟨hnone, hfull⟩ | ⟨k, node, hfind, hnode, hlt, hfull⟩
    · refine Or.inr (Or.inr ⟨rfl, fun j node hj => ?_, ?_⟩)
      · have hjt := h.chain.lt_total hj
        exact hfull j (by omega) node hj
      · have hnew : (vlPoolNodeNew pool).2.lookupTable (vlPoolNodeNew pool).1 = _ :=
          vlPoolNodeNew_lookup pool
        rw [hnone, ok_bind]
        dsimp only
        rw [hnew]
        rfl
    · refine Or.inr (Or.inl ⟨k, node, rfl, hnode, hlt, fun j hkj m hm => ?_, ?_⟩)
      · have hjt := h.chain.lt_total hm
        exact hfull j hkj (by omega) m hm
      rw [hfind, ← h.chain.ordinal hnode]
      rfl

/-- Blocks are never dropped or replaced by an operation that only moves counters or adds
blocks: a slot once there stays. -/
def VlPool.Extends (pool' pool : VlPool) : Prop :=
  ∀ i p, vlPoolSample pool i = some p → vlPoolSample pool' i = some p

theorem VlPool.Extends.refl (pool : VlPool) : pool.Extends pool := fun _ _ h => h

theorem VlPool.Extends.trans {p q r : VlPool} (h : r.Extends q) (h' : q.Extends p) :
    r.Extends p := fun i s hs => h i s (h' i s hs)

theorem VlPool.extends_setTaken {k n cap : ℕ} {node : VlPoolNode} {free : List VlPoolIdx}
    (hk : pool.lookupTable k = some node) :
    VlPool.Extends { pool.setTaken k node n with freeCapacity := cap, freeStack := free } pool := by
  intro i p hp
  simp only [vlPoolSample, Option.map_eq_some_iff] at hp ⊢
  obtain ⟨m, hm, rfl⟩ := hp
  by_cases hi : i.nodeIndex = k
  · rw [hi] at hm ⊢
    obtain rfl := Option.some_injective _ (hk.symm.trans hm)
    exact ⟨_, Function.update_self _ _ _, rfl⟩
  · exact ⟨m, (Function.update_of_ne hi _ _).trans hm, rfl⟩

theorem VlPool.Inv.extends_newBlock (h : pool.Inv live) :
    (vlPoolNodeNew pool).2.Extends pool := by
  intro i p hp
  simp only [vlPoolSample, Option.map_eq_some_iff] at hp ⊢
  obtain ⟨m, hm, rfl⟩ := hp
  have hne : i.nodeIndex ≠ pool.lookupTotal := (h.chain.lt_total hm).ne
  exact ⟨m, (Function.update_of_ne hne _ _).trans hm, rfl⟩

/-- **`vlPoolTake`** hands out an index that was not live. -/
theorem vlPoolTake_spec (h : pool.Inv live) :
    ∃ i pool', vlPoolTake pool = .ok (i, pool') ∧ pool'.Inv (i :: live) ∧ pool'.Extends pool ∧
      pool'.elementSize = pool.elementSize := by
  rcases vlPoolTake_cases h with ⟨i, rest, node, hfree, hnode, hop⟩ |
    ⟨k, node, hfree, hnode, hlt, -, hop⟩ | ⟨hfree, -, hop⟩
  · exact ⟨i, _, hop, h.popFree hfree hnode, VlPool.extends_setTaken hnode, rfl⟩
  · exact ⟨_, _, hop, h.takeFresh hfree hnode hlt, VlPool.extends_setTaken hnode, rfl⟩
  · have hnew := vlPoolNodeNew_lookup pool
    refine ⟨_, _, hop, h.newBlock.takeFresh hfree hnew h.growth_pos, ?_, rfl⟩
    exact (VlPool.extends_setTaken hnew).trans h.extends_newBlock

/-- **`vlPoolReturn`** of a live index ends its life. -/
theorem vlPoolReturn_spec (h : pool.Inv live) {i : VlPoolIdx} (hi : i ∈ live) :
    ∃ pool', vlPoolReturn pool i = .ok pool' ∧ pool'.Inv (live.erase i) ∧ pool'.Extends pool ∧
      pool'.elementSize = pool.elementSize := by
  obtain ⟨node, hnode, -⟩ := h.exists_block hi
  exact ⟨_, by rw [vlPoolReturn, hnode]; rfl, h.pushFree hi hnode _,
    VlPool.extends_setTaken hnode, rfl⟩

private theorem vlPoolReserveLoop_spec (n : ℕ) :
    ∀ (fuel : ℕ) (pool : VlPool) (available : ℕ), pool.Inv live → n ≤ available + fuel →
      ∃ pool', vlPoolReserveLoop n fuel pool available = .ok pool' ∧ pool'.Inv live ∧
        pool'.Extends pool := by
  intro fuel
  induction fuel with
  | zero =>
    intro pool available h hn
    exact ⟨pool, by rw [vlPoolReserveLoop, if_neg (by omega)], h, .refl pool⟩
  | succ fuel ih =>
    intro pool available h hn
    rw [vlPoolReserveLoop]
    split_ifs with hlt
    · have hnew : (vlPoolNodeNew pool).2.lookupTable (vlPoolNodeNew pool).1 =
          some ⟨0, pool.growthIncrement, pool.lookupTotal, pool.lookupHead, pool.allocated⟩ :=
        Function.update_self _ _ _
      have hgrowth := h.growth_pos
      obtain ⟨pool', hloop, hinv, hext⟩ :=
        ih (vlPoolNodeNew pool).2 (available + pool.growthIncrement) h.newBlock (by omega)
      refine ⟨pool', ?_, hinv, hext.trans h.extends_newBlock⟩
      dsimp only
      rw [hnew, deref_some, ok_bind]
      exact hloop
    · exact ⟨pool, rfl, h, .refl pool⟩

/-- **`vlPoolReserve`** only adds blocks. -/
theorem vlPoolReserve_spec (h : pool.Inv live) (n : ℕ) :
    ∃ pool', vlPoolReserve pool n = .ok pool' ∧ pool'.Inv live ∧ pool'.Extends pool := by
  rw [vlPoolReserve]
  split_ifs with hn
  · exact ⟨pool, rfl, h, .refl pool⟩
  · exact vlPoolReserveLoop_spec n n pool _ h (Nat.le_add_left _ _)

private theorem vlPoolClearLoop_spec {total allocated : ℕ} :
    ∀ (k fuel : ℕ) (pool : VlPool), BlockChain pool.lookupTable total allocated →
      k < total → k < fuel →
      (∀ j node, k < j → pool.lookupTable j = some node → node.totalTaken = 0) →
      ∃ table, vlPoolClearLoop fuel pool (some k) = .ok { pool with lookupTable := table } ∧
        BlockChain table total allocated ∧
        ∀ j node, table j = some node → node.totalTaken = 0 := by
  intro k
  induction k with
  | zero =>
    intro fuel pool hchain hk hfuel hzero
    obtain ⟨fuel, rfl⟩ : ∃ n, fuel = n + 1 := ⟨fuel - 1, by omega⟩
    obtain ⟨node, hnode⟩ := hchain.block 0 hk
    refine ⟨_, ?_, hchain.update hnode 0, fun j m hm => ?_⟩
    · rw [vlPoolClearLoop, hnode, deref_some, ok_bind]
      conv_lhs => rw [hchain.next hnode]
      cases fuel <;> rfl
    · obtain ⟨m', hm', rfl⟩ := BlockChain.lookup_update hnode hm
      dsimp only
      split_ifs with hj
      · rfl
      · exact hzero j m' (Nat.pos_of_ne_zero hj) hm'
  | succ k ih =>
    intro fuel pool hchain hk hfuel hzero
    obtain ⟨fuel, rfl⟩ : ∃ n, fuel = n + 1 := ⟨fuel - 1, by omega⟩
    obtain ⟨node, hnode⟩ := hchain.block (k + 1) hk
    obtain ⟨table, hloop, hchain', hzero'⟩ := ih fuel (pool.setTaken (k + 1) node 0)
      (hchain.update hnode 0) (by omega) (by omega) fun j m hj hm => by
        obtain ⟨m', hm', rfl⟩ := BlockChain.lookup_update hnode hm
        dsimp only
        split_ifs with hjk
        · rfl
        · exact hzero j m' (by omega) hm'
    refine ⟨table, ?_, hchain', hzero'⟩
    rw [vlPoolClearLoop, hnode, deref_some, ok_bind]
    conv_lhs => rw [hchain.next hnode]
    exact hloop

/-- **`vlPoolClear`** leaves nothing live. -/
theorem vlPoolClear_spec (h : pool.Inv live) :
    ∃ pool', vlPoolClear pool = .ok pool' ∧ pool'.Inv [] ∧
      pool'.elementSize = pool.elementSize := by
  have hpos := h.chain.total_pos
  obtain ⟨table, hloop, hchain, hzero⟩ := vlPoolClearLoop_spec (pool.lookupTotal - 1)
    pool.lookupTotal pool h.chain (by omega) (by omega) fun j node hj hnode => by
      have := h.chain.lt_total hnode
      omega
  rw [← h.head_eq] at hloop
  refine ⟨{ pool with lookupTable := table, freeStack := [] },
    by rw [vlPoolClear, hloop]; rfl, ?_, rfl⟩
  exact .of_empty hchain h.head_eq h.growth_pos rfl fun hk => hzero _ _ hk

private theorem vlPoolResetLoop_spec :
    ∀ (k fuel : ℕ) (pool : VlPool),
      BlockChain pool.lookupTable pool.lookupTotal pool.allocated →
      pool.lookupTotal = k + 1 → k < fuel →
      ∃ pool' node, vlPoolResetLoop fuel pool k = .ok (0, pool') ∧ pool'.lookupTotal = 1 ∧
        BlockChain pool'.lookupTable 1 pool'.allocated ∧
        pool'.lookupTable 0 = some node ∧ node.totalTaken = 0 := by
  intro k
  induction k with
  | zero =>
    intro fuel pool hchain htotal hfuel
    obtain ⟨fuel, rfl⟩ : ∃ n, fuel = n + 1 := ⟨fuel - 1, by omega⟩
    obtain ⟨node, hnode⟩ := hchain.block 0 (by omega)
    refine ⟨pool.setTaken 0 node 0, { node with totalTaken := 0 }, ?_, htotal,
      by have := hchain.update hnode 0; rwa [htotal] at this, pool.setTaken_self, rfl⟩
    rw [vlPoolResetLoop, hnode, deref_some, ok_bind]
    simp only [hchain.next hnode, olderBlock, pure_eq_ok]
  | succ k ih =>
    intro fuel pool hchain htotal hfuel
    obtain ⟨fuel, rfl⟩ : ∃ n, fuel = n + 1 := ⟨fuel - 1, by omega⟩
    obtain ⟨node, hnode⟩ := hchain.block (k + 1) (by omega)
    have hchain' := hchain.update hnode 0
    rw [htotal] at hchain'
    obtain ⟨pool', node', hloop, hrest⟩ := ih fuel
      { pool.setTaken (k + 1) node 0 with
        lookupTable := Function.update (pool.setTaken (k + 1) node 0).lookupTable (k + 1) none
        lookupTotal := k + 1 } (hchain'.pop k.succ_pos) rfl (by omega)
    refine ⟨pool', node', ?_, hrest⟩
    rw [vlPoolResetLoop, hnode, deref_some, ok_bind]
    simp only [hchain.next hnode, olderBlock, hchain.ordinal hnode]
    rw [← hloop]
    simp only [VlPool.setTaken, htotal, Nat.add_sub_cancel]

/-- **`vlPoolReset`** leaves nothing live and the oldest block only. -/
theorem vlPoolReset_spec (h : pool.Inv live) :
    ∃ pool', vlPoolReset pool = .ok pool' ∧ pool'.Inv [] ∧ pool'.lookupTotal = 1 := by
  have hpos := h.chain.total_pos
  obtain ⟨pool', node, hloop, htotal, hchain, hnode, hzero⟩ :=
    vlPoolResetLoop_spec (pool.lookupTotal - 1) pool.lookupTotal pool h.chain (by omega)
      (by omega)
  refine ⟨{ pool' with growthIncrement := node.blockSize, lookupHead := some 0, freeStack := [] },
    ?_, ?_, htotal⟩
  · rw [vlPoolReset, h.head_eq, deref_some, ok_bind, hloop, ok_bind]
    dsimp only
    rw [hnode]
    rfl
  refine .of_empty (by dsimp only; rwa [htotal]) (by dsimp only; rw [htotal])
    (hchain.size_pos hnode) rfl fun {k m} hk => ?_
  obtain rfl := Nat.lt_one_iff.mp (hchain.lt_total hk)
  obtain rfl := Option.some_injective _ (hnode.symm.trans hk)
  exact hzero

/-! ### The pool machine -/

/-- The operations of a caller of the pool. -/
inductive VlPoolOp
  | take
  | ret (idx : VlPoolIdx)
  | reserve (n : ℕ)
  | clear
  | reset
  deriving DecidableEq

/-- A pool together with the indices handed out and not yet returned, newest first. -/
structure PoolState where
  pool : VlPool
  live : List VlPoolIdx

/-- The state after `vlPoolInitAligned`. -/
def PoolState.init (elementSize alignment : ℕ) : PoolState :=
  ⟨vlPoolInitAligned elementSize alignment, []⟩

/-- One operation, with the bookkeeping of the live indices. -/
def poolStep (s : PoolState) : VlPoolOp → Except Fault PoolState
  | .take => do
    let (i, pool) ← vlPoolTake s.pool
    return ⟨pool, i :: s.live⟩
  | .ret i => do
    let pool ← vlPoolReturn s.pool i
    return ⟨pool, s.live.erase i⟩
  | .reserve n => do
    let pool ← vlPoolReserve s.pool n
    return ⟨pool, s.live⟩
  | .clear => do
    let pool ← vlPoolClear s.pool
    return ⟨pool, []⟩
  | .reset => do
    let pool ← vlPoolReset s.pool
    return ⟨pool, []⟩

/-- The pool as a machine: only live indices may be returned. -/
def poolMachine : Machine PoolState VlPoolOp where
  guard s
    | .ret i => i ∈ s.live
    | _ => True
  step := poolStep

instance (s : PoolState) : ∀ o, Decidable (poolMachine.guard s o)
  | .ret i => inferInstanceAs (Decidable (i ∈ s.live))
  | .take | .reserve _ | .clear | .reset => inferInstanceAs (Decidable True)

/-- An operation that may end the life of index `i`. -/
def VlPoolOp.Ends (i : VlPoolIdx) : VlPoolOp → Prop
  | .ret j => j = i
  | .clear => True
  | .reset => True
  | _ => False

/-- Every guarded operation returns and keeps the invariant, and an index whose life it does not
end stays live in its slot. -/
theorem poolStep_spec {s : PoolState} (h : s.pool.Inv s.live) {o : VlPoolOp}
    (hg : poolMachine.guard s o) :
    ∃ s', poolStep s o = .ok s' ∧ s'.pool.Inv s'.live ∧
      ∀ i ∈ s.live, ¬ o.Ends i →
        i ∈ s'.live ∧ vlPoolSample s'.pool i = vlPoolSample s.pool i := by
  -- an extension of the pool keeps the slot of every index that is live
  have hslot : ∀ {pool' : VlPool}, pool'.Extends s.pool → ∀ i ∈ s.live,
      vlPoolSample pool' i = vlPoolSample s.pool i := by
    intro pool' hext i hi
    obtain ⟨node, hnode, -⟩ := h.exists_block hi
    have hs : vlPoolSample s.pool i =
        some ⟨node.elements, i.elementIndex * s.pool.elementSize⟩ := by
      rw [vlPoolSample, hnode, Option.map_some]
    rw [hs, hext i _ hs]
  cases o with
  | take =>
    obtain ⟨i, pool, hop, hinv, hext, -⟩ := vlPoolTake_spec h
    exact ⟨⟨pool, i :: s.live⟩, by rw [poolStep, hop]; rfl, hinv,
      fun j hj _ => ⟨List.mem_cons_of_mem _ hj, hslot hext j hj⟩⟩
  | ret i =>
    obtain ⟨pool, hop, hinv, hext, -⟩ := vlPoolReturn_spec h hg
    exact ⟨⟨pool, s.live.erase i⟩, by rw [poolStep, hop]; rfl, hinv,
      fun j hj hne => ⟨(List.mem_erase_of_ne (Ne.symm hne)).mpr hj, hslot hext j hj⟩⟩
  | reserve n =>
    obtain ⟨pool, hop, hinv, hext⟩ := vlPoolReserve_spec h n
    exact ⟨⟨pool, s.live⟩, by rw [poolStep, hop]; rfl, hinv,
      fun j hj _ => ⟨hj, hslot hext j hj⟩⟩
  | clear =>
    obtain ⟨pool, hop, hinv, -⟩ := vlPoolClear_spec h
    exact ⟨⟨pool, []⟩, by rw [poolStep, hop]; rfl, hinv, fun _ _ hne => absurd trivial hne⟩
  | reset =>
    obtain ⟨pool, hop, hinv, -⟩ := vlPoolReset_spec h
    exact ⟨⟨pool, []⟩, by rw [poolStep, hop]; rfl, hinv, fun _ _ hne => absurd trivial hne⟩

theorem poolStep_inv (s : PoolState) (o : VlPoolOp) (s' : PoolState) (h : s.pool.Inv s.live)
    (hg : poolMachine.guard s o) (hstep : poolMachine.step s o = .ok s') :
    s'.pool.Inv s'.live := by
  obtain ⟨s'', hop, hinv, -⟩ := poolStep_spec h hg
  obtain rfl := Except.ok.inj (hop.symm.trans hstep)
  exact hinv

/-- Every state a run reaches satisfies the invariant. -/
theorem poolMachine_inv {elementSize alignment : ℕ} {ops : List VlPoolOp} {s : PoolState}
    (h : poolMachine.Run (.init elementSize alignment) ops s) : s.pool.Inv s.live :=
  Machine.Run.invariant (I := fun s => s.pool.Inv s.live) poolStep_inv h
    (vlPoolInitAligned_inv elementSize alignment)

/-- A live index keeps its slot, and stays live, as long as nothing ends its life. -/
theorem vlPoolSample_stable {s s' : PoolState} {ops : List VlPoolOp} (h : poolMachine.Run s ops s')
    (hinv : s.pool.Inv s.live) {i : VlPoolIdx} (hi : i ∈ s.live)
    (hops : ∀ o ∈ ops, ¬ o.Ends i) :
    i ∈ s'.live ∧ vlPoolSample s'.pool i = vlPoolSample s.pool i := by
  induction h with
  | nil s => exact ⟨hi, rfl⟩
  | @cons s s₁ s₂ o os hg hstep _ ih =>
    obtain ⟨s₁', hop, hinv₁, hkeep⟩ := poolStep_spec hinv hg
    obtain rfl := Except.ok.inj (hop.symm.trans hstep)
    obtain ⟨hi₁, hslot⟩ := hkeep i hi (hops o List.mem_cons_self)
    obtain ⟨hmem, hsample⟩ := ih hinv₁ hi₁ fun o' ho' => hops o' (List.mem_cons_of_mem _ ho')
    exact ⟨hmem, hsample.trans hslot⟩

/-- **Pool indices.** In every state a run of the pool reaches from `vlPoolInitAligned`, every
operation the caller may ask for returns, the indices handed out and not yet returned are pairwise
distinct, each names an existing block and an ordinal below that block's size, and each keeps
denoting the same slot of the same block through every further run that neither returns it nor
clears or resets the pool. -/
theorem vlPool_live_indices {elementSize alignment : ℕ} {ops : List VlPoolOp} {s : PoolState}
    (h : poolMachine.Run (.init elementSize alignment) ops s) :
    (∀ o, poolMachine.guard s o → ∃ s', poolMachine.step s o = .ok s') ∧
    s.live.Nodup ∧
    (∀ i ∈ s.live, ∃ node, s.pool.lookupTable i.nodeIndex = some node ∧
      node.blockOrdinal = i.nodeIndex ∧ i.elementIndex < node.blockSize) ∧
    ∀ i ∈ s.live, ∃ slot, vlPoolSample s.pool i = some slot ∧
      ∀ ops' s', poolMachine.Run s ops' s' → (∀ o ∈ ops', ¬ o.Ends i) →
        vlPoolSample s'.pool i = some slot := by
  have hinv := poolMachine_inv h
  refine ⟨fun o hg => ?_, hinv.live_nodup, fun i hi => ?_, fun i hi => ?_⟩
  · obtain ⟨s', hstep, -⟩ := poolStep_spec hinv hg
    exact ⟨s', hstep⟩
  · obtain ⟨node, hnode, hlt⟩ := hinv.exists_block hi
    exact ⟨node, hnode, hinv.chain.ordinal hnode, hlt⟩
  · obtain ⟨node, hnode, -⟩ := hinv.exists_block hi
    refine ⟨⟨node.elements, i.elementIndex * s.pool.elementSize⟩, ?_, fun ops' s' hrun hops => ?_⟩
    · rw [vlPoolSample, hnode, Option.map_some]
    · rw [(vlPoolSample_stable hrun hinv hi hops).2, vlPoolSample, hnode, Option.map_some]

/-- The rule on a concrete run: two indices taken, the first returned and taken again. -/
theorem vlPool_live_indices_take_ret_take :
    ∃ s, poolMachine.Run (.init 4 8) [.take, .take, .ret ⟨0, 0⟩, .take] s ∧
      s.live = [⟨0, 0⟩, ⟨0, 1⟩] ∧ s.live.Nodup := by
  have hexec : (poolMachine.exec (.init 4 8) [.take, .take, .ret ⟨0, 0⟩, .take]).any
      (fun s => s.live = [⟨0, 0⟩, ⟨0, 1⟩]) = true := by decide
  obtain ⟨s, h, hlive⟩ := Machine.exists_run_of_exec hexec
  exact ⟨s, h, by simpa using hlive, (vlPool_live_indices h).2.1⟩

end VeritableLasagna
