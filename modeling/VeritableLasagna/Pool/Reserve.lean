import VeritableLasagna.Pool.Nodes

/-!
# What a reservation guarantees

`vlPoolReserve` counts what its blocks have not handed out, returned or never used, and adds blocks
until that is enough. A take, on the other hand, looks at the free stack first and then for a block
that is not expended. The invariant makes the two agree: while anything is **available**, a take finds
it, adds no block and uses up one (`vlPoolTake_available`).
-/

namespace VeritableLasagna

/-- `n` calls of `vlPoolTake` in turn: the indices they hand out, newest first. -/
def vlPoolTakes (pool : VlPool) : ℕ → Except Fault (List VlPoolIdx × VlPool)
  | 0 => .ok ([], pool)
  | n + 1 => do
    let (taken, pool) ← vlPoolTakes pool n
    let (i, pool) ← vlPoolTake pool
    return (i :: taken, pool)

section Reserve

variable {pool pool' : VlPool} {live : List VlPoolIdx} {n k : ℕ} {node : VlPoolNode}

/-! ### What is available -/

/-- What a block has not handed out. -/
def VlPool.unused (pool : VlPool) (k : ℕ) : ℕ :=
  match pool.lookupTable k with
  | some node => node.blockSize - node.totalTaken
  | none => 0

theorem VlPool.unused_eq (hk : pool.lookupTable k = some node) :
    pool.unused k = node.blockSize - node.totalTaken := by
  rw [unused, hk]

/-- `vlPoolReserve` counts every block once. -/
theorem vlPoolAvailable_eq_sum (pool : VlPool) :
    vlPoolAvailable pool = ∑ k ∈ Finset.range pool.lookupTotal, pool.unused k :=
  rfl

/-- A block that hands out one more has one less available. -/
theorem vlPoolAvailable_setTaken (hlt : k < pool.lookupTotal)
    (hk : pool.lookupTable k = some node) (hused : node.totalTaken < node.blockSize)
    (free : List VlPoolIdx) :
    vlPoolAvailable { pool.setTaken k node (node.totalTaken + 1) with freeStack := free } + 1 =
      vlPoolAvailable pool := by
  have hmem : k ∈ Finset.range pool.lookupTotal := Finset.mem_range.mpr hlt
  set used := { pool.setTaken k node (node.totalTaken + 1) with freeStack := free }
  have hself : used.unused k = node.blockSize - (node.totalTaken + 1) :=
    VlPool.unused_eq pool.setTaken_self
  have hother : ∀ j ∈ (Finset.range pool.lookupTotal).erase k, used.unused j = pool.unused j := by
    intro j hj
    have hlookup : used.lookupTable j = pool.lookupTable j :=
      Function.update_of_ne (Finset.ne_of_mem_erase hj) _ _
    rw [VlPool.unused, VlPool.unused, hlookup]
  have hsum : node.blockSize - node.totalTaken +
      ∑ j ∈ (Finset.range pool.lookupTotal).erase k, pool.unused j = vlPoolAvailable pool := by
    rw [← VlPool.unused_eq hk]
    exact Finset.add_sum_erase _ _ hmem
  have hsum' : node.blockSize - (node.totalTaken + 1) +
      ∑ j ∈ (Finset.range pool.lookupTotal).erase k, pool.unused j = vlPoolAvailable used := by
    rw [← hself, ← Finset.sum_congr rfl hother]
    exact Finset.add_sum_erase _ _ hmem
  omega

/-- A new block is available as a whole. -/
theorem vlPoolAvailable_newBlock (pool : VlPool) :
    vlPoolAvailable (vlPoolNodeNew pool).2 = vlPoolAvailable pool + pool.growthIncrement := by
  have htotal : (vlPoolNodeNew pool).2.lookupTotal = pool.lookupTotal + 1 := rfl
  have hnew : (vlPoolNodeNew pool).2.unused pool.lookupTotal = pool.growthIncrement :=
    VlPool.unused_eq (vlPoolNodeNew_lookup pool)
  rw [vlPoolAvailable_eq_sum, vlPoolAvailable_eq_sum, htotal, Finset.sum_range_succ, hnew]
  congr 1
  refine Finset.sum_congr rfl fun j hj => ?_
  have hother : (vlPoolNodeNew pool).2.lookupTable j = pool.lookupTable j :=
    Function.update_of_ne (Finset.mem_range.mp hj).ne _ _
  rw [VlPool.unused, VlPool.unused, hother]

/-! ### Taking what is available -/

/-- An index on the free stack is not counted as taken by its block. -/
theorem VlPool.Inv.taken_lt (h : pool.Inv live) {i : VlPoolIdx} {rest : List VlPoolIdx}
    (hfree : pool.freeStack = i :: rest) (hk : pool.lookupTable i.nodeIndex = some node) :
    node.totalTaken < node.blockSize := by
  have hhanded := h.handed_le hk
  rw [hfree, List.countP_append, List.countP_cons_of_pos (by simp), ← h.taken hk] at hhanded
  omega

/-- **A take of what is available** adds no block, and uses up one. -/
theorem vlPoolTake_available (h : pool.Inv live) (hsome : 0 < vlPoolAvailable pool) :
    ∃ i pool', vlPoolTake pool = .ok (i, pool') ∧ pool'.Inv (i :: live) ∧ pool'.Extends pool ∧
      pool'.allocated = pool.allocated ∧ vlPoolAvailable pool' + 1 = vlPoolAvailable pool := by
  obtain ⟨i, pool', hop, hinv, hext, -⟩ := vlPoolTake_spec h
  refine ⟨i, pool', hop, hinv, hext, ?_⟩
  rcases vlPoolTake_cases h with ⟨j, rest, node, hfree, hnode, hop'⟩ |
    ⟨k, node, -, hnode, hlt, -, hop'⟩ | ⟨-, hfull, -⟩
  · obtain ⟨-, rfl⟩ := Prod.mk.inj (Except.ok.inj (hop.symm.trans hop'))
    exact ⟨rfl, vlPoolAvailable_setTaken (h.chain.lt_total hnode) hnode (h.taken_lt hfree hnode) _⟩
  · obtain ⟨-, rfl⟩ := Prod.mk.inj (Except.ok.inj (hop.symm.trans hop'))
    exact ⟨rfl, vlPoolAvailable_setTaken (h.chain.lt_total hnode) hnode hlt pool.freeStack⟩
  · rw [vlPoolAvailable_eq_zero hfull] at hsome
    exact absurd hsome (Nat.lt_irrefl 0)

/-- **Run lemma**: takes of what is available add no block. -/
theorem vlPoolTakes_available (h : pool.Inv live) :
    ∀ k ≤ vlPoolAvailable pool, ∃ taken pool', vlPoolTakes pool k = .ok (taken, pool') ∧
      taken.length = k ∧ pool'.Inv (taken ++ live) ∧ pool'.Extends pool ∧
      pool'.allocated = pool.allocated ∧ vlPoolAvailable pool' + k = vlPoolAvailable pool := by
  intro k
  induction k with
  | zero => exact fun _ => ⟨[], pool, rfl, rfl, h, .refl pool, rfl, rfl⟩
  | succ k ih =>
    intro hk
    obtain ⟨taken, pool₁, hop, hlen, hinv, hext, halloc, havail⟩ := ih (by omega)
    obtain ⟨i, pool₂, hop', hinv', hext', halloc', havail'⟩ :=
      vlPoolTake_available hinv (by omega)
    refine ⟨i :: taken, pool₂, ?_, by rw [List.length_cons, hlen], hinv', hext'.trans hext,
      halloc'.trans halloc, by omega⟩
    rw [vlPoolTakes, hop, ok_bind]
    dsimp only
    rw [hop']
    rfl

/-! ### Reserving -/

/-- The loop of `vlPoolReserve` ends when enough is available. -/
theorem vlPoolReserveLoop_available :
    ∀ (fuel : ℕ) (pool : VlPool),
      vlPoolReserveLoop n fuel pool (vlPoolAvailable pool) = .ok pool' →
        n ≤ vlPoolAvailable pool' := by
  intro fuel
  induction fuel with
  | zero =>
    intro pool hop
    rw [vlPoolReserveLoop] at hop
    split_ifs at hop with hlt
    obtain rfl := Except.ok.inj hop
    exact Nat.le_of_not_lt hlt
  | succ fuel ih =>
    intro pool hop
    rw [vlPoolReserveLoop] at hop
    split_ifs at hop with hlt
    · have hnew : (vlPoolNodeNew pool).2.lookupTable (vlPoolNodeNew pool).1 = _ :=
        vlPoolNodeNew_lookup pool
      dsimp only at hop
      rw [hnew, deref_some, ok_bind] at hop
      refine ih (vlPoolNodeNew pool).2 ?_
      rw [vlPoolAvailable_newBlock]
      exact hop
    · obtain rfl := Except.ok.inj hop
      exact Nat.le_of_not_lt hlt

/-- **`vlPoolReserve`** makes enough available. -/
theorem vlPoolReserve_available (hop : vlPoolReserve pool n = .ok pool') :
    n ≤ vlPoolAvailable pool' := by
  rw [vlPoolReserve] at hop
  split_ifs at hop with hn
  · exact hn ▸ Nat.zero_le _
  · exact vlPoolReserveLoop_available n pool hop

end Reserve

/-- **A reservation is good for its takes.** In every state a run of the pool reaches, `vlPoolReserve`
returns, and as many takes as were reserved return one after the other without allocating a block.
They hand out indices that are distinct and not live, and every live index keeps its slot, so that it
keeps its element. -/
theorem vlPoolReserve_takes {elementSize alignment : ℕ} {ops : List VlPoolOp} {s : PoolState}
    (h : poolMachine.Run (.init elementSize alignment) ops s) (n : ℕ) :
    ∃ reserved, vlPoolReserve s.pool n = .ok reserved ∧
      ∀ k ≤ n, ∃ taken pool, vlPoolTakes reserved k = .ok (taken, pool) ∧ taken.length = k ∧
        pool.allocated = reserved.allocated ∧ (taken ++ s.live).Nodup ∧
        ∀ i ∈ s.live, ∃ slot, vlPoolSample s.pool i = some slot ∧
          vlPoolSample reserved i = some slot ∧ vlPoolSample pool i = some slot := by
  have hinv := poolMachine_inv h
  obtain ⟨reserved, hop, hinv', hext⟩ := vlPoolReserve_spec hinv n
  refine ⟨reserved, hop, fun k hk => ?_⟩
  obtain ⟨taken, pool, htakes, hlen, hinv'', hext', halloc, -⟩ :=
    vlPoolTakes_available hinv' k (hk.trans (vlPoolReserve_available hop))
  refine ⟨taken, pool, htakes, hlen, halloc, hinv''.live_nodup, fun i hi => ?_⟩
  obtain ⟨node, hnode, -⟩ := hinv.exists_block hi
  have hslot : vlPoolSample s.pool i =
      some ⟨node.elements, i.elementIndex * s.pool.elementSize⟩ := by
    rw [vlPoolSample, hnode, Option.map_some]
  exact ⟨_, hslot, hext i _ hslot, hext' i _ (hext i _ hslot)⟩

/-- Two indices taken, one of them returned, and forty reserved. -/
theorem vlPoolReserve_takes_forty :
    ∃ s, poolMachine.Run (.init 4 8) [.take, .take, .ret ⟨0, 0⟩] s ∧
      ∃ reserved, vlPoolReserve s.pool 40 = .ok reserved ∧
        ∃ taken pool, vlPoolTakes reserved 40 = .ok (taken, pool) ∧
          pool.allocated = reserved.allocated := by
  have hexec : (poolMachine.exec (.init 4 8) [.take, .take, .ret ⟨0, 0⟩]).any
      (fun _ => true) = true := by decide
  obtain ⟨s, hrun, -⟩ := Machine.exists_run_of_exec hexec
  obtain ⟨reserved, hop, htakes⟩ := vlPoolReserve_takes hrun 40
  obtain ⟨taken, pool, htake, -, halloc, -⟩ := htakes 40 le_rfl
  exact ⟨s, hrun, reserved, hop, taken, pool, htake, halloc⟩

end VeritableLasagna
