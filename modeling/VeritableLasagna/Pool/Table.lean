import VeritableLasagna.Pool.Runs

/-!
# The lookup table of a pool

What a pool can hold is the sum of the sizes of its blocks (`VlPool.capacity`); every live index takes
up one place of it.

The entries of the lookup table are one thing, the memory they are stored in is another:
`lookupCapacity` says how many entries the pool believes to have, and a `VlPoolObject` also knows how
many were really allocated. Every block that a pool adds is stored in the table, and a store beyond
the allocation is a fault.

As long as the capacity is not more than what was allocated (`VlPoolObject.Tabled`), a table that is
full is reallocated in time and no store faults.
-/

namespace VeritableLasagna

/-! ### What a pool can hold -/

namespace VlPool

/-- The size of a block, zero if there is none. -/
def sizeOf (pool : VlPool) (k : ℕ) : ℕ :=
  match pool.lookupTable k with
  | some node => node.blockSize
  | none => 0

/-- The elements in the blocks of a pool, taken or not. -/
def capacity (pool : VlPool) : ℕ := ∑ k ∈ Finset.range pool.lookupTotal, pool.sizeOf k

variable {pool : VlPool} {live : List VlPoolIdx}

theorem sizeOf_eq {k : ℕ} {node : VlPoolNode} (hk : pool.lookupTable k = some node) :
    pool.sizeOf k = node.blockSize := by
  rw [sizeOf, hk]

/-- The counters and the free stack do not matter. -/
theorem capacity_setTaken {k : ℕ} {node : VlPoolNode} (hk : pool.lookupTable k = some node)
    (n cap : ℕ) (free : List VlPoolIdx) :
    capacity { pool.setTaken k node n with freeCapacity := cap, freeStack := free } =
      pool.capacity := by
  refine Finset.sum_congr rfl fun j _ => ?_
  change (pool.setTaken k node n).sizeOf j = pool.sizeOf j
  by_cases hj : j = k
  · rw [hj, sizeOf_eq hk, sizeOf_eq pool.setTaken_self]
  · have hother : (pool.setTaken k node n).lookupTable j = pool.lookupTable j :=
      Function.update_of_ne hj _ _
    rw [sizeOf, sizeOf, hother]

/-- A new block adds its size. -/
theorem capacity_newBlock (pool : VlPool) :
    (vlPoolNodeNew pool).2.capacity = pool.capacity + pool.growthIncrement := by
  have htotal : (vlPoolNodeNew pool).2.lookupTotal = pool.lookupTotal + 1 := rfl
  have hnew : (vlPoolNodeNew pool).2.sizeOf pool.lookupTotal = pool.growthIncrement :=
    sizeOf_eq (vlPoolNodeNew_lookup pool)
  rw [capacity, htotal, Finset.sum_range_succ, hnew]
  congr 1
  refine Finset.sum_congr rfl fun j hj => ?_
  have hother : (vlPoolNodeNew pool).2.lookupTable j = pool.lookupTable j :=
    Function.update_of_ne (Finset.mem_range.mp hj).ne _ _
  rw [sizeOf, sizeOf, hother]

/-- The live indices find their place. -/
theorem Inv.length_le_capacity (h : pool.Inv live) : live.length ≤ pool.capacity := by
  have hmaps : ∀ i ∈ live.toFinset, (⟨i.nodeIndex, i.elementIndex⟩ : (_ : ℕ) × ℕ) ∈
      (Finset.range pool.lookupTotal).sigma fun k => Finset.range (pool.sizeOf k) := by
    intro i hi
    obtain ⟨node, hnode, hlt⟩ := h.exists_block (List.mem_toFinset.mp hi)
    rw [Finset.mem_sigma, Finset.mem_range, Finset.mem_range, sizeOf_eq hnode]
    exact ⟨h.chain.lt_total hnode, hlt⟩
  have hinj : Set.InjOn (fun i : VlPoolIdx => (⟨i.nodeIndex, i.elementIndex⟩ : (_ : ℕ) × ℕ))
      live.toFinset := by
    intro i _ j _ hij
    obtain ⟨hnode, hindex⟩ := Sigma.mk.inj hij
    exact VlPoolIdx.ext hnode (eq_of_heq hindex)
  have hcard := Finset.card_le_card_of_injOn _ hmaps hinj
  rw [Finset.card_sigma, List.toFinset_card_of_nodup h.live_nodup] at hcard
  simp only [Finset.card_range] at hcard
  exact hcard

end VlPool

/-! ### The table -/

/-- A `vl_pool` together with the number of entries allocated for its lookup table. -/
structure VlPoolObject where
  pool : VlPool
  tableSize : ℕ

/-- The capacity of a table after one more block. -/
def vlPoolNextCapacity (total capacity : ℕ) : ℕ :=
  if total ≥ capacity then capacity * 2 else capacity

/-- The stores of `vl_PoolNodeNew` for `n` blocks in turn: a full table is reallocated to twice its
capacity. Returns the entries allocated in the end. -/
def vlPoolTableStores : ℕ → ℕ → ℕ → ℕ → Except Fault ℕ
  | 0, _, _, tableSize => .ok tableSize
  | n + 1, total, capacity, tableSize =>
    let tableSize := if total ≥ capacity then capacity * 2 else tableSize
    if total < tableSize then
      vlPoolTableStores n (total + 1) (vlPoolNextCapacity total capacity) tableSize
    else .error .outOfBounds

/-- **What a take does to the blocks**: it leaves them as they are, or adds one. -/
theorem vlPoolTake_blocks {pool pool' : VlPool} {live : List VlPoolIdx} {i : VlPoolIdx}
    (h : pool.Inv live) (hop : vlPoolTake pool = .ok (i, pool')) :
    (pool'.lookupTotal = pool.lookupTotal ∧ pool'.lookupCapacity = pool.lookupCapacity ∧
      pool'.growthIncrement = pool.growthIncrement ∧ pool'.capacity = pool.capacity) ∨
    (pool'.lookupTotal = pool.lookupTotal + 1 ∧
      pool'.lookupCapacity = vlPoolNextCapacity pool.lookupTotal pool.lookupCapacity ∧
      pool'.growthIncrement = pool.growthIncrement * 2 ∧
      pool'.capacity = pool.capacity + pool.growthIncrement) := by
  rcases vlPoolTake_cases h with ⟨j, rest, node, -, hnode, hop'⟩ |
    ⟨k, node, -, hnode, -, -, hop'⟩ | ⟨-, -, hop'⟩
  all_goals obtain ⟨-, rfl⟩ := Prod.mk.inj (Except.ok.inj (hop.symm.trans hop'))
  · exact Or.inl ⟨rfl, rfl, rfl, VlPool.capacity_setTaken hnode _ _ _⟩
  · exact Or.inl ⟨rfl, rfl, rfl, VlPool.capacity_setTaken hnode _ pool.freeCapacity pool.freeStack⟩
  · have hnew := VlPool.capacity_setTaken (vlPoolNodeNew_lookup pool) 1 pool.freeCapacity
      pool.freeStack
    exact Or.inr ⟨rfl, rfl, rfl, hnew.trans pool.capacity_newBlock⟩

namespace VlPoolObject

/-- The pool after an operation that may have added blocks. -/
def stored (o : VlPoolObject) (pool : VlPool) : Except Fault VlPoolObject := do
  let tableSize ← vlPoolTableStores (pool.lookupTotal - o.pool.lookupTotal) o.pool.lookupTotal
    o.pool.lookupCapacity o.tableSize
  return ⟨pool, tableSize⟩

/-- `vlPoolInitAligned`, with its table. -/
def init (elementSize alignment : ℕ) : VlPoolObject :=
  ⟨vlPoolInitAligned elementSize alignment, vlPoolDefaultSize⟩

/-- `vlPoolTake`, with its table. -/
def take (o : VlPoolObject) : Except Fault (VlPoolIdx × VlPoolObject) := do
  let (i, pool) ← vlPoolTake o.pool
  let o ← o.stored pool
  return (i, o)

/-- `vlPoolReturn`, with its table. -/
def ret (o : VlPoolObject) (i : VlPoolIdx) : Except Fault VlPoolObject := do
  let pool ← vlPoolReturn o.pool i
  return { o with pool }

/-- `vlPoolReserve`, with its table. -/
def reserve (o : VlPoolObject) (n : ℕ) : Except Fault VlPoolObject := do
  let pool ← vlPoolReserve o.pool n
  o.stored pool

/-- `vlPoolClear`, with its table. -/
def clear (o : VlPoolObject) : Except Fault VlPoolObject := do
  let pool ← vlPoolClear o.pool
  return { o with pool }

/-- `vlPoolReset`, with its table. -/
def reset (o : VlPoolObject) : Except Fault VlPoolObject := do
  let pool ← vlPoolReset o.pool
  return { o with pool }

/-- The table has its entries, and they were allocated. -/
structure Tabled (o : VlPoolObject) : Prop where
  total_le : o.pool.lookupTotal ≤ o.pool.lookupCapacity
  capacity_pos : 0 < o.pool.lookupCapacity
  capacity_le : o.pool.lookupCapacity ≤ o.tableSize

variable {o o' : VlPoolObject} {pool pool' : VlPool} {live : List VlPoolIdx} {n : ℕ} {i : VlPoolIdx}

theorem init_tabled (elementSize alignment : ℕ) : (init elementSize alignment).Tabled := by
  have htotal : (init elementSize alignment).pool.lookupTotal = 1 := rfl
  have hcapacity : (init elementSize alignment).pool.lookupCapacity = vlPoolDefaultSize := rfl
  refine ⟨?_, ?_, hcapacity.le⟩
  · rw [htotal, hcapacity]
    decide
  · rw [hcapacity]
    decide

/-- One store: the table stays as large as the pool believes. -/
theorem Tabled.newBlock (h : o.Tabled) :
    ∃ tableSize,
      (∀ n, vlPoolTableStores (n + 1) o.pool.lookupTotal o.pool.lookupCapacity o.tableSize =
        vlPoolTableStores n (o.pool.lookupTotal + 1)
          (vlPoolNextCapacity o.pool.lookupTotal o.pool.lookupCapacity) tableSize) ∧
      Tabled ⟨(vlPoolNodeNew o.pool).2, tableSize⟩ := by
  obtain ⟨hle, hpos, hcap⟩ := h
  have hnext : (vlPoolNodeNew o.pool).2.lookupCapacity =
      vlPoolNextCapacity o.pool.lookupTotal o.pool.lookupCapacity := rfl
  have htotal : (vlPoolNodeNew o.pool).2.lookupTotal = o.pool.lookupTotal + 1 := rfl
  refine ⟨if o.pool.lookupTotal ≥ o.pool.lookupCapacity then o.pool.lookupCapacity * 2
    else o.tableSize, fun n => ?_, ⟨?_, ?_, ?_⟩⟩
  · rw [vlPoolTableStores, if_pos]
    split_ifs <;> omega
  · rw [htotal, hnext, vlPoolNextCapacity]
    split_ifs <;> omega
  · rw [hnext, vlPoolNextCapacity]
    split_ifs <;> omega
  · rw [hnext, vlPoolNextCapacity]
    split_ifs <;> simp only <;> omega

/-- Counters and free stack do not matter to the table. -/
theorem Tabled.congr (h : o.Tabled) (htotal : pool.lookupTotal = o.pool.lookupTotal)
    (hcapacity : pool.lookupCapacity = o.pool.lookupCapacity) : Tabled ⟨pool, o.tableSize⟩ :=
  ⟨by rw [htotal, hcapacity]; exact h.total_le, by rw [hcapacity]; exact h.capacity_pos,
    by rw [hcapacity]; exact h.capacity_le⟩

/-- An operation that adds no block stores nothing. -/
theorem stored_of_eq (htotal : pool.lookupTotal = o.pool.lookupTotal) :
    o.stored pool = .ok { o with pool } := by
  rw [stored, htotal, Nat.sub_self]
  rfl

/-- A take that adds no block. -/
theorem take_of_eq (hop : vlPoolTake o.pool = .ok (i, pool))
    (htotal : pool.lookupTotal = o.pool.lookupTotal) : o.take = .ok (i, { o with pool }) := by
  rw [take, hop, ok_bind]
  dsimp only
  rw [stored_of_eq htotal, ok_bind]
  rfl

/-- **A take** on a sound table returns, and the table stays sound. -/
theorem take_spec (h : o.pool.Inv live) (ht : o.Tabled) :
    ∃ i o', o.take = .ok (i, o') ∧ vlPoolTake o.pool = .ok (i, o'.pool) ∧ o'.Tabled := by
  rcases vlPoolTake_cases h with ⟨i, rest, node, -, -, hop⟩ | ⟨k, node, -, -, -, -, hop⟩ |
    ⟨-, -, hop⟩
  · exact ⟨i, ⟨_, o.tableSize⟩, take_of_eq hop rfl, hop, ht.congr rfl rfl⟩
  · exact ⟨_, ⟨_, o.tableSize⟩, take_of_eq hop rfl, hop, ht.congr rfl rfl⟩
  · obtain ⟨tableSize, hstore, htabled⟩ := ht.newBlock
    have hone : ((vlPoolNodeNew o.pool).2.setTaken o.pool.lookupTotal
        ⟨0, o.pool.growthIncrement, o.pool.lookupTotal, o.pool.lookupHead, o.pool.allocated⟩
          1).lookupTotal - o.pool.lookupTotal = 0 + 1 := Nat.add_sub_cancel_left _ _
    refine ⟨_, ⟨_, tableSize⟩, ?_, hop, htabled.congr rfl rfl⟩
    rw [take, hop, ok_bind]
    dsimp only
    rw [stored, hone, hstore 0]
    rfl

/-- The loop of `vlPoolReserve` stores every block it adds. -/
theorem reserveLoop_stored :
    ∀ (fuel : ℕ) (o : VlPoolObject) (available : ℕ), o.Tabled →
      vlPoolReserveLoop n fuel o.pool available = .ok pool' →
      o.pool.lookupTotal ≤ pool'.lookupTotal ∧ ∃ o', o.stored pool' = .ok o' ∧ o'.pool = pool' ∧
        o'.Tabled := by
  intro fuel
  induction fuel with
  | zero =>
    intro o available ht hop
    rw [vlPoolReserveLoop] at hop
    split_ifs at hop
    obtain rfl := Except.ok.inj hop
    exact ⟨le_rfl, o, stored_of_eq rfl, rfl, ht⟩
  | succ fuel ih =>
    intro o available ht hop
    rw [vlPoolReserveLoop] at hop
    split_ifs at hop with hlt
    · have hnew : (vlPoolNodeNew o.pool).2.lookupTable (vlPoolNodeNew o.pool).1 = _ :=
        vlPoolNodeNew_lookup o.pool
      dsimp only at hop
      rw [hnew, deref_some, ok_bind] at hop
      obtain ⟨tableSize, hstore, htabled⟩ := ht.newBlock
      obtain ⟨hle, o', hstored, hpool, ht'⟩ := ih ⟨_, tableSize⟩ _ htabled hop
      have htotal : (vlPoolNodeNew o.pool).2.lookupTotal = o.pool.lookupTotal + 1 := rfl
      have hle' : o.pool.lookupTotal + 1 ≤ pool'.lookupTotal := hle
      refine ⟨by omega, o', ?_, hpool, ht'⟩
      have hsucc : pool'.lookupTotal - o.pool.lookupTotal =
          pool'.lookupTotal - (o.pool.lookupTotal + 1) + 1 := by omega
      rw [stored, hsucc, hstore]
      exact hstored
    · obtain rfl := Except.ok.inj hop
      exact ⟨le_rfl, o, stored_of_eq rfl, rfl, ht⟩

/-- **A reservation** on a sound table returns, and the table stays sound. -/
theorem reserve_spec (h : o.pool.Inv live) (ht : o.Tabled) (n : ℕ) :
    ∃ o', o.reserve n = .ok o' ∧ vlPoolReserve o.pool n = .ok o'.pool ∧ o'.Tabled := by
  obtain ⟨pool, hop, -⟩ := vlPoolReserve_spec h n
  have hstored : ∃ o', o.stored pool = .ok o' ∧ o'.pool = pool ∧ o'.Tabled := by
    have hloop := hop
    rw [vlPoolReserve] at hloop
    split_ifs at hloop
    · obtain rfl := Except.ok.inj hloop
      exact ⟨o, stored_of_eq rfl, rfl, ht⟩
    · exact (reserveLoop_stored n o _ ht hloop).2
  obtain ⟨o', hstored, rfl, ht'⟩ := hstored
  exact ⟨o', by rw [reserve, hop, ok_bind, hstored], hop, ht'⟩

/-- **A return** does not touch the table. -/
theorem ret_tabled (ht : o.Tabled) (hop : vlPoolReturn o.pool i = .ok pool) :
    Tabled ⟨pool, o.tableSize⟩ := by
  obtain ⟨node, -, hop⟩ := exists_of_bind_eq_ok hop
  obtain rfl := Except.ok.inj hop
  exact ht.congr rfl rfl

/-- **Clearing** does not touch the table. -/
theorem clear_tabled (ht : o.Tabled) (hop : vlPoolClear o.pool = .ok pool) :
    Tabled ⟨pool, o.tableSize⟩ := by
  have hloop : ∀ (fuel : ℕ) (pool pool' : VlPool) (cur : Option ℕ),
      vlPoolClearLoop fuel pool cur = .ok pool' →
        pool'.lookupTotal = pool.lookupTotal ∧ pool'.lookupCapacity = pool.lookupCapacity := by
    intro fuel
    induction fuel with
    | zero =>
      intro pool pool' cur hop
      cases cur with
      | none =>
        obtain rfl := Except.ok.inj hop
        exact ⟨rfl, rfl⟩
      | some cur => cases hop
    | succ fuel ih =>
      intro pool pool' cur hop
      cases cur with
      | none =>
        obtain rfl := Except.ok.inj hop
        exact ⟨rfl, rfl⟩
      | some cur =>
        obtain ⟨node, -, hop⟩ := exists_of_bind_eq_ok hop
        have hrest := ih _ _ _ hop
        exact hrest
  obtain ⟨pool₁, hclear, hop⟩ := exists_of_bind_eq_ok hop
  obtain rfl := Except.ok.inj hop
  obtain ⟨htotal, hcapacity⟩ := hloop _ _ _ _ hclear
  exact ht.congr htotal hcapacity

/-- **A reset** drops entries only. -/
theorem reset_tabled (ht : o.Tabled) (hop : vlPoolReset o.pool = .ok pool) :
    Tabled ⟨pool, o.tableSize⟩ := by
  have hloop : ∀ (fuel : ℕ) (pool pool' : VlPool) (cur cur' : ℕ),
      vlPoolResetLoop fuel pool cur = .ok (cur', pool') →
        pool'.lookupTotal ≤ pool.lookupTotal ∧ pool'.lookupCapacity = pool.lookupCapacity := by
    intro fuel
    induction fuel with
    | zero =>
      intro pool pool' cur cur' hop
      cases hop
    | succ fuel ih =>
      intro pool pool' cur cur' hop
      obtain ⟨node, -, hop⟩ := exists_of_bind_eq_ok hop
      dsimp only at hop
      cases hnext : node.nextLookup with
      | none =>
        rw [hnext] at hop
        obtain ⟨-, rfl⟩ := Prod.mk.inj (Except.ok.inj hop)
        exact ⟨le_rfl, rfl⟩
      | some temp =>
        rw [hnext] at hop
        obtain ⟨hle, hcapacity⟩ := ih _ _ _ _ hop
        exact ⟨hle.trans (Nat.sub_le _ _), hcapacity⟩
  obtain ⟨head, -, hop⟩ := exists_of_bind_eq_ok hop
  obtain ⟨⟨cur, pool₁⟩, hreset, hop⟩ := exists_of_bind_eq_ok hop
  obtain ⟨node, -, hop⟩ := exists_of_bind_eq_ok hop
  obtain rfl := Except.ok.inj hop
  obtain ⟨hle, hcapacity⟩ := hloop _ _ _ _ _ hreset
  refine ⟨?_, ?_, ?_⟩
  · exact (hle.trans ht.total_le).trans hcapacity.ge
  · exact ht.capacity_pos.trans_le hcapacity.ge
  · exact hcapacity.le.trans ht.capacity_le

end VlPoolObject

end VeritableLasagna
