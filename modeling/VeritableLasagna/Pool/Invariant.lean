import VeritableLasagna.Pool.Basic

/-!
# The pool invariant

`totalTaken` of a block is a live counter (`vlPoolReturn` decrements it) and, at the same time,
the next fresh ordinal that `vlPoolTake` hands out. Both readings agree only because the free
stack is drained first. `VlPool.Inv` makes this exact: an index is live or on the free stack just
when its ordinal is below the number of such indices of its block, and `totalTaken` counts the
live ones; with an empty free stack the two numbers coincide.

The shape of the block chain is a predicate of its own (`BlockChain`), which the loops over the
chain go by. Each primitive transition of the pool keeps the invariant, and so does every
operation; along a run, `vlPoolSample` keeps the slot of an index until the index is returned or
the pool is cleared or reset.
-/

namespace VeritableLasagna

/-- The block chained after block `k`: the next older one. -/
def olderBlock : ℕ → Option ℕ
  | 0 => none
  | k + 1 => some k

theorem olderBlock_pos {k : ℕ} (h : 0 < k) : olderBlock k = some (k - 1) := by
  cases k with
  | zero => exact absurd h (Nat.lt_irrefl 0)
  | succ k => rfl

/-- The lookup table holds exactly the blocks below `total`, each under its own ordinal, chained
to the next older one and with element memory of its own. -/
structure BlockChain (table : ℕ → Option VlPoolNode) (total allocated : ℕ) : Prop where
  total_pos : 0 < total
  block : ∀ k < total, ∃ node, table k = some node
  vacant : ∀ k, total ≤ k → table k = none
  ordinal : ∀ {k node}, table k = some node → node.blockOrdinal = k
  next : ∀ {k node}, table k = some node → node.nextLookup = olderBlock k
  size_pos : ∀ {k node}, table k = some node → 0 < node.blockSize
  elements_lt : ∀ {k node}, table k = some node → node.elements < allocated
  elements_inj : ∀ {k k' node node'}, table k = some node → table k' = some node' →
    node.elements = node'.elements → k = k'

namespace BlockChain

variable {table : ℕ → Option VlPoolNode} {total allocated : ℕ}

theorem lt_total (h : BlockChain table total allocated) {k : ℕ} {node : VlPoolNode}
    (hk : table k = some node) : k < total := by
  by_contra hge
  rw [h.vacant k (Nat.le_of_not_lt hge)] at hk
  cases hk

/-- What a lookup finds after a block's counter was rewritten. -/
theorem lookup_update {k j n : ℕ} {node m : VlPoolNode} (hk : table k = some node)
    (hm : Function.update table k (some { node with totalTaken := n }) j = some m) :
    ∃ m', table j = some m' ∧
      m = { m' with totalTaken := if j = k then n else m'.totalTaken } := by
  by_cases hj : j = k
  · subst hj
    simp only [Function.update_self, Option.some.injEq] at hm
    exact ⟨node, hk, by rw [if_pos rfl, hm]⟩
  · rw [Function.update_of_ne hj] at hm
    exact ⟨m, hm, by rw [if_neg hj]⟩

/-- Rewriting the counter of a block keeps the chain. -/
theorem update (h : BlockChain table total allocated) {k : ℕ} {node : VlPoolNode}
    (hk : table k = some node) (n : ℕ) :
    BlockChain (Function.update table k (some { node with totalTaken := n })) total allocated := by
  refine ⟨h.total_pos, fun j hj => ?_, fun j hj => ?_, fun hm => ?_, fun hm => ?_, fun hm => ?_,
    fun hm => ?_, fun hm hm' he => ?_⟩
  · by_cases hjk : j = k
    · rw [hjk, Function.update_self]
      exact ⟨_, rfl⟩
    · simpa only [Function.update_of_ne hjk] using h.block j hj
  · have hjk : j ≠ k := by
      rintro rfl
      exact absurd (h.lt_total hk) (Nat.not_lt.mpr hj)
    simpa only [Function.update_of_ne hjk] using h.vacant j hj
  · obtain ⟨m', hm', rfl⟩ := lookup_update hk hm
    exact (h.ordinal hm' :)
  · obtain ⟨m', hm', rfl⟩ := lookup_update hk hm
    exact (h.next hm' :)
  · obtain ⟨m', hm', rfl⟩ := lookup_update hk hm
    exact (h.size_pos hm' :)
  · obtain ⟨m', hm', rfl⟩ := lookup_update hk hm
    exact (h.elements_lt hm' :)
  · obtain ⟨m₁, h₁, rfl⟩ := lookup_update hk hm
    obtain ⟨m₂, h₂, rfl⟩ := lookup_update hk hm'
    exact h.elements_inj h₁ h₂ he

/-- A lookup in a table with one more block. -/
theorem lookup_push {node m : VlPoolNode} {j : ℕ}
    (hm : Function.update table total (some node) j = some m) :
    (j = total ∧ m = node) ∨ (j ≠ total ∧ table j = some m) := by
  by_cases hj : j = total
  · subst hj
    simp only [Function.update_self, Option.some.injEq] at hm
    exact Or.inl ⟨rfl, hm.symm⟩
  · rw [Function.update_of_ne hj] at hm
    exact Or.inr ⟨hj, hm⟩

/-- A new block in front keeps the chain. -/
theorem push (h : BlockChain table total allocated) {node : VlPoolNode}
    (hord : node.blockOrdinal = total) (hnext : node.nextLookup = some (total - 1))
    (hsize : 0 < node.blockSize) (helem : node.elements = allocated) :
    BlockChain (Function.update table total (some node)) (total + 1) (allocated + 1) := by
  have hpos := h.total_pos
  refine ⟨total.succ_pos, fun j hj => ?_, fun j hj => ?_, fun hm => ?_, fun hm => ?_,
    fun hm => ?_, fun hm => ?_, fun {j j' m m'} hm hm' he => ?_⟩
  · by_cases hjt : j = total
    · rw [hjt, Function.update_self]
      exact ⟨_, rfl⟩
    · rw [Function.update_of_ne hjt]
      exact h.block j (by omega)
  · rw [Function.update_of_ne (by omega)]
    exact h.vacant j (by omega)
  · rcases lookup_push hm with ⟨rfl, rfl⟩ | ⟨-, hm⟩
    · exact hord
    · exact h.ordinal hm
  · rcases lookup_push hm with ⟨rfl, rfl⟩ | ⟨-, hm⟩
    · rw [hnext]
      exact (olderBlock_pos hpos).symm
    · exact h.next hm
  · rcases lookup_push hm with ⟨rfl, rfl⟩ | ⟨-, hm⟩
    · exact hsize
    · exact h.size_pos hm
  · rcases lookup_push hm with ⟨rfl, rfl⟩ | ⟨-, hm⟩
    · omega
    · exact (h.elements_lt hm).trans (Nat.lt_succ_self _)
  · rcases lookup_push hm with ⟨hj, hm⟩ | ⟨-, hm⟩ <;>
      rcases lookup_push hm' with ⟨hj', hm'⟩ | ⟨-, hm'⟩
    · rw [hj, hj']
    · have hlt := h.elements_lt hm'
      rw [← he, hm, helem] at hlt
      exact absurd hlt (Nat.lt_irrefl _)
    · have hlt := h.elements_lt hm
      rw [he, hm', helem] at hlt
      exact absurd hlt (Nat.lt_irrefl _)
    · exact h.elements_inj hm hm' he

/-- Dropping the newest of two or more blocks keeps the chain. -/
theorem pop (h : BlockChain table (total + 1) allocated) (hpos : 0 < total) :
    BlockChain (Function.update table total none) total allocated := by
  have hold : ∀ {j m}, Function.update table total none j = some m → table j = some m := by
    intro j m hm
    by_cases hj : j = total
    · simp [hj] at hm
    · rwa [Function.update_of_ne hj] at hm
  refine ⟨hpos, fun j hj => ?_, fun j hj => ?_, fun hm => h.ordinal (hold hm),
    fun hm => h.next (hold hm), fun hm => h.size_pos (hold hm), fun hm => h.elements_lt (hold hm),
    fun hm hm' he => h.elements_inj (hold hm) (hold hm') he⟩
  · rw [Function.update_of_ne hj.ne]
    exact h.block j (hj.trans (Nat.lt_succ_self _))
  · by_cases hjt : j = total
    · rw [hjt, Function.update_self]
    · rw [Function.update_of_ne hjt]
      exact h.vacant j (by omega)

end BlockChain

/-- The **pool invariant**, relative to the indices handed out and not yet returned. -/
structure VlPool.Inv (pool : VlPool) (live : List VlPoolIdx) : Prop where
  chain : BlockChain pool.lookupTable pool.lookupTotal pool.allocated
  head_eq : pool.lookupHead = some (pool.lookupTotal - 1)
  growth_pos : 0 < pool.growthIncrement
  taken : ∀ {k node}, pool.lookupTable k = some node →
    node.totalTaken = live.countP (·.nodeIndex = k)
  handed_le : ∀ {k node}, pool.lookupTable k = some node →
    (live ++ pool.freeStack).countP (·.nodeIndex = k) ≤ node.blockSize
  nodup : (live ++ pool.freeStack).Nodup
  mem_iff : ∀ i, i ∈ live ++ pool.freeStack ↔ i.nodeIndex < pool.lookupTotal ∧
    i.elementIndex < (live ++ pool.freeStack).countP (·.nodeIndex = i.nodeIndex)

namespace VlPool.Inv

variable {pool : VlPool} {live : List VlPoolIdx}

/-- A live index names an existing block and an ordinal below that block's size. -/
theorem exists_block (h : pool.Inv live) {i : VlPoolIdx} (hi : i ∈ live) :
    ∃ node, pool.lookupTable i.nodeIndex = some node ∧ i.elementIndex < node.blockSize := by
  obtain ⟨hlt, he⟩ := (h.mem_iff i).mp (List.mem_append_left _ hi)
  obtain ⟨node, hnode⟩ := h.chain.block _ hlt
  exact ⟨node, hnode, he.trans_le (h.handed_le hnode)⟩

/-- The order of the live indices does not matter. -/
theorem perm (h : pool.Inv live) {live' : List VlPoolIdx} (hp : live'.Perm live) :
    pool.Inv live' := by
  have happ : (live' ++ pool.freeStack).Perm (live ++ pool.freeStack) := hp.append_right _
  refine ⟨h.chain, h.head_eq, h.growth_pos, fun hk => ?_, fun hk => ?_, happ.nodup_iff.mpr h.nodup,
    fun i => ?_⟩
  · rw [hp.countP_eq]
    exact h.taken hk
  · rw [happ.countP_eq]
    exact h.handed_le hk
  · rw [happ.mem_iff, happ.countP_eq]
    exact h.mem_iff i

theorem live_nodup (h : pool.Inv live) : live.Nodup :=
  (List.nodup_append.mp h.nodup).1

/-- Distinct indices of existing blocks have distinct slots, as long as the element size did not
wrap to zero. -/
theorem sample_inj (h : pool.Inv live) (hsize : 0 < pool.elementSize) {i j : VlPoolIdx} {p : Slot}
    (hi : vlPoolSample pool i = some p) (hj : vlPoolSample pool j = some p) : i = j := by
  simp only [vlPoolSample, Option.map_eq_some_iff] at hi hj
  obtain ⟨m, hm, rfl⟩ := hi
  obtain ⟨n, hn, he⟩ := hj
  simp only [Slot.mk.injEq] at he
  exact VlPoolIdx.ext (h.chain.elements_inj hm hn he.1.symm)
    (Nat.eq_of_mul_eq_mul_right hsize he.2.symm)

/-! ### Primitive transitions -/

/-- The invariant only reads the live and the free indices together, up to their order. -/
private theorem rearrange (h : pool.Inv live) {k n : ℕ} {node : VlPoolNode}
    {live' free' : List VlPoolIdx} (hk : pool.lookupTable k = some node) (cap : ℕ)
    (hperm : (live' ++ free').Perm (live ++ pool.freeStack))
    (hn : n = live'.countP (·.nodeIndex = k))
    (hother : ∀ j, j ≠ k → live'.countP (·.nodeIndex = j) = live.countP (·.nodeIndex = j)) :
    VlPool.Inv { pool.setTaken k node n with freeCapacity := cap, freeStack := free' } live' := by
  refine ⟨h.chain.update hk n, h.head_eq, h.growth_pos, fun {j m} hm => ?_, fun hm => ?_,
    hperm.nodup_iff.mpr h.nodup, fun i => ?_⟩
  · obtain ⟨m', hm', rfl⟩ := BlockChain.lookup_update hk hm
    by_cases hj : j = k
    · rw [if_pos hj, hn, hj]
    · rw [if_neg hj, hother j hj]
      exact h.taken hm'
  · obtain ⟨m', hm', rfl⟩ := BlockChain.lookup_update hk hm
    rw [hperm.countP_eq]
    exact (h.handed_le hm' :)
  · rw [hperm.mem_iff, hperm.countP_eq]
    exact h.mem_iff i

/-- Popping the free stack makes its top live. -/
theorem popFree (h : pool.Inv live) {i : VlPoolIdx} {rest : List VlPoolIdx} {node : VlPoolNode}
    (hfree : pool.freeStack = i :: rest) (hk : pool.lookupTable i.nodeIndex = some node) :
    VlPool.Inv { pool.setTaken i.nodeIndex node (node.totalTaken + 1) with freeStack := rest }
      (i :: live) := by
  refine h.rearrange hk pool.freeCapacity ?_ ?_ fun j hj => ?_
  · rw [hfree, List.cons_append]
    exact List.perm_middle.symm
  · simp [h.taken hk]
  · simp [Ne.symm hj]

/-- Returning a live index pushes it on the free stack. -/
theorem pushFree (h : pool.Inv live) {i : VlPoolIdx} {node : VlPoolNode} (hi : i ∈ live)
    (hk : pool.lookupTable i.nodeIndex = some node) (cap : ℕ) :
    VlPool.Inv { pool.setTaken i.nodeIndex node (node.totalTaken - 1) with
      freeCapacity := cap, freeStack := i :: pool.freeStack } (live.erase i) := by
  have hlive : live.Perm (i :: live.erase i) := List.perm_cons_erase hi
  refine h.rearrange hk cap ?_ ?_ fun j hj => ?_
  · exact List.perm_middle.trans (hlive.symm.append_right _)
  · rw [h.taken hk, hlive.countP_eq]
    simp
  · rw [hlive.countP_eq]
    simp [Ne.symm hj]

/-- With an empty free stack, the next fresh ordinal of a block becomes live. -/
theorem takeFresh (h : pool.Inv live) {k : ℕ} {node : VlPoolNode} (hfree : pool.freeStack = [])
    (hk : pool.lookupTable k = some node) (hlt : node.totalTaken < node.blockSize) :
    (pool.setTaken k node (node.totalTaken + 1)).Inv (⟨k, node.totalTaken⟩ :: live) := by
  have hcount : ∀ j, (⟨k, node.totalTaken⟩ :: live).countP (·.nodeIndex = j) =
      live.countP (·.nodeIndex = j) + if k = j then 1 else 0 := by
    intro j
    by_cases hj : k = j <;> simp [hj]
  have hmem : ∀ i, i ∈ live ↔ i.nodeIndex < pool.lookupTotal ∧
      i.elementIndex < live.countP (·.nodeIndex = i.nodeIndex) := by
    simpa [hfree] using h.mem_iff
  have hfresh : (⟨k, node.totalTaken⟩ : VlPoolIdx) ∉ live := by
    rw [hmem, not_and]
    intro _
    exact (h.taken hk).symm.le.not_gt
  refine ⟨h.chain.update hk _, h.head_eq, h.growth_pos, fun {j m} hm => ?_, fun {j m} hm => ?_,
    ?_, fun i => ?_⟩
  · obtain ⟨m', hm', rfl⟩ := BlockChain.lookup_update hk hm
    rw [hcount]
    by_cases hj : j = k
    · subst hj
      simp [h.taken hk]
    · rw [if_neg hj, if_neg (Ne.symm hj)]
      exact h.taken hm'
  · obtain ⟨m', hm', rfl⟩ := BlockChain.lookup_update hk hm
    simp only [setTaken, hfree, List.append_nil, hcount]
    by_cases hj : k = j
    · subst hj
      obtain rfl : m' = node := Option.some_injective _ (hm'.symm.trans hk)
      rw [if_pos rfl, ← h.taken hm']
      exact hlt
    · simpa [hj, hfree] using h.handed_le hm'
  · simpa [setTaken, hfree] using ⟨hfresh, h.live_nodup⟩
  · simp only [setTaken, hfree, List.append_nil, List.mem_cons, hcount, hmem]
    constructor
    · rintro (rfl | ⟨hlt', he⟩)
      · exact ⟨h.chain.lt_total hk, by simp [h.taken hk]⟩
      · exact ⟨hlt', he.trans_le (Nat.le_add_right _ _)⟩
    · rintro ⟨hlt', he⟩
      split_ifs at he with hik
      · rcases Nat.lt_succ_iff_lt_or_eq.mp he with he | he
        · exact Or.inr ⟨hlt', he⟩
        · exact Or.inl (VlPoolIdx.ext hik.symm (by rw [he, h.taken hk, hik]))
      · exact Or.inr ⟨hlt', he⟩

/-- A new block hands out nothing yet. -/
theorem newBlock (h : pool.Inv live) : (vlPoolNodeNew pool).2.Inv live := by
  have hnone : ∀ {j}, pool.lookupTotal ≤ j →
      (live ++ pool.freeStack).countP (·.nodeIndex = j) = 0 := by
    intro j hj
    refine List.countP_eq_zero.mpr fun i hi => ?_
    have := ((h.mem_iff i).mp hi).1
    simp only [decide_eq_true_eq]
    omega
  refine ⟨h.chain.push rfl h.head_eq h.growth_pos rfl, rfl, Nat.mul_pos h.growth_pos two_pos,
    fun {j m} hm => ?_, fun {j m} hm => ?_, h.nodup, fun i => ?_⟩
  · rcases BlockChain.lookup_push hm with ⟨rfl, rfl⟩ | ⟨-, hm⟩
    · have hzero := hnone le_rfl
      rw [List.countP_append] at hzero
      exact (Nat.eq_zero_of_add_eq_zero_right hzero).symm
    · exact h.taken hm
  · rcases BlockChain.lookup_push hm with ⟨rfl, rfl⟩ | ⟨-, hm⟩
    · exact (hnone le_rfl).trans_le (Nat.zero_le _)
    · exact h.handed_le hm
  · have hlt : (vlPoolNodeNew pool).2.lookupTotal = pool.lookupTotal + 1 := rfl
    change i ∈ live ++ pool.freeStack ↔ _
    rw [h.mem_iff, hlt]
    refine ⟨fun ⟨hi, he⟩ => ⟨Nat.lt_succ_of_lt hi, he⟩, fun ⟨hi, he⟩ => ⟨?_, he⟩⟩
    by_contra hge
    have hzero := hnone (Nat.le_of_not_lt hge)
    exact absurd he (by change ¬ _ < (live ++ pool.freeStack).countP _; omega)

/-- A pool none of whose blocks has handed out an element satisfies the invariant. -/
theorem of_empty {pool : VlPool}
    (hchain : BlockChain pool.lookupTable pool.lookupTotal pool.allocated)
    (hhead : pool.lookupHead = some (pool.lookupTotal - 1)) (hgrowth : 0 < pool.growthIncrement)
    (hfree : pool.freeStack = [])
    (htaken : ∀ {k node}, pool.lookupTable k = some node → node.totalTaken = 0) :
    pool.Inv [] :=
  ⟨hchain, hhead, hgrowth, fun hk => by rw [htaken hk, List.countP_nil],
    fun _ => by simp [hfree], by simp [hfree], by simp [hfree]⟩

end VlPool.Inv

/-- A pool just initialised satisfies the invariant with nothing live. -/
theorem vlPoolInitAligned_inv (elementSize alignment : ℕ) :
    (vlPoolInitAligned elementSize alignment).Inv [] := by
  have hlookup : ∀ {k node}, (vlPoolInitAligned elementSize alignment).lookupTable k = some node →
      k = 0 ∧ node = ⟨0, vlPoolDefaultSize, 0, none, 0⟩ := by
    intro k node hk
    rcases BlockChain.lookup_push hk with ⟨rfl, rfl⟩ | ⟨-, hk⟩
    · exact ⟨rfl, rfl⟩
    · cases hk
  refine VlPool.Inv.of_empty ⟨Nat.one_pos, fun k hk => ?_, fun k hk => ?_, fun hk => ?_,
    fun hk => ?_, fun hk => ?_, fun hk => ?_, fun hk hk' _ => ?_⟩ rfl
    (show 0 < vlPoolDefaultSize by decide) rfl fun hk => ?_
  · obtain rfl := Nat.lt_one_iff.mp hk
    exact ⟨⟨0, vlPoolDefaultSize, 0, none, 0⟩, rfl⟩
  · exact Function.update_of_ne (Nat.pos_iff_ne_zero.mp hk) _ _
  all_goals obtain ⟨rfl, rfl⟩ := hlookup hk
  · rfl
  · rfl
  · decide
  · exact Nat.one_pos
  · exact (hlookup hk').1.symm
  · rfl

end VeritableLasagna
