import VeritableLasagna.Memory.Aligned
import VeritableLasagna.Pool.Nodes

/-!
# The geometry of the blocks of a pool

`vlPoolSample` turns an index into an address: the elements of a block start behind its header, padded
to the alignment, and the ordinal is multiplied by the padded size of an element. The sizes come in
four widths: 16 bits for the padded size of an element and for the padded header, 32 bits for the
product of ordinal and size and for the size of the allocation, 64 bits for addresses.

* `poolBlockSound_iff` says which blocks have elements that are apart, aligned and inside the
  allocation: exactly those for which 16 bits hold the padded size of an element and 32 bits the size
  of the block (`PoolBlockSizes`).
* `vlPool_elements_iff` carries this to pools: in every run that adds only such blocks, the elements
  of the live indices are apart, aligned and inside, wherever `malloc` puts the blocks.

Blocks have fewer than `2 ^ 32` elements here; a larger number is cut to 32 bits by the source.
-/

namespace VeritableLasagna

/-! ### Addresses -/

namespace VlPool

/-- The bytes `vl_PoolNodeNew` asks `vlMemAllocAligned` for: the sum is one of 32-bit integers. -/
def allocationSize (pool : VlPool) (blockSize : ℕ) : ℕ := pool.blockSpan blockSize % 2 ^ 32

/-- The address of a block, when `malloc` returned `origin`. -/
def blockAddress (pool : VlPool) (origin : ℕ) : ℕ := vlMemAllocAligned origin pool.elementAlign

/-- The address of the elements of a block. -/
def elements (pool : VlPool) (block : ℕ) : ℕ := vlMemoryPadUp (block + vlPoolNodeSize) pool.elementAlign

/-- The address of an element of a block: the product is one of 32-bit integers. -/
def elementAddress (pool : VlPool) (block elementIndex : ℕ) : ℕ :=
  pool.elements block + elementIndex * pool.elementSize % 2 ^ 32

/-- The address `vlPoolSample` returns, when `malloc` returned `origin a` for the allocation `a`. -/
def sampleAddress (pool : VlPool) (origin : ℕ → ℕ) (idx : VlPoolIdx) : Option ℕ :=
  (pool.lookupTable idx.nodeIndex).map fun node =>
    pool.elementAddress (pool.blockAddress (origin node.elements)) idx.elementIndex

end VlPool

/-- **A sound block**: ranges of `size` bytes at the addresses of its elements are apart, aligned and
inside the allocation. -/
structure PoolBlockSound (pool : VlPool) (size block blockSize : ℕ) : Prop where
  apart : ∀ i j, i < blockSize → j < blockSize → i ≠ j →
    pool.elementAddress block i + size ≤ pool.elementAddress block j ∨
      pool.elementAddress block j + size ≤ pool.elementAddress block i
  aligned : ∀ i < blockSize, pool.elementAlign ∣ pool.elementAddress block i
  inside : ∀ i < blockSize, block ≤ pool.elementAddress block i ∧
    pool.elementAddress block i + size ≤ block + pool.allocationSize blockSize

/-- 16 bits hold the padded size of an element, and 32 bits the size of a block. -/
def PoolBlockSizes (size align blockSize : ℕ) : Prop :=
  vlMemoryPadUp size align < 2 ^ 16 ∧
    vlMemoryPadUp vlPoolNodeSize align + vlMemoryPadUp size align * blockSize < 2 ^ 32

/-! ### Which blocks are sound -/

/-- The pool was initialised for elements of a given size and alignment. -/
structure VlPool.For (pool : VlPool) (size align : ℕ) : Prop where
  elementSize : pool.elementSize = vlMemoryPadUp size align % 2 ^ 16
  elementAlign : pool.elementAlign = align

section Block

variable {pool : VlPool} {size bits block blockSize n i : ℕ}

/-- The padded header keeps its size. -/
theorem VlPool.For.header (h : pool.For size (2 ^ bits)) (hbits : bits < 16) :
    pool.alignedHeaderSize = vlMemoryPadUp vlPoolNodeSize (2 ^ bits) := by
  rw [VlPool.alignedHeaderSize, h.elementAlign]
  refine Nat.mod_eq_of_lt ?_
  have hpow : (2 : ℕ) ^ bits ≤ 2 ^ 15 := Nat.pow_le_pow_right (by norm_num) (by omega)
  have hpad : vlMemoryPadUp vlPoolNodeSize (2 ^ bits) < vlPoolNodeSize + 2 ^ bits :=
    vlMemoryPadUp_lt (Nat.two_pow_pos bits)
  have hsize : vlPoolNodeSize = 32 := rfl
  omega

/-- The elements of an aligned block start behind the padded header. -/
theorem VlPool.For.elements (h : pool.For size (2 ^ bits)) (hblock : 2 ^ bits ∣ block) :
    pool.elements block = block + vlMemoryPadUp vlPoolNodeSize (2 ^ bits) := by
  rw [VlPool.elements, h.elementAlign, vlMemoryPadUp_add hblock (Nat.two_pow_pos bits)]

/-- **A block whose sizes fit is sound.** -/
theorem poolBlockSound_of_sizes (h : pool.For size (2 ^ bits)) (hbits : bits < 16)
    (hblock : 2 ^ bits ∣ block) (hsizes : PoolBlockSizes size (2 ^ bits) blockSize) :
    PoolBlockSound pool size block blockSize := by
  obtain ⟨hstride, hspan⟩ := hsizes
  have hsize : pool.elementSize = vlMemoryPadUp size (2 ^ bits) :=
    h.elementSize.trans (Nat.mod_eq_of_lt hstride)
  have hpad : size ≤ vlMemoryPadUp size (2 ^ bits) := le_vlMemoryPadUp (Nat.two_pow_pos bits)
  have halloc : pool.allocationSize blockSize = vlMemoryPadUp vlPoolNodeSize (2 ^ bits) +
      vlMemoryPadUp size (2 ^ bits) * blockSize := by
    rw [VlPool.allocationSize, VlPool.blockSpan, h.header hbits, hsize, Nat.mod_eq_of_lt hspan]
  generalize hheader : vlMemoryPadUp vlPoolNodeSize (2 ^ bits) = header at *
  generalize hstep : vlMemoryPadUp size (2 ^ bits) = stride at *
  -- the ordinals up to the end of the block do not wrap
  have hend : ∀ i < blockSize, i * stride + stride ≤ stride * blockSize := by
    intro i hi
    calc i * stride + stride = stride * (i + 1) := by ring
      _ ≤ stride * blockSize := Nat.mul_le_mul_left _ hi
  have haddr : ∀ i < blockSize, pool.elementAddress block i = block + header + i * stride := by
    intro i hi
    have hi' := hend i hi
    rw [VlPool.elementAddress, h.elements hblock, hheader, hsize, Nat.mod_eq_of_lt (by omega)]
  have hbefore : ∀ i j, i < j → j < blockSize →
      pool.elementAddress block i + size ≤ pool.elementAddress block j := by
    intro i j hij hj
    have hle : (i + 1) * stride ≤ j * stride := Nat.mul_le_mul_right _ hij
    rw [haddr i (hij.trans hj), haddr j hj]
    rw [Nat.add_mul, Nat.one_mul] at hle
    omega
  refine ⟨fun i j hi hj hne => ?_, fun i hi => ?_, fun i hi => ?_⟩
  · rcases Nat.lt_or_gt_of_ne hne with hij | hij
    · exact Or.inl (hbefore i j hij hj)
    · exact Or.inr (hbefore j i hij hi)
  · have hdvd : 2 ^ bits ∣ header := hheader ▸ dvd_vlMemoryPadUp _ _
    have hdvd' : 2 ^ bits ∣ stride := hstep ▸ dvd_vlMemoryPadUp _ _
    rw [haddr i hi, h.elementAlign]
    exact Nat.dvd_add (Nat.dvd_add hblock hdvd) (hdvd'.mul_left i)
  · have hi' := hend i hi
    rw [haddr i hi, halloc]
    omega

/-- The padded size of an element does not leave 16 bits by more than one. -/
theorem vlMemoryPadUp_le (hsize : size < 2 ^ 16) (hbits : bits < 16) :
    vlMemoryPadUp size (2 ^ bits) ≤ 2 ^ 16 := by
  have hdvd : 2 ^ bits ∣ 2 ^ 16 := Nat.pow_dvd_pow 2 hbits.le
  have hle : size + 2 ^ bits - 1 ≤ (2 ^ 16 - 1) + 2 ^ bits := by omega
  obtain ⟨k, hk⟩ := hdvd
  have hpos : 0 < 2 ^ bits := Nat.two_pow_pos bits
  rw [vlMemoryPadUp, Nat.mul_comm, hk]
  refine Nat.mul_le_mul_left _ (Nat.lt_succ_iff.mp ((Nat.div_lt_iff_lt_mul hpos).mpr ?_))
  rw [Nat.succ_mul, Nat.mul_comm k, ← hk]
  omega

/-- An element no larger than half its padded size is no larger than the alignment. -/
theorem vlMemoryPadUp_eq_of_two_mul_le (hpos : 0 < size)
    (h : 2 * size ≤ vlMemoryPadUp size (2 ^ bits)) : vlMemoryPadUp size (2 ^ bits) = 2 ^ bits := by
  have halign : 0 < 2 ^ bits := Nat.two_pow_pos bits
  have hlt : vlMemoryPadUp size (2 ^ bits) < size + 2 ^ bits := vlMemoryPadUp_lt halign
  -- the padded size is a positive multiple of the alignment and less than twice that
  obtain ⟨k, hk⟩ := dvd_vlMemoryPadUp size (2 ^ bits)
  have hk0 : k ≠ 0 := by
    rintro rfl
    omega
  have hk2 : k < 2 := by
    by_contra hge
    have := Nat.mul_le_mul_left (2 ^ bits) (Nat.not_lt.mp hge)
    omega
  obtain rfl : k = 1 := by omega
  omega

/-- **A block whose sizes do not fit is not sound**: elements of no size overlap, the last element is
outside a block that was cut, and in a larger one an ordinal wraps onto the first elements. -/
theorem poolBlockSizes_of_sound (h : pool.For size (2 ^ bits)) (hbits : bits < 16)
    (hpos : 0 < size) (hsize : size < 2 ^ 16) (hblock : 2 ^ bits ∣ block) (hmany : 2 ≤ blockSize)
    (hsound : PoolBlockSound pool size block blockSize) : PoolBlockSizes size (2 ^ bits) blockSize := by
  have hheader : vlMemoryPadUp vlPoolNodeSize (2 ^ bits) ≤ 2 ^ 16 :=
    vlMemoryPadUp_le (by decide) hbits
  have haddr : ∀ i, pool.elementAddress block i =
      block + vlMemoryPadUp vlPoolNodeSize (2 ^ bits) + i * pool.elementSize % 2 ^ 32 := fun i => by
    rw [VlPool.elementAddress, h.elements hblock]
  have hstride : vlMemoryPadUp size (2 ^ bits) < 2 ^ 16 := by
    by_contra hwrap
    have hzero : pool.elementSize = 0 := by
      rw [h.elementSize, Nat.le_antisymm (vlMemoryPadUp_le hsize hbits) (Nat.not_lt.mp hwrap),
        Nat.mod_self]
    have hapart := hsound.apart 0 1 (by omega) (by omega) zero_ne_one
    rw [haddr, haddr, hzero] at hapart
    omega
  refine ⟨hstride, ?_⟩
  have hstep : pool.elementSize = vlMemoryPadUp size (2 ^ bits) :=
    h.elementSize.trans (Nat.mod_eq_of_lt hstride)
  have hpad : size ≤ vlMemoryPadUp size (2 ^ bits) := le_vlMemoryPadUp (Nat.two_pow_pos bits)
  have hhalf : 2 * size ≤ vlMemoryPadUp size (2 ^ bits) →
      vlMemoryPadUp size (2 ^ bits) = 2 ^ bits := vlMemoryPadUp_eq_of_two_mul_le hpos
  rw [hstep] at haddr
  have halloc : pool.allocationSize blockSize = (vlMemoryPadUp vlPoolNodeSize (2 ^ bits) +
      vlMemoryPadUp size (2 ^ bits) * blockSize) % 2 ^ 32 := by
    rw [VlPool.allocationSize, VlPool.blockSpan, h.header hbits, hstep]
  generalize vlMemoryPadUp vlPoolNodeSize (2 ^ bits) = header at *
  generalize vlMemoryPadUp size (2 ^ bits) = stride at *
  by_contra hspan
  obtain ⟨last, rfl⟩ : ∃ last, blockSize = last + 1 := ⟨blockSize - 1, by omega⟩
  have hlast : stride * (last + 1) = last * stride + stride := by ring
  rcases Nat.lt_or_ge (last * stride) (2 ^ 32) with hlt | hge
  · -- the end of the block was cut off
    have hinside := (hsound.inside last (by omega)).2
    rw [haddr, Nat.mod_eq_of_lt hlt, halloc] at hinside
    have hcut : (header + stride * (last + 1)) % 2 ^ 32 = header + stride * (last + 1) - 2 ^ 32 := by
      rw [Nat.mod_eq_sub_mod (by omega), Nat.mod_eq_of_lt (by omega)]
    omega
  · -- the first ordinal beyond 32 bits
    obtain ⟨i, hile, hbelow, habove⟩ : ∃ i ≤ last, 2 ^ 32 ≤ i * stride ∧
        i * stride < 2 ^ 32 + stride := by
      have hdiv := Nat.div_add_mod (2 ^ 32 + stride - 1) stride
      have hmod := Nat.mod_lt (2 ^ 32 + stride - 1) (hpos.trans_le hpad)
      refine ⟨(2 ^ 32 + stride - 1) / stride, ?_, ?_, ?_⟩
      · refine Nat.lt_succ_iff.mp ((Nat.div_lt_iff_lt_mul (hpos.trans_le hpad)).mpr ?_)
        rw [Nat.succ_mul]
        omega
      · rw [Nat.mul_comm]
        omega
      · rw [Nat.mul_comm]
        omega
    have hoffset : i * stride % 2 ^ 32 = i * stride - 2 ^ 32 := by
      rw [Nat.mod_eq_sub_mod hbelow, Nat.mod_eq_of_lt (by omega)]
    have hne : ∀ j < 2, i ≠ j := by
      rintro j hj rfl
      have : i * stride ≤ 1 * stride := Nat.mul_le_mul_right _ (by omega)
      omega
    have hfirst := hsound.apart i 0 (by omega) (by omega) (hne 0 (by omega))
    have hsecond := hsound.apart i 1 (by omega) (by omega) (hne 1 (by omega))
    rw [haddr, haddr, hoffset, Nat.zero_mul, Nat.zero_mod] at hfirst
    rw [haddr, haddr, hoffset, Nat.one_mul, Nat.mod_eq_of_lt (by omega)] at hsecond
    -- such an element is no larger than the alignment, so that the ordinal wraps to a multiple of it
    have hpow := hhalf (by omega)
    have hdvd : stride ∣ 2 ^ 32 := by
      rw [hpow]
      exact Nat.pow_dvd_pow 2 (by omega)
    have hmul : stride ∣ i * stride - 2 ^ 32 := Nat.dvd_sub (dvd_mul_left _ _) hdvd
    have hzero : i * stride - 2 ^ 32 = 0 := Nat.eq_zero_of_dvd_of_lt hmul (by omega)
    omega

/-- **Which blocks are sound.** -/
theorem poolBlockSound_iff (h : pool.For size (2 ^ bits)) (hbits : bits < 16) (hpos : 0 < size)
    (hsize : size < 2 ^ 16) (hblock : 2 ^ bits ∣ block) (hmany : 2 ≤ blockSize) :
    PoolBlockSound pool size block blockSize ↔ PoolBlockSizes size (2 ^ bits) blockSize :=
  ⟨poolBlockSizes_of_sound h hbits hpos hsize hblock hmany, poolBlockSound_of_sizes h hbits hblock⟩

end Block

/-! ### Pools -/

/-- The pool was initialised for elements of a given size and alignment, and the sizes of all of its
blocks fit. -/
structure VlPool.Sized (pool : VlPool) (size align : ℕ) : Prop extends pool.For size align where
  stride : vlMemoryPadUp size align < 2 ^ 16
  block : ∀ {k node}, pool.lookupTable k = some node → PoolBlockSizes size align node.blockSize

/-- **`malloc` places the blocks**: 16 bytes aligned, and those that are there at the same time apart. -/
structure VlPool.Placed (pool : VlPool) (origin : ℕ → ℕ) : Prop where
  aligned : ∀ {k node}, pool.lookupTable k = some node → origin node.elements % 16 = 0
  apart : ∀ {j k node node'}, pool.lookupTable j = some node → pool.lookupTable k = some node' →
    j ≠ k →
    origin node.elements + vlMemAllocAlignedBytes (pool.allocationSize node.blockSize)
        pool.elementAlign ≤ origin node'.elements ∨
      origin node'.elements + vlMemAllocAlignedBytes (pool.allocationSize node'.blockSize)
        pool.elementAlign ≤ origin node.elements

/-- **The elements are sound**: the ranges of `size` bytes at the addresses of the live indices are
aligned, inside the allocation of their block, and apart. -/
structure VlPool.ElementsSound (pool : VlPool) (origin : ℕ → ℕ) (size : ℕ) (live : List VlPoolIdx) :
    Prop where
  inside : ∀ i ∈ live, ∃ node a, pool.lookupTable i.nodeIndex = some node ∧
    pool.sampleAddress origin i = some a ∧ pool.elementAlign ∣ a ∧
    pool.blockAddress (origin node.elements) ≤ a ∧
    a + size ≤ pool.blockAddress (origin node.elements) + pool.allocationSize node.blockSize
  apart : ∀ i ∈ live, ∀ j ∈ live, i ≠ j → ∀ a b, pool.sampleAddress origin i = some a →
    pool.sampleAddress origin j = some b → a + size ≤ b ∨ b + size ≤ a

section Pool

variable {pool pool' : VlPool} {live : List VlPoolIdx} {size align bits : ℕ} {origin : ℕ → ℕ}

/-- The size of the next block. -/
theorem VlPool.Sized.next (h : pool.Sized size (2 ^ bits)) (hbits : bits < 16)
    (hspan : pool.blockSpan pool.growthIncrement < 2 ^ 32) :
    PoolBlockSizes size (2 ^ bits) pool.growthIncrement := by
  rw [VlPool.blockSpan, h.toFor.header hbits, h.elementSize, Nat.mod_eq_of_lt h.stride] at hspan
  exact ⟨h.stride, hspan⟩

/-- The counters and the free stack do not matter. -/
theorem VlPool.Sized.setTaken (h : pool.Sized size align) {k n cap : ℕ} {node : VlPoolNode}
    {free : List VlPoolIdx} (hk : pool.lookupTable k = some node) :
    VlPool.Sized { pool.setTaken k node n with freeCapacity := cap, freeStack := free } size align := by
  refine ⟨⟨h.elementSize, h.elementAlign⟩, h.stride, fun hm => ?_⟩
  obtain ⟨m', hm', rfl⟩ := BlockChain.lookup_update hk hm
  exact (h.block hm' :)

/-- **The operations keep the sizes.** -/
theorem sized_kept (size : ℕ) (hbits : bits < 16) : VlPool.Kept (VlPool.Sized · size (2 ^ bits)) := by
  refine ⟨fun h hk => h.setTaken hk,
    fun h hspan => ⟨⟨h.elementSize, h.elementAlign⟩, h.stride, fun hm => ?_⟩,
    fun h => ⟨⟨h.elementSize, h.elementAlign⟩, h.stride, h.block⟩⟩
  rcases BlockChain.lookup_push hm with ⟨-, rfl⟩ | ⟨-, hm⟩
  · exact h.next hbits hspan
  · exact h.block hm

/-- The loop of `vlPoolReset` keeps the sizes: it only drops blocks. -/
private theorem vlPoolResetLoop_sized {fuel cur : ℕ} {r : ℕ × VlPool} (h : pool.Sized size align)
    (hop : vlPoolResetLoop fuel pool cur = .ok r) : r.2.Sized size align := by
  induction fuel generalizing pool cur with
  | zero => cases hop
  | succ fuel ih =>
    rw [vlPoolResetLoop] at hop
    cases hnode : pool.lookupTable cur with
    | none =>
      rw [hnode] at hop
      cases hop
    | some node =>
      have htaken : (pool.setTaken cur node 0).Sized size align := h.setTaken hnode
      rw [hnode, deref_some, ok_bind] at hop
      dsimp only at hop
      cases hnext : node.nextLookup with
      | none =>
        rw [hnext] at hop
        obtain rfl := Except.ok.inj hop
        exact htaken
      | some temp =>
        rw [hnext] at hop
        have hdropped : VlPool.Sized { pool.setTaken cur node 0 with
            lookupTable := Function.update (pool.setTaken cur node 0).lookupTable node.blockOrdinal
              none
            lookupTotal := (pool.setTaken cur node 0).lookupTotal - 1 } size align := by
          refine ⟨⟨htaken.elementSize, htaken.elementAlign⟩, htaken.stride, fun {k m} hm => ?_⟩
          by_cases hk : k = node.blockOrdinal
          · rw [hk] at hm
            cases (Function.update_self _ _ _).symm.trans hm
          · exact htaken.block ((Function.update_of_ne hk _ _).symm.trans hm)
        exact ih hdropped hop

/-- **`vlPoolReset`** keeps the sizes. -/
theorem vlPoolReset_sized (h : pool.Sized size align) (hop : vlPoolReset pool = .ok pool') :
    pool'.Sized size align := by
  obtain ⟨head, -, hop⟩ := exists_of_bind_eq_ok hop
  obtain ⟨r, hloop, hop⟩ := exists_of_bind_eq_ok hop
  obtain ⟨node, -, hop⟩ := exists_of_bind_eq_ok hop
  obtain rfl := Except.ok.inj hop
  have hr := vlPoolResetLoop_sized h hloop
  exact ⟨⟨hr.elementSize, hr.elementAlign⟩, hr.stride, hr.block⟩

/-- **The sizes of a pool just initialised** fit, if 16 bits hold the padded size of an element. -/
theorem vlPoolInitAligned_sized (hbits : bits < 16) (hstride : vlMemoryPadUp size (2 ^ bits) < 2 ^ 16) :
    (vlPoolInitAligned size (2 ^ bits)).Sized size (2 ^ bits) := by
  refine ⟨⟨rfl, rfl⟩, hstride, fun {k node} hk => ⟨hstride, ?_⟩⟩
  have hblock : node.blockSize = vlPoolDefaultSize := by
    rcases BlockChain.lookup_push hk with ⟨-, rfl⟩ | ⟨-, hk⟩
    · rfl
    · cases hk
  have hheader : vlMemoryPadUp vlPoolNodeSize (2 ^ bits) ≤ 2 ^ 16 :=
    vlMemoryPadUp_le (by decide) hbits
  rw [hblock, vlPoolDefaultSize]
  omega

/-- **In a pool whose sizes fit, the elements of the live indices are sound.** -/
theorem VlPool.Sized.elementsSound (h : pool.Sized size (2 ^ bits)) (hbits : bits < 16)
    (hinv : pool.Inv live) (hplaced : pool.Placed origin) : pool.ElementsSound origin size live := by
  have hsound : ∀ {k node}, pool.lookupTable k = some node →
      PoolBlockSound pool size (pool.blockAddress (origin node.elements)) node.blockSize := by
    intro k node hk
    refine poolBlockSound_of_sizes h.toFor hbits ?_ (h.block hk)
    rw [VlPool.blockAddress, h.elementAlign]
    exact vlMemAllocAligned_aligned (hplaced.aligned hk)
  have hsample : ∀ {i : VlPoolIdx} {node}, pool.lookupTable i.nodeIndex = some node →
      pool.sampleAddress origin i =
        some (pool.elementAddress (pool.blockAddress (origin node.elements)) i.elementIndex) := by
    intro i node hnode
    rw [VlPool.sampleAddress, hnode, Option.map_some]
  refine ⟨fun i hi => ?_, fun i hi j hj hne a b ha hb => ?_⟩
  · obtain ⟨node, hnode, hlt⟩ := hinv.exists_block hi
    have hblock := hsound hnode
    exact ⟨node, _, hnode, hsample hnode, hblock.aligned _ hlt, (hblock.inside _ hlt).1,
      (hblock.inside _ hlt).2⟩
  · obtain ⟨node, hnode, hlt⟩ := hinv.exists_block hi
    obtain ⟨node', hnode', hlt'⟩ := hinv.exists_block hj
    obtain rfl := Option.some_injective _ ((hsample hnode).symm.trans ha)
    obtain rfl := Option.some_injective _ ((hsample hnode').symm.trans hb)
    by_cases hsame : i.nodeIndex = j.nodeIndex
    · rw [hsame] at hnode
      obtain rfl := Option.some_injective _ (hnode.symm.trans hnode')
      exact (hsound hnode).apart _ _ hlt hlt' fun heq => hne (VlPoolIdx.ext hsame heq)
    · -- the elements of two blocks are apart, as the blocks are
      have hin := (hsound hnode).inside _ hlt
      have hin' := (hsound hnode').inside _ hlt'
      have hmalloc := vlMemAllocAligned_inside (origin node.elements)
        (pool.allocationSize node.blockSize) pool.elementAlign
      have hmalloc' := vlMemAllocAligned_inside (origin node'.elements)
        (pool.allocationSize node'.blockSize) pool.elementAlign
      have happart := hplaced.apart hnode hnode' hsame
      rw [VlPool.blockAddress] at hin hin' ⊢
      rw [VlPool.blockAddress]
      omega

end Pool

/-! ### Runs -/

/-- The blocks an operation adds keep their size. -/
def VlPoolOp.Roomy (pool : VlPool) : VlPoolOp → Prop
  | .take => pool.Room 1
  | .reserve n => pool.Room n
  | .ret _ | .clear | .reset => True

/-- The machine restricted to operations that add such blocks only. -/
def roomyPoolMachine : Machine PoolState VlPoolOp where
  guard s o := poolMachine.guard s o ∧ o.Roomy s.pool
  step := poolStep

instance (pool : VlPool) : ∀ o : VlPoolOp, Decidable (o.Roomy pool)
  | .take => inferInstanceAs (Decidable (pool.Room 1))
  | .reserve n => inferInstanceAs (Decidable (pool.Room n))
  | .ret _ | .clear | .reset => .isTrue trivial

instance (s : PoolState) (o : VlPoolOp) : Decidable (roomyPoolMachine.guard s o) :=
  inferInstanceAs (Decidable (poolMachine.guard s o ∧ o.Roomy s.pool))

section Run

variable {s s' : PoolState} {o : VlPoolOp} {size bits : ℕ}

/-- **Every operation** keeps the sizes. -/
theorem roomyPoolStep_sized (hbits : bits < 16) (hinv : s.pool.Inv s.live)
    (h : s.pool.Sized size (2 ^ bits)) (hg : roomyPoolMachine.guard s o)
    (hop : poolStep s o = .ok s') : s'.pool.Sized size (2 ^ bits) := by
  have hkept := sized_kept size hbits
  obtain ⟨-, hroom⟩ := hg
  cases o with
  | take =>
    obtain ⟨r, htake, hop⟩ := exists_of_bind_eq_ok hop
    obtain rfl := Except.ok.inj hop
    exact vlPoolTake_keeps hkept hinv h hroom htake
  | ret i =>
    obtain ⟨pool, hret, hop⟩ := exists_of_bind_eq_ok hop
    obtain rfl := Except.ok.inj hop
    exact vlPoolReturn_keeps hkept h hret
  | reserve n =>
    obtain ⟨pool, hreserve, hop⟩ := exists_of_bind_eq_ok hop
    obtain rfl := Except.ok.inj hop
    exact vlPoolReserve_keeps hkept hinv h hroom hreserve
  | clear =>
    obtain ⟨pool, hclear, hop⟩ := exists_of_bind_eq_ok hop
    obtain rfl := Except.ok.inj hop
    exact vlPoolClear_keeps hkept h hclear
  | reset =>
    obtain ⟨pool, hreset, hop⟩ := exists_of_bind_eq_ok hop
    obtain rfl := Except.ok.inj hop
    exact vlPoolReset_sized h hreset

/-- **Every run** keeps the sizes. -/
theorem roomyPoolRun_sized {os : List VlPoolOp} (hbits : bits < 16)
    (hstride : vlMemoryPadUp size (2 ^ bits) < 2 ^ 16)
    (hrun : roomyPoolMachine.Run (.init size (2 ^ bits)) os s) :
    s.pool.Inv s.live ∧ s.pool.Sized size (2 ^ bits) := by
  refine hrun.invariant (I := fun s => s.pool.Inv s.live ∧ s.pool.Sized size (2 ^ bits))
    (fun s o s' ⟨hinv, h⟩ hg hop => ?_) ⟨vlPoolInitAligned_inv _ _, vlPoolInitAligned_sized hbits hstride⟩
  exact ⟨poolStep_inv s o s' hinv hg.1 hop, roomyPoolStep_sized hbits hinv h hg hop⟩

end Run

/-- **The elements of a pool.** The elements of the block that `vl_PoolNodeNew` adds are apart, aligned
and inside exactly if 16 bits hold the padded size of an element and 32 bits the size of the block. In
every run that adds only such blocks, the elements of the live indices are apart, aligned and inside
their blocks, wherever `malloc` puts these. -/
theorem vlPool_elements_iff (size : UInt16) (hpos : 0 < size.toNat) (bits : Fin 16) :
    (∀ (pool : VlPool) (origin : ℕ), pool.For size.toNat (2 ^ bits.val) → origin % 16 = 0 →
      2 ≤ pool.growthIncrement → pool.growthIncrement < 2 ^ 32 →
      ∃ node, (vlPoolNodeNew pool).2.lookupTable (vlPoolNodeNew pool).1 = some node ∧
        (PoolBlockSound (vlPoolNodeNew pool).2 size.toNat (pool.blockAddress origin)
            node.blockSize ↔
          PoolBlockSizes size.toNat (2 ^ bits.val) pool.growthIncrement)) ∧
    (vlMemoryPadUp size.toNat (2 ^ bits.val) < 2 ^ 16 → ∀ os s,
      roomyPoolMachine.Run (.init size.toNat (2 ^ bits.val)) os s → ∀ origin,
        s.pool.Placed origin → s.pool.ElementsSound origin size.toNat s.live) := by
  constructor
  · intro pool origin hfor horigin hmany _
    refine ⟨_, vlPoolNodeNew_lookup pool, ?_⟩
    have hnew : (vlPoolNodeNew pool).2.For size.toNat (2 ^ bits.val) :=
      ⟨hfor.elementSize, hfor.elementAlign⟩
    refine poolBlockSound_iff hnew bits.isLt hpos size.toNat_lt ?_ hmany
    rw [VlPool.blockAddress, hfor.elementAlign]
    exact vlMemAllocAligned_aligned horigin
  · intro hstride os s hrun origin hplaced
    obtain ⟨hinv, hsized⟩ := roomyPoolRun_sized bits.isLt hstride hrun
    exact hsized.elementsSound bits.isLt hinv hplaced

/-- Two elements of 8 bytes, in a block for which `malloc` returned 4096. -/
theorem vlPool_elements_two : ∃ s, roomyPoolMachine.Run (.init 8 8) [.take, .take] s ∧
    s.live = [⟨0, 1⟩, ⟨0, 0⟩] ∧ s.pool.ElementsSound (fun _ => 4096) 8 s.live := by
  have hexec : (roomyPoolMachine.exec (.init 8 8) [.take, .take]).any (fun s =>
      decide (s.live = [⟨0, 1⟩, ⟨0, 0⟩]) && decide (s.pool.lookupTotal = 1)) = true := by decide
  obtain ⟨s, hrun, htest⟩ := Machine.exists_run_of_exec hexec
  obtain ⟨hlive, htotal⟩ := Bool.and_eq_true _ _ ▸ htest
  have htotal : s.pool.lookupTotal = 1 := of_decide_eq_true htotal
  have hinv := (roomyPoolRun_sized (by decide : 3 < 16) (by decide) hrun).1
  refine ⟨s, hrun, of_decide_eq_true hlive, (vlPool_elements_iff 8 (by decide) 3).2 (by decide) _ s
    hrun _ ⟨fun _ => rfl, fun {j k node node'} hj hk hne => ?_⟩⟩
  have hlt := hinv.chain.lt_total hj
  have hlt' := hinv.chain.lt_total hk
  omega

/-- Two elements of 65535 bytes: padded to 65536, their size is 0 in 16 bits, and they lie at the same
address. -/
theorem not_elementsSound_65535 : ∃ s, poolMachine.Run (.init 65535 8) [.take, .take] s ∧
    ∀ origin, ¬ s.pool.ElementsSound origin 65535 s.live := by
  have hexec : (poolMachine.exec (.init 65535 8) [.take, .take]).any (fun s =>
      decide (s.live = [⟨0, 1⟩, ⟨0, 0⟩]) && decide (s.pool.elementSize = 0)) = true := by decide
  obtain ⟨s, hrun, htest⟩ := Machine.exists_run_of_exec hexec
  obtain ⟨hlive, hzero⟩ := Bool.and_eq_true _ _ ▸ htest
  have hlive : s.live = [⟨0, 1⟩, ⟨0, 0⟩] := of_decide_eq_true hlive
  have hzero : s.pool.elementSize = 0 := of_decide_eq_true hzero
  refine ⟨s, hrun, fun origin hsound => ?_⟩
  rw [hlive] at hsound
  obtain ⟨node, a, hnode, ha, -⟩ := hsound.inside ⟨0, 0⟩ (by simp)
  have hb : s.pool.sampleAddress origin ⟨0, 1⟩ = some a := by
    rw [← ha]
    simp only [VlPool.sampleAddress, VlPool.elementAddress, hzero, Nat.mul_zero]
  have hapart := hsound.apart ⟨0, 0⟩ (by simp) ⟨0, 1⟩ (by simp) (by decide) a a ha hb
  omega

end VeritableLasagna
