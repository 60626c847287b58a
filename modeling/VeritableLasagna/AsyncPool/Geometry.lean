import VeritableLasagna.AsyncPool.Walks

/-!
# The geometry of the blocks of the asynchronous pool

A block should have between 16 and 65536 elements, room for all of its nodes, and elements that are
apart, aligned and inside. The sizes of nodes are computed in 16 bits, and the number of elements from
the running number of the block, which is compared before it is turned into a shift: from ordinal 14
on blocks are larger than the maximum, and from ordinal 31 on the shift is undefined.

`vlAsyncPool_geometry_iff` says which blocks are right, and that `vlAsyncPoolTake` returns in every
run that adds only such blocks.
-/

namespace VeritableLasagna

variable {T : Type}

/-- The address of an element of a block. -/
def AsyncPoolLayout.element (l : AsyncPoolLayout) (block ordinal : ℕ) : ℕ :=
  l.node block ordinal + l.headerOffset

/-- **A sound block**: between 16 and 65536 elements of a given size, an allocation large enough for
the header and all nodes, nodes large enough for their header and the padded element, and elements
that are apart, aligned and inside the allocation. -/
structure AsyncBlockSound (l : AsyncPoolLayout) (elementSize block elements : ℕ) : Prop where
  min : 2 ^ 4 ≤ elements
  max : elements ≤ 2 ^ 16
  room : l.headerSize + elements * l.nodeSize ≤ l.blockSize elements
  node : vlMemoryPadUp AsyncPoolLayout.headerBytes l.elementAlign +
    vlMemoryPadUp elementSize l.elementAlign ≤ l.nodeSize
  apart : ∀ i j, i < elements → j < elements → i ≠ j →
    l.element block i + elementSize ≤ l.element block j ∨
      l.element block j + elementSize ≤ l.element block i
  aligned : ∀ i < elements, l.elementAlign ∣ l.element block i
  inside : ∀ i < elements, block ≤ l.element block i ∧
    l.element block i + elementSize ≤ block + l.blockSize elements

/-! ### Which blocks are sound -/

section Sound

variable {l : AsyncPoolLayout} {elementSize block elements ordinal : ℕ}

/-- An element lies where the sizes say, if the block does not wrap. -/
theorem element_eq (hfits : elements * l.nodeSize < 2 ^ 32) {i : ℕ} (hi : i < elements) :
    l.element block i = block + l.headerSize + l.nodeSize * i + l.headerOffset := by
  have hnode := node_eq (l := l) (a := block) (b := ⟨0, 0, elements, 0⟩) hfits hi
  rw [AsyncPoolLayout.element, hnode]

/-- **A block of any permitted number of elements is sound**, once the size of a node is right. -/
theorem asyncBlockSound (hnode : l.nodeSize = l.headerOffset + vlMemoryPadUp elementSize l.elementAlign)
    (hbound : l.nodeSize < 2 ^ 16) (halign : 0 < l.elementAlign) (hblock : l.elementAlign ∣ block)
    (hmin : 2 ^ 4 ≤ elements) (hmax : elements ≤ 2 ^ 16) :
    AsyncBlockSound l elementSize block elements := by
  have hfits : elements * l.nodeSize < 2 ^ 32 := by
    calc elements * l.nodeSize ≤ 2 ^ 16 * l.nodeSize := Nat.mul_le_mul_right _ hmax
      _ < 2 ^ 16 * 2 ^ 16 := by omega
      _ = 2 ^ 32 := by norm_num
  have hpad : elementSize ≤ vlMemoryPadUp elementSize l.elementAlign := le_vlMemoryPadUp halign
  have hsize : l.blockSize elements = l.headerSize + elements * l.nodeSize := by
    rw [AsyncPoolLayout.blockSize, Nat.mod_eq_of_lt hfits]
  have hbefore : ∀ i j, i < j → j < elements →
      l.element block i + elementSize ≤ l.element block j := by
    intro i j hij hj
    have hle : l.nodeSize * (i + 1) ≤ l.nodeSize * j := Nat.mul_le_mul_left _ hij
    rw [element_eq hfits (hij.trans hj), element_eq hfits hj]
    rw [Nat.mul_succ] at hle
    omega
  refine ⟨hmin, hmax, hsize.ge, hnode.ge, fun i j hi hj hne => ?_, fun i hi => ?_, fun i hi => ?_⟩
  · rcases Nat.lt_or_gt_of_ne hne with hij | hij
    · exact Or.inl (hbefore i j hij hj)
    · exact Or.inr (hbefore j i hij hi)
  · have hheader : l.elementAlign ∣ l.headerSize := dvd_vlMemoryPadUp _ _
    have hoffset : l.elementAlign ∣ l.headerOffset := dvd_vlMemoryPadUp _ _
    have hstep : l.elementAlign ∣ l.nodeSize := by
      rw [hnode]
      exact Nat.dvd_add hoffset (dvd_vlMemoryPadUp _ _)
    rw [element_eq hfits hi]
    exact Nat.dvd_add (Nat.dvd_add (Nat.dvd_add hblock hheader) (hstep.mul_right i)) hoffset
  · have hle : l.nodeSize * (i + 1) ≤ elements * l.nodeSize := by
      rw [Nat.mul_comm elements]
      exact Nat.mul_le_mul_left _ hi
    rw [element_eq hfits hi, hsize]
    rw [Nat.mul_succ] at hle
    omega

/-- The numbers of elements that are between the bounds. -/
theorem asyncBlockElements_bounds (hordinal : ordinal < 31) :
    (2 ^ 4 ≤ asyncBlockElements ordinal ∧ asyncBlockElements ordinal ≤ 2 ^ 16) ↔ ordinal ≤ 13 := by
  have hall : ∀ n < 31, (2 ^ 4 ≤ asyncBlockElements n ∧ asyncBlockElements n ≤ 2 ^ 16) ↔ n ≤ 13 := by
    decide
  exact hall ordinal hordinal

end Sound

/-- The size of a node and the number of a block are such that the block is sound. -/
def AsyncPoolLayout.Sizes (elementSize elementAlign ordinal : ℕ) : Prop :=
  ordinal ≤ 13 ∧ vlMemoryPadUp headerBytes elementAlign +
    vlMemoryPadUp elementSize elementAlign < 2 ^ 16

/-- A call of `vlAsyncPoolAllocate` adds a block: none is being added, and there is none behind the
primary one. -/
def AsyncPool.Ends (s : AsyncPool T) : Prop :=
  s.allocatingFlag = false ∧
    (s.primaryBlock.ptr ≠ 0 → ∃ b, s.blocks s.primaryBlock.ptr = some b ∧ b.next = 0)

section Allocate

variable {elementSize bits origin : ℕ} {s : AsyncPool T}

/-- At the end of the list, a block is added as long as the shift is defined. -/
theorem vlAsyncPoolAllocate_ends (l : AsyncPoolLayout) (origin : ℕ) (hends : s.Ends)
    (hordinal : s.totalBlocks < 31) :
    ∃ s', vlAsyncPoolAllocate l s origin true = .ok (true, s') ∧
      vlAsyncPoolAddBlock l s origin = .ok s' := by
  obtain ⟨hflag, hlast⟩ := hends
  obtain ⟨s', hadd⟩ : ∃ s', vlAsyncPoolAddBlock l s origin = .ok s' := by
    simp only [vlAsyncPoolAddBlock]
    rw [if_neg (not_le.mpr hordinal)]
    by_cases hptr : s.primaryBlock.ptr = 0
    · rw [if_pos hptr]
      exact ⟨_, rfl⟩
    · rw [if_neg hptr]
      generalize vlMemAllocAligned origin l.elementAlign = block
      obtain ⟨header, hheader⟩ : ∃ header,
          (s.pushBlock block (asyncBlockElements s.totalBlocks)).blocks s.primaryBlock.ptr =
            some header := by
        by_cases hself : s.primaryBlock.ptr = block
        · rw [hself]
          exact ⟨_, Function.update_self ..⟩
        · obtain ⟨b, hb, -⟩ := hlast hptr
          exact ⟨b, (Function.update_of_ne hself ..).trans hb⟩
      rw [hheader]
      exact ⟨_, rfl⟩
  refine ⟨s', ?_, hadd⟩
  rw [vlAsyncPoolAllocate, if_neg (by simp [hflag])]
  by_cases hptr : s.primaryBlock.ptr = 0
  · rw [if_pos hptr, ok_bind, if_neg (by simp), hadd]
    rfl
  · obtain ⟨b, hb, hnext⟩ := hlast hptr
    rw [if_neg hptr, hb]
    change (if b.next ≠ 0 then _ else _) = _
    rw [if_neg (not_not.mpr hnext), hadd]
    rfl

/-- **Which blocks `vlAsyncPoolAllocate` adds are sound.** -/
theorem vlAsyncPoolAllocate_sound_iff (horigin : origin % 16 = 0) (hends : s.Ends) :
    Returns (vlAsyncPoolAllocate (.init elementSize (2 ^ bits)) s origin true) (fun r =>
        ∃ b, r.2.blocks r.2.primaryBlock.ptr = some b ∧
          AsyncBlockSound (.init elementSize (2 ^ bits)) elementSize r.2.primaryBlock.ptr
            b.elements) ↔
      AsyncPoolLayout.Sizes elementSize (2 ^ bits) s.totalBlocks := by
  constructor
  · rintro ⟨⟨r, s'⟩, hcall, b, hb, hsound⟩
    have hadd : vlAsyncPoolAddBlock (.init elementSize (2 ^ bits)) s origin = .ok s' := by
      rcases vlAsyncPoolAllocate_cases hcall with
        ⟨hfail, -⟩ | ⟨-, -, ⟨block, hblock, hptr, hnext, -⟩ | ⟨-, -, hadd⟩⟩
      · exact absurd hfail (by simp [hends.1])
      · obtain ⟨b', hb', hzero⟩ := hends.2 hptr
        rw [Option.some_injective _ (hblock.symm.trans hb')] at hnext
        exact absurd hzero hnext
      · exact hadd
    obtain ⟨hordinal, -, b', hb', helements, -⟩ := vlAsyncPoolAddBlock_new hadd
    obtain rfl := Option.some_injective _ (hb.symm.trans hb')
    refine ⟨(asyncBlockElements_bounds hordinal).mp (helements ▸ ⟨hsound.min, hsound.max⟩), ?_⟩
    exact lt_of_le_of_lt hsound.node (Nat.mod_lt _ (by norm_num))
  · rintro ⟨hordinal, hsizes⟩
    obtain ⟨s', hcall, hadd⟩ :=
      vlAsyncPoolAllocate_ends (.init elementSize (2 ^ bits)) origin hends (by omega)
    obtain ⟨hlt, hptr, b, hb, helements, -⟩ := vlAsyncPoolAddBlock_new hadd
    obtain ⟨hmin, hmax⟩ := (asyncBlockElements_bounds hlt).mpr hordinal
    refine ⟨_, hcall, b, hb, ?_⟩
    rw [hptr, helements]
    have halign : 0 < 2 ^ bits := Nat.two_pow_pos bits
    have hunwrapped : (AsyncPoolLayout.init elementSize (2 ^ bits)).Unwrapped :=
      asyncPoolLayout_unwrapped halign hsizes
    have hpadded : (AsyncPoolLayout.init elementSize (2 ^ bits)).elementSize =
        vlMemoryPadUp elementSize (2 ^ bits) := Nat.mod_eq_of_lt (by omega)
    exact asyncBlockSound (hpadded ▸ hunwrapped.nodeSize) hunwrapped.bound halign
      (vlMemAllocAligned_aligned horigin) hmin hmax

end Allocate

/-! ### Runs -/

/-- The nodes have their size, and if the call adds a block it is one of the first fourteen. -/
def AsyncPoolCall.Sound (elementSize elementAlign : ℕ) (c : AsyncPoolClient) (o : AsyncPoolCall) :
    Prop :=
  vlMemoryPadUp AsyncPoolLayout.headerBytes elementAlign +
      vlMemoryPadUp elementSize elementAlign < 2 ^ 16 ∧
    match o with
    | .take _ _ => c.pool.Grows → c.pool.totalBlocks ≤ 13
    | .ret _ _ | .clear | .reset | .free => True

/-- The machine restricted to calls that add sound blocks only. -/
def soundAsyncPoolMachine (elementSize elementAlign : ℕ) :
    Machine AsyncPoolClient AsyncPoolCall where
  guard c o := (asyncPoolClientMachine (.init elementSize elementAlign)).guard c o ∧
    o.Sound elementSize elementAlign c
  step := asyncPoolCall (.init elementSize elementAlign)

/-- **Every call returns**, and keeps the list, though it may lose blocks. -/
theorem asyncPoolCall_holds {l : AsyncPoolLayout} (hsize : 0 < l.headerSize) {c : AsyncPoolClient}
    {o : AsyncPoolCall} {lost : List ℕ} (h : c.pool.Holds lost c.released)
    (hg : (asyncPoolClientMachine l).guard c o)
    (hgrow : c.pool.Grows → ∀ origin rounds, o = .take origin rounds → c.pool.totalBlocks < 31) :
    Returns (asyncPoolCall l c o) fun c' =>
      c'.freed = false → ∃ lost, c'.pool.Holds lost c'.released := by
  obtain ⟨-, hg⟩ := hg
  cases o with
  | take origin rounds =>
    obtain ⟨hswaps, -, hfree⟩ := hg
    exact (vlAsyncPoolTake_spec h hsize hfree (fun hgrows => hgrow hgrows _ _ rfl) hswaps).bind
      fun r hr => returns_ok fun _ => ⟨lost, hr.setHeld⟩
  | ret element rounds =>
    exact (vlAsyncPoolReturn_spec h.setHeld hg.2).bind fun r hr => returns_ok fun _ => ⟨lost, hr⟩
  | clear =>
    exact (vlAsyncPoolClear_spec h).bind fun r hr => returns_ok fun _ => ⟨lost, hr.setHeld⟩
  | reset =>
    obtain ⟨before, current, behind, hlined, hperm⟩ := h
    exact (vlAsyncPoolReset_spec hlined hperm).bind
      fun r hr => returns_ok fun _ => ⟨lost ++ behind, hr.setHeld⟩
  | free =>
    obtain ⟨before, current, behind, hlined, hperm⟩ := h
    rw [asyncPoolCall, vlAsyncPoolFree_eq hlined hperm]
    exact returns_ok fun hopen => (by cases hopen)

/-- A sound call does not shift too far. -/
theorem AsyncPoolCall.Sound.ordinal_lt {elementSize elementAlign : ℕ} {c : AsyncPoolClient}
    {o : AsyncPoolCall} (h : o.Sound elementSize elementAlign c) (hgrows : c.pool.Grows) :
    ∀ origin rounds, o = .take origin rounds → c.pool.totalBlocks < 31 := by
  rintro origin rounds rfl
  have := h.2 hgrows
  omega

/-- **Every run** keeps the list, though it may lose blocks. -/
theorem soundAsyncPoolRun_holds {elementSize elementAlign origin : ℕ} (halign : 0 < elementAlign)
    {os : List AsyncPoolCall} {c : AsyncPoolClient}
    (hrun : (soundAsyncPoolMachine elementSize elementAlign).Run
      (.init (.init elementSize elementAlign) origin) os c) :
    c.freed = false → ∃ lost, c.pool.Holds lost c.released := by
  refine hrun.invariant (I := fun c => c.freed = false → ∃ lost, c.pool.Holds lost c.released)
    (fun c o c' hc hg hstep => ?_) fun _ => ⟨[], AsyncPoolClient.init_holds _ _⟩
  obtain ⟨hg, hsound⟩ := hg
  obtain ⟨lost, h⟩ := hc hg.1
  exact (asyncPoolCall_holds (AsyncPoolLayout.init_headerSize_pos halign) h hg
    hsound.ordinal_lt).of_ok hstep

/-- **Which blocks of an asynchronous pool are right.** The block that `vlAsyncPoolAllocate` adds is
sound exactly if it is one of the first fourteen and 16 bits hold the size of a node; and in every
run that adds only such blocks `vlAsyncPoolTake` returns once two of its compare-and-swaps succeed,
so it never goes round forever. -/
theorem vlAsyncPool_geometry_iff (elementSize : UInt16) (bits : Fin 16) :
    (∀ (s : AsyncPool T) (origin : ℕ), origin % 16 = 0 → s.Ends →
      (Returns (vlAsyncPoolAllocate (.init elementSize.toNat (2 ^ bits.val)) s origin true) (fun r =>
          ∃ b, r.2.blocks r.2.primaryBlock.ptr = some b ∧
            AsyncBlockSound (.init elementSize.toNat (2 ^ bits.val)) elementSize.toNat
              r.2.primaryBlock.ptr b.elements) ↔
        AsyncPoolLayout.Sizes elementSize.toNat (2 ^ bits.val) s.totalBlocks)) ∧
    ∀ origin os c, (soundAsyncPoolMachine elementSize.toNat (2 ^ bits.val)).Run
        (.init (.init elementSize.toNat (2 ^ bits.val)) origin) os c →
      ∀ new rounds, (soundAsyncPoolMachine elementSize.toNat (2 ^ bits.val)).guard c
          (.take new rounds) →
        Returns (vlAsyncPoolTake (.init elementSize.toNat (2 ^ bits.val)) c.pool new rounds)
          fun _ => True := by
  refine ⟨fun s origin horigin hends => vlAsyncPoolAllocate_sound_iff horigin hends, ?_⟩
  rintro origin os c hrun new rounds ⟨⟨hfreed, hswaps, -, hfree⟩, hsound⟩
  obtain ⟨lost, h⟩ := soundAsyncPoolRun_holds (Nat.two_pow_pos _) hrun hfreed
  exact (vlAsyncPoolTake_spec h (AsyncPoolLayout.init_headerSize_pos (Nat.two_pow_pos _)) hfree
    (fun hgrows => hsound.ordinal_lt hgrows _ _ rfl) hswaps).mono fun _ _ => trivial

instance (elementSize elementAlign : ℕ) (c : AsyncPoolClient) :
    ∀ o : AsyncPoolCall, Decidable (o.Sound elementSize elementAlign c)
  | .take _ _ => inferInstanceAs (Decidable (_ ∧ (c.pool.Grows → c.pool.totalBlocks ≤ 13)))
  | .ret _ _ | .clear | .reset | .free => inferInstanceAs (Decidable (_ ∧ True))

instance (elementSize elementAlign : ℕ) (c : AsyncPoolClient) (o : AsyncPoolCall) :
    Decidable ((soundAsyncPoolMachine elementSize elementAlign).guard c o) :=
  inferInstanceAs (Decidable ((asyncPoolClientMachine (.init elementSize elementAlign)).guard c o ∧
    o.Sound elementSize elementAlign c))

/-- With elements of 8 bytes, the call that needs a second block returns. -/
theorem vlAsyncPool_geometry_17 : ∃ c, (soundAsyncPoolMachine 8 8).Run (.init (.init 8 8) 4096)
      (.replicate 16 (.take 8192 [true, true])) c ∧
    Returns (vlAsyncPoolTake (.init 8 8) c.pool 8192 [true, false, true]) fun _ => True := by
  obtain ⟨c, hrun, hc⟩ := Machine.exists_run_of_exec (M := soundAsyncPoolMachine 8 8)
    (s := .init (.init 8 8) 4096)
    (p := fun c => decide ((soundAsyncPoolMachine 8 8).guard c (.take 8192 [true, false, true])))
    (show ((soundAsyncPoolMachine 8 8).exec _
      (.replicate 16 (.take 8192 [true, true]))).any _ = true by decide +kernel)
  exact ⟨c, hrun, (vlAsyncPool_geometry_iff (T := Unit) 8 3).2 4096 _ c hrun 8192 _
    (of_decide_eq_true hc)⟩

/-- Thirteen times 17 elements are taken and the pool is reset, and then 16 more are taken: the
fifteenth block is added with 131072 elements. -/
theorem vlAsyncPool_geometry_ordinal_14 : ∃ c, (asyncPoolClientMachine (.init 8 8)).Run
      (.init (.init 8 8) 4096)
      ((List.replicate 13 (.replicate 17 (.take 16777216 [true, true]) ++ [.reset])).flatten ++
        .replicate 16 (.take 16777216 [true, true])) c ∧
    c.pool.Ends ∧ c.pool.Grows ∧
    ¬ Returns (vlAsyncPoolAllocate (.init 8 8) c.pool 16777216 true) fun r =>
      ∃ b, r.2.blocks r.2.primaryBlock.ptr = some b ∧
        AsyncBlockSound (.init 8 8) 8 r.2.primaryBlock.ptr b.elements := by
  obtain ⟨c, hrun, hc⟩ := Machine.exists_run_of_exec (M := asyncPoolClientMachine (.init 8 8))
    (s := .init (.init 8 8) 4096)
    (p := fun c => decide (c.pool.allocatingFlag = false) && decide c.pool.Grows &&
      decide (c.pool.totalBlocks = 14) &&
      (c.pool.blocks c.pool.primaryBlock.ptr).any fun b : AsyncBlock => decide (b.next = 0))
    (show ((asyncPoolClientMachine (.init 8 8)).exec _
      ((List.replicate 13 (.replicate 17 (.take 16777216 [true, true]) ++ [.reset])).flatten ++
        .replicate 16 (.take 16777216 [true, true]))).any _ = true by decide +kernel)
  simp only [Bool.and_eq_true, decide_eq_true_eq] at hc
  obtain ⟨⟨⟨hflag, hgrows⟩, hordinal⟩, hlast⟩ := hc
  obtain ⟨b, hb, hnext⟩ := (Option.any_eq_true _ _).mp hlast
  have hends : c.pool.Ends := ⟨hflag, fun _ => ⟨b, hb, of_decide_eq_true hnext⟩⟩
  refine ⟨c, hrun, hends, hgrows, fun hsound => ?_⟩
  have hsizes : AsyncPoolLayout.Sizes 8 (2 ^ 3) c.pool.totalBlocks :=
    (vlAsyncPoolAllocate_sound_iff (by decide) hends).mp hsound
  have := hsizes.1
  omega

end VeritableLasagna
