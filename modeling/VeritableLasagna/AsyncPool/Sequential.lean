import VeritableLasagna.AsyncPool.Blocks
import VeritableLasagna.Memory.Aligned

/-!
# The asynchronous pool with one thread

The calls of `vl_async_pool` when a single thread makes them, each from start to end, over the state
of the interleaving model. Next to `vlAsyncPoolTake` and `vlAsyncPoolReturn`, which threads may make
at any time, there are `vlAsyncPoolClear`, `vlAsyncPoolReset` and `vlAsyncPoolFree`, which the header
asks to synchronise.

* A weak compare-and-swap may still fail for no reason. The retry loops take a list of rounds that
  says which of them succeed, and a call that uses up the list has not returned.
* A block lies where `vlMemAllocAligned` puts it in the memory that `malloc` returned at `origin`.
* From ordinal 31 on, `1 << ordinal` is no `int`, which is a fault here.

`vlAsyncPoolTake_run` ties the two models: what a call does here, a thread of the interleaving model
does when no other thread moves.
-/

namespace VeritableLasagna

variable {T : Type}

/-- A new block, which comes behind the primary one and becomes the primary one. -/
def AsyncPool.pushBlock (s : AsyncPool T) (block elements : ℕ) : AsyncPool T :=
  { s.setBlock block ⟨0, s.primaryBlock.ptr, elements, 0⟩ with
    allocated := block :: s.allocated
    totalBlocks := (s.totalBlocks + 1) % 2 ^ 16
    primaryBlock := s.primaryBlock.next block }

/-- The part of `vlAsyncPoolAllocate` that adds a block. -/
def vlAsyncPoolAddBlock (l : AsyncPoolLayout) (s : AsyncPool T) (origin : ℕ) :
    Except Fault (AsyncPool T) :=
  let ordinal := s.totalBlocks
  let primary := s.primaryBlock.ptr
  if 31 ≤ ordinal then .error .signedOverflow
  else do
    let block := vlMemAllocAligned origin l.elementAlign
    let s := s.pushBlock block (asyncBlockElements ordinal)
    if primary = 0 then return s
    else do
      let header ← deref (s.blocks primary)
      return s.setBlock primary { header with next := block }

/-- `vlAsyncPoolAllocate`; `swapped` tells whether its compare-and-swap succeeds. -/
def vlAsyncPoolAllocate (l : AsyncPoolLayout) (s : AsyncPool T) (origin : ℕ) (swapped : Bool) :
    Except Fault (Bool × AsyncPool T) :=
  if s.allocatingFlag ∨ swapped = false then .ok (false, s)
  else do
    let next ←
      (if s.primaryBlock.ptr = 0 then .ok 0
      else (deref (s.blocks s.primaryBlock.ptr)).map AsyncBlock.next)
    if next ≠ 0 then return (true, { s with primaryBlock := s.primaryBlock.next next })
    else do
      let s ← vlAsyncPoolAddBlock l s origin
      return (true, s)

/-- A pool without a block, as `vlAsyncPoolInitAligned` sets it up before its allocation. -/
def AsyncPool.blank : AsyncPool T where
  freeStack := ⟨0, 0⟩
  freeLength := 0
  primaryBlock := ⟨0, 0⟩
  allocatingFlag := false
  totalBlocks := 0
  blocks := fun _ => none
  allocated := []
  nodeNext := fun _ => 0
  pc := fun _ => .idle
  held := fun _ => []

/-- `vlAsyncPoolInitAligned`. It allocates once, and if its compare-and-swap fails the pool is left
without a block. -/
def vlAsyncPoolInitAligned (l : AsyncPoolLayout) (origin : ℕ) (swapped : Bool) :
    Except Fault (AsyncPool T) :=
  (vlAsyncPoolAllocate l .blank origin swapped).map Prod.snd

/-- One round of the loop of `vlAsyncPoolTake`: the element, if the round returns one. -/
def vlAsyncPoolTakeRound (l : AsyncPoolLayout) (s : AsyncPool T) (origin : ℕ) (swapped : Bool) :
    Except Fault (Option ℕ × AsyncPool T) :=
  let top := s.freeStack
  if top.ptr ≠ 0 then
    let next := s.nodeNext top.ptr
    if swapped then
      .ok (some (top.ptr + l.headerOffset), { s with
        freeStack := top.next next
        freeLength := (s.freeLength + (2 ^ 32 - 1)) % 2 ^ 32 })
    else .ok (none, s)
  else do
    let primary := s.primaryBlock.ptr
    let block ← deref (s.blocks primary)
    if block.elements ≤ block.taken then do
      let (_, s) ← vlAsyncPoolAllocate l s origin swapped
      return (none, s)
    else if swapped then
      return (some (l.node primary block.taken + l.headerOffset),
        s.setBlock primary { block with taken := block.taken + 1 })
    else return (none, s)

/-- `vlAsyncPoolTake`, over the rounds its loop may take. -/
def vlAsyncPoolTake (l : AsyncPoolLayout) (s : AsyncPool T) (origin : ℕ) :
    List Bool → Except Fault (ℕ × AsyncPool T)
  | [] => .error .noReturn
  | swapped :: rounds => do
    let (element, s) ← vlAsyncPoolTakeRound l s origin swapped
    match element with
    | some element => return (element, s)
    | none => vlAsyncPoolTake l s origin rounds

/-- `vlAsyncPoolReturn`, over the rounds its loop may take. -/
def vlAsyncPoolReturn (l : AsyncPoolLayout) (s : AsyncPool T) (element : ℕ) :
    List Bool → Except Fault (AsyncPool T)
  | [] => .error .noReturn
  | swapped :: rounds =>
    let node := element - l.headerOffset
    let top := s.freeStack
    let s := { s with nodeNext := Function.update s.nodeNext node top.ptr }
    if swapped then
      .ok { s with freeStack := top.next node, freeLength := (s.freeLength + 1) % 2 ^ 32 }
    else vlAsyncPoolReturn l s element rounds

/-- Remove a block from memory: `vlMemFree`. -/
def AsyncPool.dropBlock (s : AsyncPool T) (address : ℕ) : AsyncPool T :=
  { s with blocks := Function.update s.blocks address none }

/-- The free stack is emptied: the last two stores of `vlAsyncPoolClear` and `vlAsyncPoolReset`. -/
def AsyncPool.dropFree (s : AsyncPool T) : AsyncPool T :=
  { s with freeLength := 0, freeStack := ⟨0, 0⟩ }

/-- The loop of `vlAsyncPoolClear`, from the block `current` backwards. -/
def vlAsyncPoolClearLoop (s : AsyncPool T) : ℕ → ℕ → Except Fault (AsyncPool T)
  | _, 0 => .ok s
  | 0, _ + 1 => .error .noReturn
  | fuel + 1, current@(_ + 1) => do
    let block ← deref (s.blocks current)
    let s := s.setBlock current { block with taken := 0 }
    let s := if block.prev = 0 then { s with primaryBlock := s.primaryBlock.next current } else s
    vlAsyncPoolClearLoop s fuel block.prev

/-- `vlAsyncPoolClear`. -/
def vlAsyncPoolClear (s : AsyncPool T) : Except Fault (AsyncPool T) := do
  let s ← vlAsyncPoolClearLoop s s.allocated.length s.primaryBlock.ptr
  return s.dropFree

/-- The loop of `vlAsyncPoolReset`, from the block `current` backwards, with the last block it saw.
Returns the blocks it released and the last block it saw. -/
def vlAsyncPoolResetLoop (s : AsyncPool T) (last : ℕ) :
    ℕ → ℕ → Except Fault (List ℕ × ℕ × AsyncPool T)
  | _, 0 => .ok ([], last, s)
  | 0, _ + 1 => .error .noReturn
  | fuel + 1, current@(_ + 1) => do
    let block ← deref (s.blocks current)
    let s := s.setBlock current { block with taken := 0 }
    if block.prev ≠ 0 then do
      let (released, last, s) ← vlAsyncPoolResetLoop (s.dropBlock current) current fuel block.prev
      return (current :: released, last, s)
    else
      vlAsyncPoolResetLoop { s with primaryBlock := s.primaryBlock.next current } current fuel
        block.prev

/-- `vlAsyncPoolReset`. Returns the blocks it released. -/
def vlAsyncPoolReset (s : AsyncPool T) : Except Fault (List ℕ × AsyncPool T) := do
  let (released, last, s) ← vlAsyncPoolResetLoop s 0 s.allocated.length s.primaryBlock.ptr
  let block ← deref (s.blocks last)
  let s := s.setBlock last { block with prev := 0, next := 0 }
  return (released, s.dropFree)

/-- The loop of `vlAsyncPoolFree`, from the block `current` forwards. Returns the blocks it
released. -/
def vlAsyncPoolFreeLoop (s : AsyncPool T) : ℕ → ℕ → Except Fault (List ℕ × AsyncPool T)
  | _, 0 => .ok ([], s)
  | 0, _ + 1 => .error .noReturn
  | fuel + 1, current@(_ + 1) => do
    let block ← deref (s.blocks current)
    let (released, s) ← vlAsyncPoolFreeLoop (s.dropBlock current) fuel block.next
    return (current :: released, s)

/-- `vlAsyncPoolFree`. Returns the blocks it released. -/
def vlAsyncPoolFree (s : AsyncPool T) : Except Fault (List ℕ × AsyncPool T) :=
  vlAsyncPoolFreeLoop s s.allocated.length s.primaryBlock.ptr

/-- **The pool starts with one block**. -/
theorem vlAsyncPoolInitAligned_eq (l : AsyncPoolLayout) (origin : ℕ) :
    vlAsyncPoolInitAligned l origin true =
      .ok (AsyncPool.init (vlMemAllocAligned origin l.elementAlign) : AsyncPool T) := rfl

/-! ### The flag -/

section Flag

variable {l : AsyncPoolLayout} {s s' : AsyncPool T} {origin : ℕ} {flag : Bool}

namespace AsyncPool

/-- The pool with the flag in a given state. -/
def setFlag (s : AsyncPool T) (flag : Bool) : AsyncPool T := { s with allocatingFlag := flag }

@[simp] theorem setFlag_totalBlocks : (s.setFlag flag).totalBlocks = s.totalBlocks := rfl

@[simp] theorem setFlag_primaryBlock : (s.setFlag flag).primaryBlock = s.primaryBlock := rfl

@[simp] theorem setFlag_blocks : (s.setFlag flag).blocks = s.blocks := rfl

theorem pushBlock_setFlag {block elements : ℕ} :
    (s.setFlag flag).pushBlock block elements = (s.pushBlock block elements).setFlag flag := rfl

/-- Adding a block neither reads nor writes the flag. -/
theorem addBlock_setFlag (h : vlAsyncPoolAddBlock l s origin = .ok s') (flag : Bool) :
    vlAsyncPoolAddBlock l (s.setFlag flag) origin = .ok (s'.setFlag flag) ∧
      s'.allocatingFlag = s.allocatingFlag := by
  simp only [vlAsyncPoolAddBlock, setFlag_totalBlocks, setFlag_primaryBlock, pushBlock_setFlag,
    setFlag_blocks] at h ⊢
  by_cases hordinal : 31 ≤ s.totalBlocks
  · rw [if_pos hordinal] at h
    cases h
  rw [if_neg hordinal] at h
  by_cases hprimary : s.primaryBlock.ptr = 0
  · rw [if_pos hprimary] at h
    obtain rfl := Except.ok.inj h
    exact ⟨(if_neg hordinal).trans (if_pos hprimary), rfl⟩
  · rw [if_neg hprimary] at h
    obtain ⟨header, hheader, hs⟩ := exists_of_bind_eq_ok h
    obtain rfl := Except.ok.inj hs
    refine ⟨(if_neg hordinal).trans ((if_neg hprimary).trans ?_), rfl⟩
    rw [hheader]
    rfl

end AsyncPool

end Flag

/-- **Blocks are never empty**, as long as the shift is defined. -/
theorem asyncBlockElements_pos {ordinal : ℕ} (h : ordinal < 31) : 0 < asyncBlockElements ordinal := by
  have hall : ∀ n < 31, 0 < asyncBlockElements n := by decide
  exact hall ordinal h

/-! ### What the calls do to the blocks -/

section Cases

variable {l : AsyncPoolLayout} {s s' : AsyncPool T} {origin : ℕ} {swapped r : Bool}

/-- What has to be there is there. -/
theorem eq_some_of_deref {α : Type*} {o : Option α} {a : α} (h : deref o = .ok a) : o = some a := by
  cases o with
  | none => cases h
  | some b => rw [Except.ok.inj h]

/-- **What `vlAsyncPoolAllocate` can do**: nothing, or move on to the block behind the primary one,
or add a block when there is none. -/
theorem vlAsyncPoolAllocate_cases (h : vlAsyncPoolAllocate l s origin swapped = .ok (r, s')) :
    (s.allocatingFlag = true ∨ swapped = false) ∧ s' = s ∨
      s.allocatingFlag = false ∧ swapped = true ∧
        ((∃ block, s.blocks s.primaryBlock.ptr = some block ∧ s.primaryBlock.ptr ≠ 0 ∧
            block.next ≠ 0 ∧ s' = { s with primaryBlock := s.primaryBlock.next block.next }) ∨
          (∀ block ∈ s.blocks s.primaryBlock.ptr, s.primaryBlock.ptr ≠ 0 → block.next = 0) ∧
            (s.primaryBlock.ptr ≠ 0 → (s.blocks s.primaryBlock.ptr).isSome) ∧
            vlAsyncPoolAddBlock l s origin = .ok s') := by
  rw [vlAsyncPoolAllocate] at h
  by_cases hfail : s.allocatingFlag = true ∨ swapped = false
  · rw [if_pos hfail] at h
    exact Or.inl ⟨hfail, (Prod.mk.inj (Except.ok.inj h)).2.symm⟩
  rw [if_neg hfail] at h
  obtain ⟨hflag, hswapped⟩ := not_or.mp hfail
  refine Or.inr ⟨Bool.eq_false_iff.mpr hflag, Bool.eq_true_of_not_eq_false hswapped, ?_⟩
  obtain ⟨next, hnext, h⟩ := exists_of_bind_eq_ok h
  have hread : s.primaryBlock.ptr ≠ 0 →
      ∃ block, s.blocks s.primaryBlock.ptr = some block ∧ block.next = next := by
    intro hptr
    rw [if_neg hptr] at hnext
    cases hblock : deref (s.blocks s.primaryBlock.ptr) with
    | error e =>
      rw [hblock] at hnext
      cases hnext
    | ok block =>
      rw [hblock] at hnext
      exact ⟨block, eq_some_of_deref hblock, Except.ok.inj hnext⟩
  by_cases hnone : next = 0
  · obtain ⟨v, hv, h⟩ := exists_of_bind_eq_ok ((if_neg (not_not.mpr hnone)).symm.trans h)
    obtain ⟨-, rfl⟩ := Prod.mk.inj (Except.ok.inj h)
    refine Or.inr ⟨fun block hblock hptr => ?_, fun hptr => ?_, hv⟩
    · obtain ⟨block', hblock', rfl⟩ := hread hptr
      rwa [Option.some_injective _ (hblock.symm.trans hblock')]
    · obtain ⟨block, hblock, -⟩ := hread hptr
      rw [hblock]
      rfl
  · obtain ⟨-, rfl⟩ := Prod.mk.inj (Except.ok.inj ((if_pos hnone).symm.trans h))
    have hptr : s.primaryBlock.ptr ≠ 0 := by
      intro hptr
      rw [if_pos hptr] at hnext
      exact hnone (Except.ok.inj hnext).symm
    obtain ⟨block, hblock, rfl⟩ := hread hptr
    exact Or.inl ⟨block, hblock, hptr, hnone, rfl⟩

/-- **What adding a block can do**. -/
theorem vlAsyncPoolAddBlock_cases (h : vlAsyncPoolAddBlock l s origin = .ok s') :
    s.totalBlocks < 31 ∧ ∃ block, block = vlMemAllocAligned origin l.elementAlign ∧
      (s.primaryBlock.ptr = 0 ∧ s' = s.pushBlock block (asyncBlockElements s.totalBlocks) ∨
        s.primaryBlock.ptr ≠ 0 ∧ ∃ header,
          (s.pushBlock block (asyncBlockElements s.totalBlocks)).blocks s.primaryBlock.ptr =
            some header ∧
          s' = (s.pushBlock block (asyncBlockElements s.totalBlocks)).setBlock s.primaryBlock.ptr
            { header with next := block }) := by
  simp only [vlAsyncPoolAddBlock] at h
  by_cases hordinal : 31 ≤ s.totalBlocks
  · rw [if_pos hordinal] at h
    cases h
  rw [if_neg hordinal] at h
  refine ⟨not_le.mp hordinal, _, rfl, ?_⟩
  by_cases hprimary : s.primaryBlock.ptr = 0
  · rw [if_pos hprimary] at h
    exact Or.inl ⟨hprimary, (Except.ok.inj h).symm⟩
  · rw [if_neg hprimary] at h
    obtain ⟨header, hheader, hs⟩ := exists_of_bind_eq_ok h
    exact Or.inr ⟨hprimary, header, eq_some_of_deref hheader, (Except.ok.inj hs).symm⟩

/-- The block that is added becomes the primary one. -/
theorem vlAsyncPoolAddBlock_new (h : vlAsyncPoolAddBlock l s origin = .ok s') :
    s.totalBlocks < 31 ∧ s'.primaryBlock.ptr = vlMemAllocAligned origin l.elementAlign ∧
      ∃ b, s'.blocks s'.primaryBlock.ptr = some b ∧
        b.elements = asyncBlockElements s.totalBlocks ∧ b.taken = 0 := by
  obtain ⟨hordinal, block, hblock, hcases⟩ := vlAsyncPoolAddBlock_cases h
  rw [← hblock]
  have hself : (s.pushBlock block (asyncBlockElements s.totalBlocks)).blocks block =
      some ⟨0, s.primaryBlock.ptr, asyncBlockElements s.totalBlocks, 0⟩ := Function.update_self ..
  rcases hcases with ⟨-, rfl⟩ | ⟨-, header, hheader, rfl⟩
  · exact ⟨hordinal, rfl, _, hself, rfl, rfl⟩
  · refine ⟨hordinal, rfl, ?_⟩
    by_cases hptr : s.primaryBlock.ptr = block
    · rw [hptr, hself] at hheader
      obtain rfl := Option.some_injective _ hheader
      rw [hptr]
      exact ⟨_, Function.update_self .., rfl, rfl⟩
    · refine ⟨⟨0, s.primaryBlock.ptr, asyncBlockElements s.totalBlocks, 0⟩, ?_, rfl, rfl⟩
      change Function.update _ _ _ block = _
      rw [Function.update_of_ne (Ne.symm hptr)]
      exact hself

/-- Threads stay where they are and keep what they hold. -/
theorem vlAsyncPoolAllocate_threads (h : vlAsyncPoolAllocate l s origin swapped = .ok (r, s')) :
    s'.pc = s.pc ∧ s'.held = s.held := by
  rcases vlAsyncPoolAllocate_cases h with
    ⟨-, rfl⟩ | ⟨-, -, ⟨block, -, -, -, rfl⟩ | ⟨-, -, hadd⟩⟩
  · exact ⟨rfl, rfl⟩
  · exact ⟨rfl, rfl⟩
  · obtain ⟨-, block, -, ⟨-, rfl⟩ | ⟨-, header, -, rfl⟩⟩ := vlAsyncPoolAddBlock_cases hadd
    · exact ⟨rfl, rfl⟩
    · exact ⟨rfl, rfl⟩

namespace AsyncPool

/-- A block can be added, or the primary block has elements left: what a call of `vlAsyncPoolTake`
keeps from round to round. -/
def Ready (l : AsyncPoolLayout) (s : AsyncPool T) (origin : ℕ) : Prop :=
  s.Free l (vlMemAllocAligned origin l.elementAlign) (asyncBlockElements s.totalBlocks) ∨
    ∃ block, s.blocks s.primaryBlock.ptr = some block ∧ block.taken < block.elements

theorem Ready.congr (h : s.Ready l origin) (hblocks : s'.blocks = s.blocks)
    (hallocated : s'.allocated = s.allocated) (htotal : s'.totalBlocks = s.totalBlocks)
    (hprimary : s'.primaryBlock = s.primaryBlock) : s'.Ready l origin := by
  rw [Ready, Free, hblocks, hallocated, htotal, hprimary]
  exact h

/-- A call of `vlAsyncPoolAllocate` in `vlAsyncPoolTake` keeps what the next round needs. -/
theorem Ready.allocate {swapped r : Bool}
    (hfree : s.Free l (vlMemAllocAligned origin l.elementAlign)
      (asyncBlockElements s.totalBlocks))
    (h : vlAsyncPoolAllocate l s origin swapped = .ok (r, s')) : s'.Ready l origin := by
  rcases vlAsyncPoolAllocate_cases h with
    ⟨-, rfl⟩ | ⟨-, -, ⟨block, -, -, -, rfl⟩ | ⟨-, -, hadd⟩⟩
  · exact Or.inl hfree
  · exact Or.inl hfree
  · -- the new block is the primary one, and has all of its elements
    obtain ⟨hordinal, -, b, hb, helements, htaken⟩ := vlAsyncPoolAddBlock_new hadd
    refine Or.inr ⟨b, hb, ?_⟩
    rw [htaken, helements]
    exact asyncBlockElements_pos hordinal

end AsyncPool

end Cases

/-! ### One thread of the interleaving model -/

section Interleaving

variable [DecidableEq T] {l : AsyncPoolLayout} {s s' : AsyncPool T} {t : T} {origin element : ℕ}
  {rounds : List Bool} {os : List (AsyncPoolOp T)} {pc : AsyncPoolPc}

namespace AsyncPool

@[simp] theorem setPc_self : (s.setPc t pc).pc t = pc := Function.update_self ..

@[simp] theorem setPc_setPc {pc' : AsyncPoolPc} : (s.setPc t pc).setPc t pc' = s.setPc t pc' := by
  rw [setPc, setPc, setPc, Function.update_idem]

@[simp] theorem setPc_freeStack : (s.setPc t pc).freeStack = s.freeStack := rfl

@[simp] theorem setPc_primaryBlock : (s.setPc t pc).primaryBlock = s.primaryBlock := rfl

@[simp] theorem setPc_allocatingFlag : (s.setPc t pc).allocatingFlag = s.allocatingFlag := rfl

@[simp] theorem setPc_totalBlocks : (s.setPc t pc).totalBlocks = s.totalBlocks := rfl

@[simp] theorem setPc_blocks : (s.setPc t pc).blocks = s.blocks := rfl

@[simp] theorem setPc_nodeNext : (s.setPc t pc).nodeNext = s.nodeNext := rfl

theorem setPc_eq_self (h : s.pc t = pc) : s.setPc t pc = s := by
  rw [setPc, ← h, Function.update_eq_self]

/-- The next access of a thread, as the first step of a run. -/
theorem run_advance {next final : AsyncPool T}
    (hstep : asyncPoolAdvance l (s.setPc t pc) t = .ok next)
    (h : ∃ os, (asyncPoolMachine l T).Run next os final) (hidle : pc ≠ .idle := by simp)
    (hblock : pc.allocating = none := by rfl) :
    ∃ os, (asyncPoolMachine l T).Run (s.setPc t pc) os final := by
  obtain ⟨os, h⟩ := h
  have hguard : (s.setPc t pc).pc t ≠ .idle ∧ ((s.setPc t pc).pc t).allocating = none := by
    rw [setPc_self]
    exact ⟨hidle, hblock⟩
  exact ⟨.advance t :: os, .cons hguard hstep h⟩

/-- A spurious failure of a compare-and-swap, as the first step of a run. -/
theorem run_fail {final : AsyncPool T} {pc' : AsyncPoolPc} (hpc : pc.failed = some pc')
    (h : ∃ os, (asyncPoolMachine l T).Run (s.setPc t pc') os final) :
    ∃ os, (asyncPoolMachine l T).Run (s.setPc t pc) os final := by
  obtain ⟨os, h⟩ := h
  have hguard : (((s.setPc t pc).pc t).failed).isSome := by
    rw [setPc_self, hpc]
    rfl
  refine ⟨.fail t :: os, .cons hguard ?_ h⟩
  change Except.ok ((s.setPc t pc).setPc t
    (((s.setPc t pc).pc t).failed.getD ((s.setPc t pc).pc t))) = _
  rw [setPc_self, setPc_setPc, hpc]
  rfl

/-- The steps of a thread from the load of `totalBlocks` to the store of the primary block. -/
theorem run_pushBlock {final : AsyncPool T} {block : ℕ}
    (hfree : s.Free l block (asyncBlockElements s.totalBlocks))
    (h : ∃ os, (asyncPoolMachine l T).Run
      ((s.pushBlock block (asyncBlockElements s.totalBlocks)).setPc t
        (if s.primaryBlock.ptr = 0 then .allocRelease else .allocLink s.primaryBlock.ptr block))
      os final) :
    ∃ os, (asyncPoolMachine l T).Run (s.setPc t (.allocOrdinal s.primaryBlock.ptr)) os final := by
  let elements := asyncBlockElements s.totalBlocks
  let link := if s.primaryBlock.ptr = 0 then none else some s.primaryBlock.ptr
  let u : AsyncPool T := { s.setBlock block ⟨0, s.primaryBlock.ptr, elements, 0⟩ with
    allocated := block :: s.allocated }
  let v : AsyncPool T := { u with totalBlocks := (s.totalBlocks + 1) % 2 ^ 16 }
  have hordinal : asyncPoolAdvance l (s.setPc t (.allocOrdinal s.primaryBlock.ptr)) t =
      .ok (s.setPc t (.allocBlock s.primaryBlock.ptr s.totalBlocks)) := by
    simp [asyncPoolAdvance]
  have hblock : asyncPoolAllocateBlock
      (s.setPc t (.allocBlock s.primaryBlock.ptr s.totalBlocks)) t block =
      u.setPc t (.allocTotal s.primaryBlock.ptr block) := by
    simp [asyncPoolAllocateBlock, u, setBlock, setPc, elements]
  have htotal : asyncPoolAdvance l (u.setPc t (.allocTotal s.primaryBlock.ptr block)) t =
      .ok (v.setPc t (.allocLoad link block)) := by
    simp [asyncPoolAdvance, v, u, setBlock, setPc, link]
  have hload : asyncPoolAdvance l (v.setPc t (.allocLoad link block)) t =
      .ok (v.setPc t (.allocStore link block s.primaryBlock)) := by
    simp [asyncPoolAdvance, v, u, setBlock]
  have hstore : asyncPoolAdvance l (v.setPc t (.allocStore link block s.primaryBlock)) t =
      .ok ((s.pushBlock block elements).setPc t
        (if s.primaryBlock.ptr = 0 then .allocRelease else .allocLink s.primaryBlock.ptr block)) := by
    by_cases hptr : s.primaryBlock.ptr = 0
    · simp [asyncPoolAdvance, link, hptr, v, u, setPc, setBlock, pushBlock]
    · simp [asyncPoolAdvance, link, hptr, v, u, setPc, setBlock, pushBlock]
  refine run_advance hordinal ?_
  obtain ⟨os, hrest⟩ := run_advance htotal (run_advance hload (run_advance hstore h))
  refine ⟨.allocate t block :: os, .cons ⟨by simp [AsyncPoolPc.allocating], ?_⟩
    (congrArg Except.ok hblock) hrest⟩
  intro ordinal hmem
  obtain rfl : s.totalBlocks = ordinal := by simpa [AsyncPoolPc.allocating] using hmem
  exact hfree

/-- The steps of a thread that adds a block. -/
theorem run_addBlock (hfree : s.Free l (vlMemAllocAligned origin l.elementAlign)
      (asyncBlockElements s.totalBlocks))
    (h : vlAsyncPoolAddBlock l s origin = .ok s') :
    ∃ os, (asyncPoolMachine l T).Run (s.setPc t (.allocOrdinal s.primaryBlock.ptr)) os
      (s'.setPc t .allocRelease) := by
  obtain ⟨-, block, rfl, ⟨hprimary, rfl⟩ | ⟨hprimary, header, hheader, rfl⟩⟩ :=
    vlAsyncPoolAddBlock_cases h
  · refine run_pushBlock hfree ?_
    rw [if_pos hprimary]
    exact ⟨[], .nil _⟩
  · refine run_pushBlock hfree ?_
    rw [if_neg hprimary]
    refine run_advance ?_ ⟨[], .nil _⟩
    simp only [asyncPoolAdvance, setPc_self, setPc_blocks, hheader, deref_some, ok_bind,
      setPc_setPc]
    rfl

/-- The steps of a thread in `vlAsyncPoolAllocate`. -/
theorem run_allocate {swapped r : Bool}
    (hfree : s.Free l (vlMemAllocAligned origin l.elementAlign)
      (asyncBlockElements s.totalBlocks))
    (h : vlAsyncPoolAllocate l s origin swapped = .ok (r, s')) :
    ∃ os, (asyncPoolMachine l T).Run (s.setPc t .allocFlag) os (s'.setPc t .takeTop) := by
  rcases vlAsyncPoolAllocate_cases h with ⟨hfail, rfl⟩ | ⟨hflag, -, hcases⟩
  · by_cases hflag : s'.allocatingFlag = true
    · refine run_advance ?_ ⟨[], .nil _⟩
      simp [asyncPoolAdvance, hflag]
    · exact run_fail rfl ⟨[], .nil _⟩
  -- the flag is set, and the end of the call sets it back
  let u := s.setFlag true
  have hstart : asyncPoolAdvance l (s.setPc t .allocFlag) t = .ok (u.setPc t .allocPrimary) := by
    simp [asyncPoolAdvance, hflag, u, setFlag, setPc]
  have hprimary : asyncPoolAdvance l (u.setPc t .allocPrimary) t = .ok (u.setPc t
      (if s.primaryBlock.ptr = 0 then .allocOrdinal 0 else .allocNext s.primaryBlock.ptr)) := by
    simp [asyncPoolAdvance, u, setFlag]
  have hrelease : ∀ v : AsyncPool T, v.allocatingFlag = false →
      asyncPoolAdvance l ((v.setFlag true).setPc t .allocRelease) t = .ok (v.setPc t .takeTop) := by
    intro v hv
    simp [asyncPoolAdvance, setFlag, setPc, ← hv]
  refine run_advance hstart (run_advance hprimary ?_)
  rcases hcases with ⟨block, hblock, hptr, hnext, rfl⟩ | ⟨hlast, hsome, hadd⟩
  · -- the block behind the primary one becomes the primary one
    have hread : asyncPoolAdvance l (u.setPc t (.allocNext s.primaryBlock.ptr)) t =
        .ok (u.setPc t (.allocLoad none block.next)) := by
      simp [asyncPoolAdvance, u, hblock, hnext]
    have hload : asyncPoolAdvance l (u.setPc t (.allocLoad none block.next)) t =
        .ok (u.setPc t (.allocStore none block.next s.primaryBlock)) := by
      simp [asyncPoolAdvance, u]
    have hstore : asyncPoolAdvance l (u.setPc t (.allocStore none block.next s.primaryBlock)) t =
        .ok (({ s with primaryBlock := s.primaryBlock.next block.next }.setFlag true).setPc t
          .allocRelease) := by
      simp [asyncPoolAdvance, u, setFlag, setPc]
    rw [if_neg hptr]
    exact run_advance hread (run_advance hload (run_advance hstore
      (run_advance (hrelease _ hflag) ⟨[], .nil _⟩)))
  · -- a block is added
    obtain ⟨hu, hsame⟩ := addBlock_setFlag hadd true
    obtain ⟨os, hrun⟩ := run_addBlock (s := u) (t := t) hfree hu
    obtain ⟨os', hend⟩ := run_advance (hrelease s' (hsame.trans hflag)) ⟨[], .nil _⟩
    have hrest := hrun.append hend
    by_cases hptr : s.primaryBlock.ptr = 0
    · rw [if_pos hptr, ← hptr]
      exact ⟨_, hrest⟩
    · rw [if_neg hptr]
      refine run_advance ?_ ⟨_, hrest⟩
      obtain ⟨block, hblock⟩ := Option.isSome_iff_exists.mp (hsome hptr)
      simp [asyncPoolAdvance, u, hblock, hlast block hblock hptr]

/-- The steps of a thread in a round of `vlAsyncPoolTake`, and what the next round needs. -/
theorem run_takeRound {swapped : Bool} {r : Option ℕ} (hready : s.Ready l origin)
    (h : vlAsyncPoolTakeRound l s origin swapped = .ok (r, s')) :
    (∃ os, (asyncPoolMachine l T).Run (s.setPc t .takeTop) os
      (match r with
        | none => s'.setPc t .takeTop
        | some e => (s'.setPc t .idle).setHeld t (s.held t ++ [e]))) ∧
      s'.pc = s.pc ∧ s'.held = s.held ∧ (r = none → s'.Ready l origin) := by
  simp only [vlAsyncPoolTakeRound] at h
  by_cases htop : s.freeStack.ptr ≠ 0
  · rw [if_pos htop] at h
    have hload : asyncPoolAdvance l (s.setPc t .takeTop) t =
        .ok (s.setPc t (.takeNext s.freeStack)) := by
      simp [asyncPoolAdvance, htop]
    have hnext : asyncPoolAdvance l (s.setPc t (.takeNext s.freeStack)) t =
        .ok (s.setPc t (.takeSwap s.freeStack (s.nodeNext s.freeStack.ptr))) := by
      simp [asyncPoolAdvance]
    cases swapped with
    | false =>
      obtain ⟨rfl, rfl⟩ := Prod.mk.inj (Except.ok.inj h)
      exact ⟨run_advance hload (run_advance hnext (run_fail rfl ⟨[], .nil _⟩)), rfl, rfl,
        fun _ => hready⟩
    | true =>
      obtain ⟨rfl, rfl⟩ := Prod.mk.inj (Except.ok.inj h)
      refine ⟨run_advance hload (run_advance hnext ?_), rfl, rfl, fun hr => (by cases hr)⟩
      let u : AsyncPool T :=
        { s with freeStack := s.freeStack.next (s.nodeNext s.freeStack.ptr) }
      have hswap : asyncPoolAdvance l
          (s.setPc t (.takeSwap s.freeStack (s.nodeNext s.freeStack.ptr))) t =
          .ok (u.setPc t (.takeCount s.freeStack.ptr)) := by
        simp [asyncPoolAdvance, u, setPc]
      refine run_advance hswap (run_advance ?_ ⟨[], .nil _⟩)
      simp [asyncPoolAdvance, u, setPc, setHeld]
  · rw [if_neg htop] at h
    obtain ⟨block, hblock, h⟩ := exists_of_bind_eq_ok h
    have hblock := eq_some_of_deref hblock
    have hload : asyncPoolAdvance l (s.setPc t .takeTop) t = .ok (s.setPc t .takeBlock) := by
      simp [asyncPoolAdvance, not_not.mp htop]
    have hprimary : asyncPoolAdvance l (s.setPc t .takeBlock) t =
        .ok (s.setPc t (.takeTaken s.primaryBlock.ptr)) := by
      simp [asyncPoolAdvance]
    have htaken : asyncPoolAdvance l (s.setPc t (.takeTaken s.primaryBlock.ptr)) t =
        .ok (s.setPc t (if block.elements ≤ block.taken then .allocFlag
          else .takeBump s.primaryBlock.ptr block.taken)) := by
      simp [asyncPoolAdvance, hblock]
    by_cases hfull : block.elements ≤ block.taken
    · rw [if_pos hfull] at h htaken
      obtain ⟨⟨_, u⟩, hcall, h⟩ := exists_of_bind_eq_ok h
      obtain ⟨rfl, rfl⟩ := Prod.mk.inj (Except.ok.inj h)
      have hfree : s.Free l (vlMemAllocAligned origin l.elementAlign)
          (asyncBlockElements s.totalBlocks) := by
        rcases hready with hfree | ⟨block', hblock', hlt⟩
        · exact hfree
        · obtain rfl := Option.some_injective _ (hblock.symm.trans hblock')
          exact absurd hlt (not_lt.mpr hfull)
      refine ⟨run_advance hload (run_advance hprimary (run_advance htaken
        (run_allocate hfree hcall))), (vlAsyncPoolAllocate_threads hcall).1,
        (vlAsyncPoolAllocate_threads hcall).2, fun _ => .allocate hfree hcall⟩
    · rw [if_neg hfull] at h htaken
      cases swapped with
      | false =>
        obtain ⟨rfl, rfl⟩ := Prod.mk.inj (Except.ok.inj h)
        exact ⟨run_advance hload (run_advance hprimary (run_advance htaken
          (run_fail rfl ⟨[], .nil _⟩))), rfl, rfl, fun _ => hready⟩
      | true =>
        obtain ⟨rfl, rfl⟩ := Prod.mk.inj (Except.ok.inj h)
        refine ⟨run_advance hload (run_advance hprimary (run_advance htaken (run_advance ?_
          ⟨[], .nil _⟩))), rfl, rfl, fun hr => (by cases hr)⟩
        simp [asyncPoolAdvance, hblock, setPc, setBlock, setHeld]

end AsyncPool

/-- The rounds of `vlAsyncPoolTake`, from the first load on. -/
theorem vlAsyncPoolTake_rounds (hready : s.Ready l origin)
    (h : vlAsyncPoolTake l s origin rounds = .ok (element, s')) :
    (∃ os, (asyncPoolMachine l T).Run (s.setPc t .takeTop) os
      ((s'.setPc t .idle).setHeld t (s.held t ++ [element]))) ∧ s'.pc = s.pc := by
  induction rounds generalizing s with
  | nil => cases h
  | cons swapped rounds ih =>
    obtain ⟨⟨r, u⟩, hround, h⟩ := exists_of_bind_eq_ok h
    obtain ⟨⟨os, hrun⟩, hpc, hheld, hnext⟩ := AsyncPool.run_takeRound (t := t) hready hround
    cases r with
    | some e =>
      obtain ⟨rfl, rfl⟩ := Prod.mk.inj (Except.ok.inj h)
      exact ⟨⟨os, hrun⟩, hpc⟩
    | none =>
      obtain ⟨⟨os', hrest⟩, hpc'⟩ := ih (hnext rfl) h
      rw [hheld] at hrest
      exact ⟨⟨os ++ os', hrun.append hrest⟩, hpc'.trans hpc⟩

/-- **A thread alone takes what `vlAsyncPoolTake` takes**: while no other thread moves, the steps of
the interleaving model lead where the call leads. -/
theorem vlAsyncPoolTake_run (hidle : s.pc t = .idle)
    (hfree : s.Free l (vlMemAllocAligned origin l.elementAlign) (asyncBlockElements s.totalBlocks))
    (h : vlAsyncPoolTake l s origin rounds = .ok (element, s')) :
    ∃ os, (asyncPoolMachine l T).Run s os (s'.setHeld t (s.held t ++ [element])) := by
  obtain ⟨⟨os, hrun⟩, hpc⟩ := vlAsyncPoolTake_rounds (t := t) (Or.inl hfree) h
  rw [AsyncPool.setPc_eq_self ((congrFun hpc t).trans hidle)] at hrun
  exact ⟨.take t :: os, .cons hidle rfl hrun⟩

/-- The rounds of `vlAsyncPoolReturn`, from the first load on. -/
theorem vlAsyncPoolReturn_rounds (h : vlAsyncPoolReturn l s element rounds = .ok s') :
    (∃ os, (asyncPoolMachine l T).Run (s.setPc t (.returnTop (element - l.headerOffset))) os
      (s'.setPc t .idle)) ∧ s'.pc = s.pc := by
  induction rounds generalizing s with
  | nil => cases h
  | cons swapped rounds ih =>
    rw [vlAsyncPoolReturn] at h
    generalize hnode : element - l.headerOffset = node at h ih ⊢
    let u : AsyncPool T := { s with nodeNext := Function.update s.nodeNext node s.freeStack.ptr }
    have hload : asyncPoolAdvance l (s.setPc t (.returnTop node)) t =
        .ok (s.setPc t (.returnNext node s.freeStack)) := by
      simp [asyncPoolAdvance]
    have hnext : asyncPoolAdvance l (s.setPc t (.returnNext node s.freeStack)) t =
        .ok (u.setPc t (.returnSwap node s.freeStack)) := by
      simp [asyncPoolAdvance, u, AsyncPool.setPc]
    cases swapped with
    | false =>
      obtain ⟨hrun, hpc⟩ := ih h
      exact ⟨AsyncPool.run_advance hload (AsyncPool.run_advance hnext
        (AsyncPool.run_fail rfl hrun)), hpc⟩
    | true =>
      obtain rfl := Except.ok.inj h
      let v : AsyncPool T := { u with freeStack := s.freeStack.next node }
      have hswap : asyncPoolAdvance l (u.setPc t (.returnSwap node s.freeStack)) t =
          .ok (v.setPc t .returnCount) := by
        simp [asyncPoolAdvance, u, v, AsyncPool.setPc]
      refine ⟨AsyncPool.run_advance hload (AsyncPool.run_advance hnext (AsyncPool.run_advance hswap
        (AsyncPool.run_advance ?_ ⟨[], .nil _⟩))), rfl⟩
      simp [asyncPoolAdvance, u, v, AsyncPool.setPc]

/-- **A thread alone returns what `vlAsyncPoolReturn` returns**, once it has given the element up. -/
theorem vlAsyncPoolReturn_run (hidle : s.pc t = .idle) (hheld : element ∈ s.held t)
    (h : vlAsyncPoolReturn l (s.setHeld t ((s.held t).erase element)) element rounds = .ok s') :
    ∃ os, (asyncPoolMachine l T).Run s os s' := by
  obtain ⟨⟨os, hrun⟩, hpc⟩ := vlAsyncPoolReturn_rounds (t := t) h
  rw [AsyncPool.setPc_eq_self ((congrFun hpc t).trans hidle)] at hrun
  exact ⟨.ret t element :: os, .cons ⟨hidle, hheld⟩ rfl hrun⟩

end Interleaving

end VeritableLasagna
