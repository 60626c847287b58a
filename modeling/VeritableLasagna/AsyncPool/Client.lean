import VeritableLasagna.AsyncPool.Sequential
import VeritableLasagna.Lib.LinkedList

/-!
# Runs of the asynchronous pool with one thread

A single thread calls `vlAsyncPoolTake`, `vlAsyncPoolReturn`, `vlAsyncPoolClear` and
`vlAsyncPoolReset` in any order, and in the end `vlAsyncPoolFree`. Next to the pool, a state keeps
which blocks were released.

`AsyncPool.Lined` is the invariant: the blocks form one doubly linked list, the primary block stands
somewhere in it, and nothing is taken from the blocks behind it.
-/

namespace VeritableLasagna

/-- A pool that one thread uses, the blocks it has released, and whether it was freed. -/
structure AsyncPoolClient where
  pool : AsyncPool Unit
  released : List ℕ
  freed : Bool

/-- The calls. A call of `vlAsyncPoolTake` comes with the memory that `malloc` returns should it
allocate, and the two retry loops come with their rounds. -/
inductive AsyncPoolCall
  | take (origin : ℕ) (rounds : List Bool)
  | ret (element : ℕ) (rounds : List Bool)
  | clear
  | reset
  | free

/-- One call. -/
def asyncPoolCall (l : AsyncPoolLayout) (c : AsyncPoolClient) :
    AsyncPoolCall → Except Fault AsyncPoolClient
  | .take origin rounds => do
    let (element, pool) ← vlAsyncPoolTake l c.pool origin rounds
    return { c with pool := pool.setHeld () (c.pool.held () ++ [element]) }
  | .ret element rounds => do
    let pool ← vlAsyncPoolReturn l (c.pool.setHeld () ((c.pool.held ()).erase element)) element rounds
    return { c with pool }
  | .clear => do
    let pool ← vlAsyncPoolClear c.pool
    return { c with pool := pool.setHeld () [] }
  | .reset => do
    let (released, pool) ← vlAsyncPoolReset c.pool
    return { c with pool := pool.setHeld () [], released := c.released ++ released }
  | .free => do
    let (released, pool) ← vlAsyncPoolFree c.pool
    return { pool := pool.setHeld () [], released := c.released ++ released, freed := true }

/-- The pool as a machine with one thread: no call comes after `vlAsyncPoolFree`, an element is
returned by whoever holds it, `malloc` returns free memory at a multiple of 16, and not every
compare-and-swap fails for no reason. -/
def asyncPoolClientMachine (l : AsyncPoolLayout) : Machine AsyncPoolClient AsyncPoolCall where
  guard c o := c.freed = false ∧
    match o with
    | .take origin rounds => 2 ≤ rounds.count true ∧ origin % 16 = 0 ∧
        c.pool.Free l (vlMemAllocAligned origin l.elementAlign)
          (asyncBlockElements c.pool.totalBlocks)
    | .ret element rounds => element ∈ c.pool.held () ∧ true ∈ rounds
    | .clear | .reset | .free => True
  step := asyncPoolCall l

instance (l : AsyncPoolLayout) (c : AsyncPoolClient) :
    ∀ o, Decidable ((asyncPoolClientMachine l).guard c o)
  | .take origin rounds => inferInstanceAs (Decidable (c.freed = false ∧
      2 ≤ rounds.count true ∧ origin % 16 = 0 ∧
        c.pool.Free l (vlMemAllocAligned origin l.elementAlign)
          (asyncBlockElements c.pool.totalBlocks)))
  | .ret element rounds =>
    inferInstanceAs (Decidable (c.freed = false ∧ element ∈ c.pool.held () ∧ true ∈ rounds))
  | .clear | .reset | .free => inferInstanceAs (Decidable (c.freed = false ∧ True))

/-- A pool right after `vlAsyncPoolInitAligned`. -/
def AsyncPoolClient.init (l : AsyncPoolLayout) (origin : ℕ) : AsyncPoolClient where
  pool := .init (vlMemAllocAligned origin l.elementAlign)
  released := []
  freed := false

/-! ### The list of the blocks -/

variable {T : Type}

/-- A pointer as an iterator: null is none. -/
def iterOf (ptr : ℕ) : Option ℕ := if ptr = 0 then none else some ptr

@[simp] theorem iterOf_zero : iterOf 0 = none := rfl

theorem iterOf_of_ne {ptr : ℕ} (h : ptr ≠ 0) : iterOf ptr = some ptr := if_neg h

theorem iterOf_eq_some {ptr i : ℕ} (h : iterOf ptr = some i) : ptr = i := by
  rw [iterOf] at h
  split_ifs at h
  exact Option.some_injective _ h

theorem iterOf_eq_none {ptr : ℕ} (h : iterOf ptr = none) : ptr = 0 := by
  rw [iterOf] at h
  by_contra hne
  rw [if_neg hne] at h
  cases h

/-- The links of the blocks, as a list heap. -/
def blockLinks (blocks : ℕ → Option AsyncBlock) : ListHeap ℕ Unit :=
  fun a => (blocks a).map fun b => ⟨iterOf b.prev, iterOf b.next, ()⟩

/-- Addresses as entries of a list without contents. -/
def blockEntries (as : List ℕ) : List (ℕ × Unit) := as.map fun a => (a, ())

@[simp] theorem blockEntries_append {as bs : List ℕ} :
    blockEntries (as ++ bs) = blockEntries as ++ blockEntries bs := List.map_append

@[simp] theorem blockEntries_cons {a : ℕ} {as : List ℕ} :
    blockEntries (a :: as) = (a, ()) :: blockEntries as := rfl

@[simp] theorem blockEntries_nil : blockEntries [] = [] := rfl

@[simp] theorem blockEntries_fst {as : List ℕ} : (blockEntries as).map Prod.fst = as := by
  rw [blockEntries, List.map_map]
  exact List.map_id as

theorem headIter_blockEntries {as : List ℕ} : headIter (blockEntries as) none = as.head? := by
  cases as with
  | nil => rfl
  | cons a as => rfl

theorem tailIter_blockEntries {as : List ℕ} : tailIter none (blockEntries as) = as.getLast? := by
  rcases as.eq_nil_or_concat' with rfl | ⟨as, a, rfl⟩
  · rfl
  · rw [blockEntries_append, List.getLast?_concat]
    exact tailIter_concat

/-- **The invariant**: the blocks form one list, with `before` before the primary block and `behind`
behind it, no block is empty, and nothing is taken from those behind. -/
structure AsyncPool.Lined (s : AsyncPool T) (before : List ℕ) (current : ℕ) (behind : List ℕ) :
    Prop where
  primary : s.primaryBlock.ptr = current
  linked : Segment (blockLinks s.blocks) none (blockEntries (before ++ current :: behind)) none
  nodup : (before ++ current :: behind).Nodup
  null : 0 ∉ before ++ current :: behind
  elements : ∀ a b, s.blocks a = some b → 0 < b.elements
  fresh : ∀ a ∈ behind, ∀ b ∈ s.blocks a, b.taken = 0
  flag : s.allocatingFlag = false

/-- What the list invariant reads of a block. -/
def AsyncBlock.shape (b : AsyncBlock) : ℕ × ℕ × ℕ := (b.prev, b.next, b.elements)

/-- A block in a list: its links name its neighbours. -/
theorem block_of_segment {blocks : ℕ → Option AsyncBlock} {as bs : List ℕ} {a : ℕ}
    (h : Segment (blockLinks blocks) none (blockEntries (as ++ a :: bs)) none) :
    ∃ b, blocks a = some b ∧ iterOf b.prev = as.getLast? ∧ iterOf b.next = bs.head? := by
  rw [blockEntries_append, blockEntries_cons] at h
  have hnode := h.node
  rw [tailIter_blockEntries, headIter_blockEntries, blockLinks] at hnode
  obtain ⟨b, hb, hnode⟩ := Option.map_eq_some_iff.mp hnode
  exact ⟨b, hb, congrArg ListNode.prev hnode, congrArg ListNode.next hnode⟩

namespace AsyncPool.Lined

variable {s s' : AsyncPool T} {before behind : List ℕ} {current a : ℕ} {b : AsyncBlock}

/-- The primary block. -/
theorem block (h : s.Lined before current behind) : ∃ b, s.blocks current = some b ∧
    0 < b.elements ∧ iterOf b.prev = before.getLast? ∧ iterOf b.next = behind.head? := by
  obtain ⟨b, hb, hprev, hnext⟩ := block_of_segment h.linked
  exact ⟨b, hb, h.elements current b hb, hprev, hnext⟩

/-- The blocks keep their links and their sizes, and those behind stay fresh. -/
theorem congr (h : s.Lined before current behind)
    (hshape : ∀ a, (s'.blocks a).map AsyncBlock.shape = (s.blocks a).map AsyncBlock.shape)
    (hprimary : s'.primaryBlock.ptr = s.primaryBlock.ptr)
    (hfresh : ∀ a ∈ behind, ∀ b ∈ s'.blocks a, b.taken = 0)
    (hflag : s'.allocatingFlag = s.allocatingFlag) : s'.Lined before current behind := by
  have hlinks : blockLinks s'.blocks = blockLinks s.blocks := by
    funext a
    have hmap := congrArg (Option.map fun x : ℕ × ℕ × ℕ =>
      (⟨iterOf x.1, iterOf x.2.1, ()⟩ : ListNode ℕ Unit)) (hshape a)
    rw [Option.map_map, Option.map_map] at hmap
    exact hmap
  have hold : ∀ a b', s'.blocks a = some b' → ∃ b, s.blocks a = some b ∧ b.shape = b'.shape := by
    intro a b' hb'
    have hmap := hshape a
    rw [hb', Option.map_some] at hmap
    exact Option.map_eq_some_iff.mp hmap.symm
  refine ⟨hprimary.trans h.primary, hlinks ▸ h.linked, h.nodup, h.null, fun a b' hb' => ?_, hfresh,
    hflag.trans h.flag⟩
  obtain ⟨b, hb, hsame⟩ := hold a b' hb'
  have hel : b.elements = b'.elements := congrArg (fun x => x.2.2) hsame
  rw [← hel]
  exact h.elements a b hb

/-- The primary block counts another element. -/
theorem setTaken (h : s.Lined before current behind) (hb : s.blocks current = some b) (n : ℕ) :
    (s.setBlock current { b with taken := n }).Lined before current behind := by
  refine h.congr (fun a => ?_) rfl (fun a ha b' hb' => ?_) rfl
  · change (Function.update s.blocks current _ a).map _ = _
    by_cases hac : a = current
    · rw [hac, Function.update_self, hb]
      rfl
    · rw [Function.update_of_ne hac]
  · have hne : a ≠ current := by
      rintro rfl
      exact (List.nodup_cons.mp (List.nodup_append'.mp h.nodup).2.1).1 ha
    have hb' : Function.update s.blocks current (some { b with taken := n }) a = some b' := hb'
    rw [Function.update_of_ne hne] at hb'
    exact h.fresh a ha b' hb'

/-- The primary pointer moves on to the block behind. -/
theorem forward (h : s.Lined before current (a :: behind)) :
    ({ s with primaryBlock := s.primaryBlock.next a } : AsyncPool T).Lined (before ++ [current]) a
      behind := by
  have hlist : before ++ [current] ++ a :: behind = before ++ current :: a :: behind := by simp
  refine ⟨rfl, ?_, ?_, ?_, h.elements, fun x hx => h.fresh x (List.mem_cons_of_mem _ hx), h.flag⟩
  · rw [hlist]
    exact h.linked
  · rw [hlist]
    exact h.nodup
  · rw [hlist]
    exact h.null

/-- The blocks once there is a new one and the primary one is linked to it. -/
theorem blocks_push {new elements : ℕ} (x : ℕ) :
    ((s.pushBlock new elements).setBlock current b).blocks x =
      if x = current then some b
      else if x = new then some ⟨0, s.primaryBlock.ptr, elements, 0⟩ else s.blocks x := by
  change Function.update (Function.update s.blocks new _) current _ x = _
  by_cases hx : x = current
  · rw [hx, Function.update_self, if_pos rfl]
  · rw [Function.update_of_ne hx, if_neg hx]
    by_cases hx' : x = new
    · rw [hx', Function.update_self, if_pos rfl]
    · rw [Function.update_of_ne hx', if_neg hx']

/-- A new block comes behind the last. -/
theorem push (h : s.Lined before current []) {new elements : ℕ} (hb : s.blocks current = some b)
    (hnull : new ≠ 0) (hnew : new ∉ before ++ [current]) (hpos : 0 < elements) :
    ((s.pushBlock new elements).setBlock current { b with next := new }).Lined
      (before ++ [current]) new [] := by
  have hne : current ≠ new := by
    rintro rfl
    exact hnew (by simp)
  have hcurrent : current ≠ 0 := by
    rintro rfl
    exact h.null (by simp)
  -- the list before the last block is linked to the new one
  let added := Function.update s.blocks new (some ⟨0, s.primaryBlock.ptr, elements, 0⟩)
  have hself : added new = some ⟨0, s.primaryBlock.ptr, elements, 0⟩ := Function.update_self ..
  have hother : ∀ x, x ≠ new → added x = s.blocks x := fun x hx => Function.update_of_ne hx ..
  have hlinks : blockLinks ((s.pushBlock new elements).setBlock current
      { b with next := new }).blocks =
      (blockLinks added).modify (some current) (·.setNext (some new)) := by
    funext x
    rw [blockLinks, blocks_push]
    by_cases hx : x = current
    · rw [if_pos hx, hx, ListHeap.modify_self, blockLinks, hother current hne, hb, Option.map_some,
        Option.map_some, iterOf_of_ne hnull]
      rfl
    · rw [if_neg hx, ListHeap.modify_of_ne fun heq => hx (Option.some_injective _ heq).symm,
        blockLinks]
      by_cases hx' : x = new
      · rw [if_pos hx', hx', hself]
      · rw [if_neg hx', hother x hx']
  have hsegment : Segment (blockLinks added) none (blockEntries (before ++ [current]) ++ []) none := by
    rw [List.append_nil]
    refine h.linked.congr fun x hx => ?_
    rw [blockEntries_fst] at hx
    rw [blockLinks, blockLinks, hother x fun heq => hnew (heq ▸ hx)]
  have hnode : blockLinks added new =
      some ⟨tailIter none (blockEntries (before ++ [current])), headIter ([] : List (ℕ × Unit)) none, ()⟩ := by
    rw [tailIter_blockEntries, List.getLast?_concat, blockLinks, hself, Option.map_some, h.primary,
      iterOf_of_ne hcurrent]
    rfl
  have hnodup : (new :: (blockEntries (before ++ [current]) ++ []).map Prod.fst).Nodup := by
    rw [List.append_nil, blockEntries_fst]
    exact List.nodup_cons.mpr ⟨hnew, h.nodup⟩
  have hinsert := hsegment.insert hnodup hnode
  rw [tailIter_blockEntries, List.getLast?_concat, headIter_nil, ListHeap.modify_none, ← hlinks]
    at hinsert
  refine ⟨rfl, ?_, ?_, ?_, fun x y hy => ?_, fun x hx => (by cases hx), h.flag⟩
  · rw [blockEntries_append]
    exact hinsert
  · rw [List.nodup_append']
    exact ⟨h.nodup, List.nodup_singleton _, by simpa using hnew⟩
  · rw [List.mem_append, not_or]
    exact ⟨h.null, by simpa using hnull.symm⟩
  · rw [blocks_push] at hy
    split_ifs at hy with hx hx'
    · obtain rfl := Option.some_injective _ hy
      exact h.elements current b hb
    · obtain rfl := Option.some_injective _ hy
      exact hpos
    · exact h.elements x y hy

end AsyncPool.Lined

/-- The list invariant, when every block that was ever allocated was released, or is lost, or is in
the list. -/
def AsyncPool.Holds (s : AsyncPool T) (lost released : List ℕ) : Prop :=
  ∃ before current behind, s.Lined before current behind ∧
    s.allocated.Perm (released ++ lost ++ (before ++ current :: behind))

/-- The header of a block has a size, whatever the alignment. -/
theorem AsyncPoolLayout.init_headerSize_pos {elementSize elementAlign : ℕ}
    (halign : 0 < elementAlign) : 0 < (init elementSize elementAlign).headerSize :=
  lt_of_lt_of_le (by decide : 0 < blockBytes) (le_vlMemoryPadUp halign)

/-- The list of a new pool. -/
theorem AsyncPoolClient.init_holds (l : AsyncPoolLayout) (origin : ℕ) :
    (init l origin).pool.Holds [] [] := by
  have hpos := vlMemAllocAligned_pos origin l.elementAlign
  generalize hblock : vlMemAllocAligned origin l.elementAlign = block at hpos
  have hinit : (init l origin).pool = .init block := by rw [← hblock]; rfl
  have hblocks : ∀ a b, (AsyncPool.init block : AsyncPool Unit).blocks a = some b →
      b = ⟨0, 0, asyncBlockElements 0, 0⟩ := by
    intro a b hb
    have hb : Function.update (fun _ => none) block (some ⟨0, 0, asyncBlockElements 0, 0⟩) a =
        some b := hb
    by_cases ha : a = block
    · rw [ha, Function.update_self] at hb
      exact (Option.some_injective _ hb).symm
    · rw [Function.update_of_ne ha] at hb
      cases hb
  rw [hinit]
  refine ⟨[], block, [], ⟨rfl, ⟨?_, trivial⟩, by simp, by simpa using hpos.ne, fun a b hb => ?_,
    fun a ha => (by cases ha), rfl⟩, List.Perm.refl _⟩
  · have hself : (AsyncPool.init block : AsyncPool Unit).blocks block =
        some ⟨0, 0, asyncBlockElements 0, 0⟩ := by simp [AsyncPool.init]
    rw [blockLinks, hself]
    rfl
  · rw [hblocks a b hb]
    decide

/-- Free memory is not that of a block in the list. -/
theorem AsyncPool.Lined.free_not_mem {l : AsyncPoolLayout} {s : AsyncPool T}
    {before behind released : List ℕ} {current new elements : ℕ}
    (h : s.Lined before current behind)
    (hperm : s.allocated.Perm (released ++ (before ++ current :: behind)))
    (hsize : 0 < l.headerSize) (hfree : s.Free l new elements) :
    new ∉ before ++ current :: behind := by
  intro hmem
  obtain ⟨as, bs, hlist⟩ := List.append_of_mem hmem
  obtain ⟨b, hb, -⟩ := block_of_segment (hlist ▸ h.linked)
  have hapart := hfree.2 new (hperm.mem_iff.mpr (List.mem_append_right _ hmem)) b hb
  simp only [AsyncPoolLayout.blockSize] at hapart
  omega

/-! ### Taking and returning -/

namespace AsyncPool

/-- A call of `vlAsyncPoolTake` adds a block. -/
def Grows (s : AsyncPool T) : Prop :=
  s.freeStack.ptr = 0 ∧
    ∀ b ∈ s.blocks s.primaryBlock.ptr, b.elements ≤ b.taken ∧ b.next = 0

instance (s : AsyncPool T) : Decidable s.Grows :=
  inferInstanceAs (Decidable (s.freeStack.ptr = 0 ∧
    ∀ b ∈ s.blocks s.primaryBlock.ptr, b.elements ≤ b.taken ∧ b.next = 0))

/-- A call of `vlAsyncPoolTake` finds an element without allocating. -/
def HasRoom (s : AsyncPool T) : Prop :=
  s.freeStack.ptr ≠ 0 ∨ ∃ b, s.blocks s.primaryBlock.ptr = some b ∧ b.taken < b.elements

section Take

variable {l : AsyncPoolLayout} {s s' : AsyncPool T} {released lost before behind : List ℕ}
  {current origin : ℕ} {rounds : List Bool}

/-- A round without a swap changes nothing. -/
theorem takeRound_fail (h : s.Holds lost released) :
    vlAsyncPoolTakeRound l s origin false = .ok (none, s) := by
  obtain ⟨before, current, behind, hlined, -⟩ := h
  obtain ⟨b, hb, -⟩ := hlined.block
  simp only [vlAsyncPoolTakeRound]
  by_cases htop : s.freeStack.ptr ≠ 0
  · rw [if_pos htop, if_neg (by simp)]
  · rw [if_neg htop, hlined.primary, hb, deref_some, ok_bind]
    by_cases hfull : b.elements ≤ b.taken
    · rw [if_pos hfull, vlAsyncPoolAllocate, if_pos (Or.inr rfl)]
      rfl
    · rw [if_neg hfull]
      rfl

/-- A round that finds an element returns it. -/
theorem takeRound_room (h : s.Holds lost released) (hroom : s.HasRoom) :
    Returns (vlAsyncPoolTakeRound l s origin true) fun r => r.1.isSome ∧ r.2.Holds lost released := by
  obtain ⟨before, current, behind, hlined, hperm⟩ := h
  obtain ⟨b, hb, -⟩ := hlined.block
  simp only [vlAsyncPoolTakeRound]
  by_cases htop : s.freeStack.ptr ≠ 0
  · rw [if_pos htop, if_pos trivial]
    exact returns_ok ⟨rfl, before, current, behind, hlined.congr (fun _ => rfl) rfl hlined.fresh rfl,
      hperm⟩
  · have hlt : b.taken < b.elements := by
      obtain ⟨b', hb', hlt⟩ := hroom.resolve_left htop
      rw [hlined.primary, hb] at hb'
      rwa [Option.some_injective _ hb']
    rw [if_neg htop, hlined.primary, hb, deref_some, ok_bind, if_neg (not_le.mpr hlt),
      if_pos trivial]
    exact returns_ok ⟨rfl, before, current, behind, hlined.setTaken hb _, hperm⟩

/-- A round that finds the primary block used up moves on to one with room, which it adds if there
is none. -/
theorem takeRound_full (h : s.Holds lost released) (hroom : ¬ s.HasRoom) (hsize : 0 < l.headerSize)
    (hfree : s.Free l (vlMemAllocAligned origin l.elementAlign) (asyncBlockElements s.totalBlocks))
    (hgrow : s.Grows → s.totalBlocks < 31) :
    Returns (vlAsyncPoolTakeRound l s origin true) fun r =>
      r.1 = none ∧ r.2.Holds lost released ∧ r.2.HasRoom := by
  obtain ⟨before, current, behind, hlined, hperm⟩ := h
  obtain ⟨b, hb, hpos, -, hnext⟩ := hlined.block
  obtain ⟨htop, hfull⟩ := not_or.mp hroom
  have hcurrent : current ≠ 0 := by
    rintro rfl
    exact hlined.null (by simp)
  have hle : b.elements ≤ b.taken := by
    by_contra hlt
    exact hfull ⟨b, hlined.primary ▸ hb, not_le.mp hlt⟩
  simp only [vlAsyncPoolTakeRound]
  rw [if_neg htop, hlined.primary, hb, deref_some, ok_bind, if_pos hle, vlAsyncPoolAllocate,
    if_neg (by simp [hlined.flag]), hlined.primary, if_neg hcurrent, hb]
  change Returns ((if b.next ≠ 0 then _ else _) >>= _) _
  cases behind with
  | cons a behind =>
    have hnext : b.next = a := iterOf_eq_some hnext
    have ha : a ≠ 0 := by
      rintro rfl
      exact hlined.null (by simp)
    have hforward := hlined.forward
    obtain ⟨b', hb', hpos', -⟩ := hforward.block
    rw [if_pos (hnext ▸ ha), hnext]
    refine returns_ok ⟨rfl, ⟨before ++ [current], a, behind, hforward, by simpa using hperm⟩,
      Or.inr ⟨b', hb', ?_⟩⟩
    rw [hlined.fresh a List.mem_cons_self b' hb']
    exact hpos'
  | nil =>
    have hnext : b.next = 0 := iterOf_eq_none hnext
    have hgrows : s.Grows := by
      refine ⟨not_not.mp htop, fun b' hb' => ?_⟩
      obtain rfl := Option.some_injective _ (hb.symm.trans (hlined.primary ▸ hb'))
      exact ⟨hle, hnext⟩
    have hordinal := hgrow hgrows
    generalize hnew : vlMemAllocAligned origin l.elementAlign = new at hfree
    have hfresh := hlined.free_not_mem hperm hsize hfree
    have hne : current ≠ new := by
      rintro rfl
      exact hfresh (by simp)
    have hheader : (s.pushBlock new (asyncBlockElements s.totalBlocks)).blocks current = some b :=
      (Function.update_of_ne hne ..).trans hb
    have hpush := hlined.push hb hfree.1 hfresh (asyncBlockElements_pos hordinal)
    obtain ⟨b', hb', -⟩ := hpush.block
    rw [if_neg (not_not.mpr hnext)]
    simp only [vlAsyncPoolAddBlock]
    rw [if_neg (not_le.mpr hordinal), hlined.primary, if_neg hcurrent, hnew, hheader]
    refine returns_ok ⟨rfl, ⟨before ++ [current], new, [], hpush, ?_⟩, Or.inr ⟨b', hb', ?_⟩⟩
    · have hcons := (hperm.cons new).trans (List.perm_append_singleton new _).symm
      rwa [List.append_assoc] at hcons
    · rw [Lined.blocks_push, if_neg hne.symm, if_pos rfl] at hb'
      obtain rfl := Option.some_injective _ hb'
      exact asyncBlockElements_pos hordinal

/-- With room, one swap is enough for a call to return. -/
theorem take_room (h : s.Holds lost released) (hroom : s.HasRoom) (hswap : true ∈ rounds) :
    Returns (vlAsyncPoolTake l s origin rounds) fun r => r.2.Holds lost released := by
  induction rounds with
  | nil => cases hswap
  | cons swapped rounds ih =>
    rw [vlAsyncPoolTake]
    cases swapped with
    | false =>
      rw [takeRound_fail h, ok_bind]
      exact ih (by simpa using hswap)
    | true =>
      refine (takeRound_room h hroom).bind ?_
      rintro ⟨r, s'⟩ ⟨hsome, hs'⟩
      obtain ⟨element, rfl⟩ := Option.isSome_iff_exists.mp hsome
      exact returns_ok hs'

end Take

end AsyncPool

section Calls

variable {l : AsyncPoolLayout} {s : AsyncPool T} {lost released : List ℕ} {origin element : ℕ}
  {rounds : List Bool}

/-- **`vlAsyncPoolTake` returns** once two of its compare-and-swaps succeed. -/
theorem vlAsyncPoolTake_spec (h : s.Holds lost released) (hsize : 0 < l.headerSize)
    (hfree : s.Free l (vlMemAllocAligned origin l.elementAlign) (asyncBlockElements s.totalBlocks))
    (hgrow : s.Grows → s.totalBlocks < 31) (hswaps : 2 ≤ rounds.count true) :
    Returns (vlAsyncPoolTake l s origin rounds) fun r => r.2.Holds lost released := by
  induction rounds with
  | nil => cases hswaps
  | cons swapped rounds ih =>
    cases swapped with
    | false =>
      rw [vlAsyncPoolTake, AsyncPool.takeRound_fail h, ok_bind]
      exact ih (by simpa using hswaps)
    | true =>
      by_cases hroom : s.HasRoom
      · exact AsyncPool.take_room h hroom List.mem_cons_self
      · rw [vlAsyncPoolTake]
        refine (AsyncPool.takeRound_full h hroom hsize hfree hgrow).bind ?_
        rintro ⟨r, s'⟩ ⟨rfl, hs', hroom'⟩
        refine AsyncPool.take_room hs' hroom' (List.count_pos_iff.mp ?_)
        rw [List.count_cons_self] at hswaps
        omega

/-- **`vlAsyncPoolReturn` returns** once its compare-and-swap succeeds. -/
theorem vlAsyncPoolReturn_spec (h : s.Holds lost released) (hswap : true ∈ rounds) :
    Returns (vlAsyncPoolReturn l s element rounds) fun s' => s'.Holds lost released := by
  induction rounds generalizing s with
  | nil => cases hswap
  | cons swapped rounds ih =>
    obtain ⟨before, current, behind, hlined, hperm⟩ := h
    rw [vlAsyncPoolReturn]
    cases swapped with
    | false =>
      refine ih ⟨before, current, behind, ?_, hperm⟩ (by simpa using hswap)
      exact hlined.congr (fun _ => rfl) rfl hlined.fresh rfl
    | true =>
      refine returns_ok ⟨before, current, behind, ?_, hperm⟩
      exact hlined.congr (fun _ => rfl) rfl hlined.fresh rfl

/-- What the thread holds does not matter to the list. -/
theorem AsyncPool.Holds.setHeld [DecidableEq T] {t : T} {held : List ℕ} (h : s.Holds lost released) :
    (s.setHeld t held).Holds lost released := by
  obtain ⟨before, current, behind, hlined, hperm⟩ := h
  exact ⟨before, current, behind, hlined.congr (fun _ => rfl) rfl hlined.fresh rfl, hperm⟩

end Calls

end VeritableLasagna
