import VeritableLasagna.AsyncPool.Blocks
import VeritableLasagna.Lib.Chain

/-!
# Exclusive elements of the asynchronous pool

Every node that was ever taken from a block is, at any moment, on the free stack or with one thread.
The stack is safe because the tag of its top is raised by every change: a compare-and-swap that
succeeds has seen no change since its load, so the `next` it read in between is that of the top. The
blocks are safe because their counters only grow.

What is not safe is the arithmetic of sizes. The distance between nodes is kept in 16 bits and the
size of a block is computed in 32: `AsyncPoolLayout.Unwrapped` and `AsyncPoolOp.fits` are the
conditions that neither wraps, and `vlAsyncPool_exclusive` shows exclusivity on every such run.
-/

namespace VeritableLasagna

/-- The size of a block about to be allocated is computed without overflow. -/
def AsyncPoolOp.fits {T : Type} (l : AsyncPoolLayout) (s : AsyncPool T) : AsyncPoolOp T → Prop
  | .allocate t _ => ∀ ordinal ∈ (s.pc t).allocating,
      ordinal < 31 ∧ asyncBlockElements ordinal * l.nodeSize < 2 ^ 32
  | _ => True

/-- The machine restricted to operations whose sizes fit. -/
def fittingAsyncPoolMachine (l : AsyncPoolLayout) (T : Type) [DecidableEq T] :
    Machine (AsyncPool T) (AsyncPoolOp T) where
  guard s o := (asyncPoolMachine l T).guard s o ∧ o.fits l s
  step := asyncPoolStep l

instance {T : Type} (l : AsyncPoolLayout) (s : AsyncPool T) :
    ∀ o : AsyncPoolOp T, Decidable (o.fits l s)
  | .allocate t _ => inferInstanceAs (Decidable (∀ ordinal ∈ (s.pc t).allocating,
      ordinal < 31 ∧ asyncBlockElements ordinal * l.nodeSize < 2 ^ 32))
  | .take _ | .ret _ _ | .pass _ _ _ | .advance _ | .fail _ => inferInstanceAs (Decidable True)

instance {T : Type} [DecidableEq T] (l : AsyncPoolLayout) (s : AsyncPool T) (o : AsyncPoolOp T) :
    Decidable ((fittingAsyncPoolMachine l T).guard s o) :=
  inferInstanceAs (Decidable ((asyncPoolMachine l T).guard s o ∧ o.fits l s))

/-- The node a call in progress is busy with: popped and not handed out yet, or returned and not
pushed yet. -/
def AsyncPoolPc.hand : AsyncPoolPc → Option ℕ
  | .takeCount node | .returnTop node | .returnNext node _ | .returnSwap node _ => some node
  | _ => none

/-- The nodes with a thread, given what it holds and where it stands: those of the elements it holds
and the one its call is busy with. -/
def ownedNodes (l : AsyncPoolLayout) (held : List ℕ) (pc : AsyncPoolPc) : List ℕ :=
  held.map (· - l.headerOffset) ++ pc.hand.toList

namespace AsyncPool

variable {T : Type}

/-- The nodes with a thread. -/
def owned (l : AsyncPoolLayout) (s : AsyncPool T) (t : T) : List ℕ :=
  ownedNodes l (s.held t) (s.pc t)

/-- **Exclusivity**: no element is held twice, by one thread or by two; an element held lies at a
node position inside an allocated block; and every node ever handed out is either with a thread or
on the free stack. -/
structure Exclusive (l : AsyncPoolLayout) (s : AsyncPool T) : Prop where
  nodup : ∀ t, (s.held t).Nodup
  once : ∀ t u e, e ∈ s.held t → e ∈ s.held u → t = u
  position : ∀ t, ∀ e ∈ s.held t, ∃ a b k, s.blocks a = some b ∧ k < b.elements ∧
    e = a + l.headerSize + l.nodeSize * k + l.headerOffset ∧
    e + l.elementSize ≤ a + l.blockSize b.elements
  kept : ∃ free, Chain s.nodeNext s.freeStack.ptr free ∧ free.Nodup ∧
    (∀ n ∈ free, ∀ t, n ∉ s.owned l t) ∧
    ∀ n, Issued l s.blocks n → n ∈ free ∨ ∃ t, n ∈ s.owned l t

end AsyncPool

/-! ### The invariant -/

/-- What holds where a thread stands, given the free stack, the `next` fields and the blocks. -/
def AsyncPoolPc.Ok (stack : TaggedPtr) (next : ℕ → ℕ) (blocks : ℕ → Option AsyncBlock) :
    AsyncPoolPc → Prop
  | .takeNext top => top.ptr ≠ 0 ∧ top.tag ≤ stack.tag
  | .takeSwap top n => top.ptr ≠ 0 ∧ top.tag ≤ stack.tag ∧ (stack = top → n = next top.ptr)
  | .takeTaken a => (blocks a).isSome
  | .takeBump a k => ∃ b, blocks a = some b ∧ k < b.elements
  | .allocNext a => (blocks a).isSome
  | .allocOrdinal a | .allocBlock a _ => a ≠ 0 → (blocks a).isSome
  | .allocTotal a b => (a ≠ 0 → (blocks a).isSome) ∧ (blocks b).isSome
  | .allocLoad link a | .allocStore link a _ =>
    (∀ b ∈ link, (blocks b).isSome) ∧ (blocks a).isSome
  | .allocLink a b => (blocks a).isSome ∧ (blocks b).isSome
  | .returnSwap n top => next n = top.ptr
  | .idle | .takeTop | .takeCount _ | .takeBlock | .allocFlag | .allocPrimary | .allocRelease
  | .returnTop _ | .returnNext _ _ | .returnCount => True

/-- What holds of a thread goes on to hold through the steps of others: the stack keeps its top or
raises its tag, blocks stay, and nobody writes to the top or to the node the thread is busy with. -/
theorem AsyncPoolPc.Ok.mono {stack stack' : TaggedPtr} {next next' : ℕ → ℕ}
    {blocks blocks' : ℕ → Option AsyncBlock} {pc : AsyncPoolPc} (h : pc.Ok stack next blocks)
    (hstack : stack' = stack ∧ next' stack.ptr = next stack.ptr ∨ stack.tag < stack'.tag)
    (hblocks : ∀ a b, blocks a = some b → ∃ b', blocks' a = some b' ∧ b'.elements = b.elements)
    (hhand : ∀ n, pc.hand = some n → next' n = next n) : pc.Ok stack' next' blocks' := by
  have hsome : ∀ a, (blocks a).isSome → (blocks' a).isSome := by
    intro a ha
    obtain ⟨b, hb⟩ := Option.isSome_iff_exists.mp ha
    obtain ⟨b', hb', -⟩ := hblocks a b hb
    rw [hb']
    rfl
  have htag : stack.tag ≤ stack'.tag := by
    rcases hstack with ⟨heq, -⟩ | hlt
    · rw [heq]
    · exact hlt.le
  cases pc with
  | takeNext top => exact ⟨h.1, h.2.trans htag⟩
  | takeSwap top n =>
    obtain ⟨hptr, hle, hnext⟩ := h
    refine ⟨hptr, hle.trans htag, fun htop => ?_⟩
    rcases hstack with ⟨heq, hread⟩ | hlt
    · rw [heq] at htop
      subst htop
      exact (hnext rfl).trans hread.symm
    · rw [htop] at hlt
      omega
  | takeBump a k =>
    obtain ⟨b, hb, hk⟩ := h
    obtain ⟨b', hb', hel⟩ := hblocks a b hb
    exact ⟨b', hb', hel ▸ hk⟩
  | takeTaken a | allocNext a => exact hsome a h
  | allocOrdinal a | allocBlock a _ => exact fun ha => hsome a (h ha)
  | allocTotal a b => exact ⟨fun ha => hsome a (h.1 ha), hsome b h.2⟩
  | allocLoad link a | allocStore link a _ => exact ⟨fun b hb => hsome b (h.1 b hb), hsome a h.2⟩
  | allocLink a b => exact ⟨hsome a h.1, hsome b h.2⟩
  | returnSwap n top => exact (hhand n rfl).trans h
  | idle | takeTop | takeCount _ | takeBlock | allocFlag | allocPrimary | allocRelease
  | returnTop _ | returnNext _ _ | returnCount => trivial

namespace AsyncPool

variable {T : Type}

/-- The invariant of fitting runs, with the list of the nodes on the free stack. -/
structure Inv (l : AsyncPoolLayout) (s : AsyncPool T) (free : List ℕ) : Prop where
  blocks : BlocksOk l s.blocks s.allocated
  primary : (s.blocks s.primaryBlock.ptr).isSome
  chain : Chain s.nodeNext s.freeStack.ptr free
  nodup : free.Nodup
  free_issued : ∀ n ∈ free, Issued l s.blocks n
  element : ∀ t, ∀ e ∈ s.held t, l.headerOffset ≤ e
  issued : ∀ t, ∀ n ∈ s.owned l t, Issued l s.blocks n
  apart : ∀ t, ∀ n ∈ s.owned l t, n ∉ free
  unique : ∀ t u n, n ∈ s.owned l t → n ∈ s.owned l u → t = u
  once : ∀ t, (s.owned l t).Nodup
  complete : ∀ n, Issued l s.blocks n → n ∈ free ∨ ∃ t, n ∈ s.owned l t
  pcs : ∀ t, (s.pc t).Ok s.freeStack s.nodeNext s.blocks

variable {l : AsyncPoolLayout} {s s' : AsyncPool T} {free : List ℕ} {n : ℕ} {t u : T}

theorem mem_owned_of_held {e : ℕ} (he : e ∈ s.held t) : e - l.headerOffset ∈ s.owned l t :=
  List.mem_append_left _ (List.mem_map_of_mem he)

theorem mem_owned_of_hand (h : (s.pc t).hand = some n) : n ∈ s.owned l t := by
  simp [owned, ownedNodes, h]

theorem Inv.exclusive (h : s.Inv l free) (hl : l.Unwrapped) : s.Exclusive l where
  nodup t := ((List.nodup_append.mp (h.once t)).1).of_map _
  once t u e ht hu := h.unique t u _ (mem_owned_of_held ht) (mem_owned_of_held hu)
  position t e he := by
    obtain ⟨a, b, k, hb, hk, heq⟩ := h.issued t _ (mem_owned_of_held he)
    have hk : k < b.elements := hk.trans_le (h.blocks.taken a b hb)
    have hle := h.element t e he
    have hend := node_end_le (a := a) (h.blocks.fits a b hb) hk
    have hnode := hl.nodeSize
    rw [node_eq (h.blocks.fits a b hb) hk] at heq
    exact ⟨a, b, k, hb, hk, by omega, by omega⟩
  kept := ⟨free, h.chain, h.nodup, fun n hn t ht => h.apart t n ht hn, h.complete⟩

/-! ### Steps that keep every node where it is -/

/-- A step after which every thread has the nodes it had, and the free stack is what it was. -/
theorem Inv.of_perm (h : s.Inv l free) (hblocks : BlocksOk l s'.blocks s'.allocated)
    (hprimary : (s'.blocks s'.primaryBlock.ptr).isSome)
    (hissued : ∀ n, Issued l s'.blocks n ↔ Issued l s.blocks n)
    (hstack : s'.freeStack = s.freeStack) (hnext : ∀ n ∈ free, s'.nodeNext n = s.nodeNext n)
    (helement : ∀ t, ∀ e ∈ s'.held t, l.headerOffset ≤ e)
    (hperm : ∀ t, (s'.owned l t).Perm (s.owned l t))
    (hpcs : ∀ t, (s'.pc t).Ok s'.freeStack s'.nodeNext s'.blocks) : s'.Inv l free where
  blocks := hblocks
  primary := hprimary
  chain := by
    rw [hstack]
    exact h.chain.congr hnext
  nodup := h.nodup
  free_issued n hn := (hissued n).mpr (h.free_issued n hn)
  element := helement
  issued t n hn := (hissued n).mpr (h.issued t n ((hperm t).mem_iff.mp hn))
  apart t n hn := h.apart t n ((hperm t).mem_iff.mp hn)
  unique t u n ht hu := h.unique t u n ((hperm t).mem_iff.mp ht) ((hperm u).mem_iff.mp hu)
  once t := (hperm t).nodup_iff.mpr (h.once t)
  complete n hn := (h.complete n ((hissued n).mp hn)).imp_right
    fun ⟨t, ht⟩ => ⟨t, (hperm t).mem_iff.mpr ht⟩
  pcs := hpcs

variable [DecidableEq T]

/-- What holds of every thread after one has moved. -/
theorem ok_update {pcs : T → AsyncPoolPc} {pc : AsyncPoolPc} {stack : TaggedPtr} {next : ℕ → ℕ}
    {blocks : ℕ → Option AsyncBlock} (hpc : pc.Ok stack next blocks)
    (hother : ∀ u, u ≠ t → (pcs u).Ok stack next blocks) (u : T) :
    (Function.update pcs t pc u).Ok stack next blocks := by
  by_cases hu : u = t
  · rw [hu, Function.update_self]
    exact hpc
  · rw [Function.update_of_ne hu]
    exact hother u hu

/-- The nodes of every thread after one has moved and what it holds has changed. -/
theorem owned_update {helds : T → List ℕ} {pcs : T → AsyncPoolPc} {held : List ℕ}
    {pc : AsyncPoolPc} (hperm : (ownedNodes l held pc).Perm (ownedNodes l (helds t) (pcs t))) (u : T) :
    (ownedNodes l (Function.update helds t held u) (Function.update pcs t pc u)).Perm
      (ownedNodes l (helds u) (pcs u)) := by
  by_cases hu : u = t
  · rw [hu, Function.update_self, Function.update_self]
    exact hperm
  · rw [Function.update_of_ne hu, Function.update_of_ne hu]

/-- A thread moves on with the same node in hand; the stack, the nodes and the blocks stay. -/
theorem Inv.move (h : s.Inv l free) (pc : AsyncPoolPc) (hhand : pc.hand = (s.pc t).hand)
    (hpc : pc.Ok s.freeStack s.nodeNext s.blocks) {length total : ℕ} {primary : TaggedPtr}
    {flag : Bool} (hprimary : (s.blocks primary.ptr).isSome) :
    ({ s.setPc t pc with
      freeLength := length, totalBlocks := total, primaryBlock := primary,
      allocatingFlag := flag } : AsyncPool T).Inv l free := by
  refine h.of_perm h.blocks hprimary (fun n => Iff.rfl) rfl (fun n _ => rfl) h.element
    (fun u => ?_) (ok_update hpc fun u _ => h.pcs u)
  have hperm : (ownedNodes l (s.held t) pc).Perm (ownedNodes l (s.held t) (s.pc t)) := by
    rw [ownedNodes, ownedNodes, hhand]
  have := owned_update hperm u
  rwa [Function.update_eq_self] at this

/-- The popped node's element is handed out. -/
theorem Inv.keep (h : s.Inv l free) {length : ℕ} (hpc : s.pc t = .takeCount n) :
    ({ (s.setPc t .idle).setHeld t (s.held t ++ [n + l.headerOffset]) with
      freeLength := length } : AsyncPool T).Inv l free := by
  refine h.of_perm h.blocks h.primary (fun n => Iff.rfl) rfl (fun _ _ => rfl) (fun u e he => ?_)
    (owned_update ?_) (ok_update trivial fun u _ => h.pcs u)
  · by_cases hu : u = t
    · have he : e ∈ s.held t ++ [n + l.headerOffset] := by simpa [setHeld, hu] using he
      rcases List.mem_append.mp he with he | he
      · exact h.element t e he
      · rw [List.mem_singleton.mp he]
        exact Nat.le_add_left _ _
    · exact h.element u e (by simpa [setHeld, setPc, hu] using he)
  · simp [setPc, hpc, ownedNodes, AsyncPoolPc.hand]

/-- A call takes back an element that its thread holds. -/
theorem Inv.giveBack (h : s.Inv l free) {e : ℕ} (hpc : s.pc t = .idle) (he : e ∈ s.held t) :
    ((s.setHeld t ((s.held t).erase e)).setPc t (.returnTop (e - l.headerOffset))).Inv l free := by
  refine h.of_perm h.blocks h.primary (fun n => Iff.rfl) rfl (fun _ _ => rfl) (fun u x hx => ?_)
    (owned_update ?_) (ok_update trivial fun u _ => h.pcs u)
  · by_cases hu : u = t
    · have hx : x ∈ (s.held t).erase e := by simpa [setHeld, setPc, hu] using hx
      exact h.element t x (List.mem_of_mem_erase hx)
    · exact h.element u x (by simpa [setHeld, setPc, hu] using hx)
  · have hperm := ((List.perm_cons_erase he).map (· - l.headerOffset)).symm
    simp only [setHeld, hpc, ownedNodes, AsyncPoolPc.hand, Option.toList_some, Option.toList_none,
      List.append_nil]
    exact (List.perm_append_singleton _ _).trans hperm

/-- A thread writes the `next` of the node in its hand, which nobody else can reach. -/
theorem Inv.writeNext (h : s.Inv l free) {top : TaggedPtr} (hpc : s.pc t = .returnNext n top) :
    ({ s.setPc t (.returnSwap n top) with
      nodeNext := Function.update s.nodeNext n top.ptr } : AsyncPool T).Inv l free := by
  have hn : n ∈ s.owned l t := mem_owned_of_hand (by rw [hpc]; rfl)
  have hne : ∀ m ∈ free, m ≠ n := by
    rintro m hm rfl
    exact h.apart t m hn hm
  -- The top of the stack is not that node: it is on the stack or null.
  have htop : s.freeStack.ptr ≠ n := by
    by_cases hzero : s.freeStack.ptr = 0
    · have hpos := h.blocks.issued_ne_zero (h.issued t n hn)
      omega
    · obtain ⟨rest, hfree, -⟩ := h.chain.exists_cons hzero
      exact hne _ (hfree ▸ List.mem_cons_self)
  refine h.of_perm h.blocks h.primary (fun n => Iff.rfl) rfl
    (fun m hm => Function.update_of_ne (hne m hm) _ _) h.element (fun u => ?_)
    (ok_update (Function.update_self ..) fun u hu => ?_)
  · have hperm : (ownedNodes l (s.held t) (.returnSwap n top)).Perm
        (ownedNodes l (s.held t) (s.pc t)) := by
      rw [hpc, ownedNodes, ownedNodes]
      rfl
    have := owned_update hperm u
    rwa [Function.update_eq_self] at this
  · refine (h.pcs u).mono (Or.inl ⟨rfl, Function.update_of_ne htop _ _⟩) (fun a b hb => ⟨b, hb, rfl⟩)
      fun m hm => Function.update_of_ne ?_ _ _
    rintro rfl
    exact hu (h.unique u t m (mem_owned_of_hand hm) hn)

/-- A thread changes the link of a block. -/
theorem Inv.link (h : s.Inv l free) {a b : ℕ} {block : AsyncBlock} (hpc : s.pc t = .allocLink a b)
    (hblock : s.blocks a = some block) :
    ((s.setPc t .allocRelease).setBlock a { block with next := b }).Inv l free := by
  have hok : (s.blocks a).isSome ∧ (s.blocks b).isSome := by
    have := h.pcs t
    rwa [hpc] at this
  have hblocks : ∀ x y, s.blocks x = some y → ∃ y',
      Function.update s.blocks a (some { block with next := b }) x = some y' ∧
      y'.elements = y.elements ∧ y'.taken = y.taken := by
    intro x y hy
    by_cases hx : x = a
    · subst hx
      obtain rfl := Option.some_injective _ (hblock.symm.trans hy)
      exact ⟨{ block with next := b }, Function.update_self .., rfl, rfl⟩
    · exact ⟨y, by rwa [Function.update_of_ne hx], rfl, rfl⟩
  have hmono : ∀ u, (s.pc u).Ok s.freeStack s.nodeNext
      (Function.update s.blocks a (some { block with next := b })) := by
    intro u
    refine (h.pcs u).mono (Or.inl ⟨rfl, rfl⟩) (fun x y hy => ?_) fun _ _ => rfl
    obtain ⟨y', hy', hel, -⟩ := hblocks x y hy
    exact ⟨y', hy', hel⟩
  refine h.of_perm (h.blocks.setBlock hblock rfl (h.blocks.taken a block hblock) fun _ => hok.2) ?_
    (fun n => ⟨?_, ?_⟩) rfl (fun _ _ => rfl) h.element (fun u => ?_)
    (ok_update trivial fun u _ => hmono u)
  · obtain ⟨y, hy⟩ := Option.isSome_iff_exists.mp h.primary
    obtain ⟨y', hy', -⟩ := hblocks _ y hy
    exact Option.isSome_iff_exists.mpr ⟨y', hy'⟩
  · rintro ⟨x, y, k, hy, hk, rfl⟩
    by_cases hx : x = a
    · subst hx
      obtain rfl : { block with next := b } = y := by simpa [setBlock] using hy
      exact ⟨x, block, k, hblock, hk, rfl⟩
    · exact ⟨x, y, k, by simpa [setBlock, setPc, hx] using hy, hk, rfl⟩
  · rintro ⟨x, y, k, hy, hk, rfl⟩
    obtain ⟨y', hy', -, htaken⟩ := hblocks x y hy
    exact ⟨x, y', k, hy', htaken ▸ hk, rfl⟩
  · have hperm : (ownedNodes l (s.held t) .allocRelease).Perm
        (ownedNodes l (s.held t) (s.pc t)) := by
      rw [hpc, ownedNodes, ownedNodes]
      rfl
    have := owned_update hperm u
    rwa [Function.update_eq_self] at this

/-- A thread allocates a block in free memory. -/
theorem Inv.allocate (h : s.Inv l free) {a primary ordinal : ℕ}
    (hpc : s.pc t = .allocBlock primary ordinal) (hfree : s.Free l a (asyncBlockElements ordinal))
    (hfits : asyncBlockElements ordinal * l.nodeSize < 2 ^ 32) (hsize : 0 < l.headerSize) :
    (asyncPoolAllocateBlock s t a).Inv l free := by
  obtain ⟨hnone, hblocks'⟩ := h.blocks.allocate primary hfree.1 hfree.2 hfits hsize
  have hblocks : ∀ x y, s.blocks x = some y → Function.update s.blocks a
      (some ⟨0, primary, asyncBlockElements ordinal, 0⟩) x = some y := by
    intro x y hy
    have hx : x ≠ a := by
      rintro rfl
      rw [hnone] at hy
      cases hy
    rwa [Function.update_of_ne hx]
  have hok : primary ≠ 0 → (s.blocks primary).isSome := by
    have := h.pcs t
    rwa [hpc] at this
  have hsome : ∀ x, (s.blocks x).isSome → (Function.update s.blocks a
      (some ⟨0, primary, asyncBlockElements ordinal, 0⟩) x).isSome := by
    intro x hx
    obtain ⟨y, hy⟩ := Option.isSome_iff_exists.mp hx
    exact Option.isSome_iff_exists.mpr ⟨y, hblocks x y hy⟩
  rw [asyncPoolAllocateBlock, hpc]
  refine h.of_perm hblocks' (hsome _ h.primary) (fun n => ⟨?_, ?_⟩) rfl (fun _ _ => rfl) h.element
    (fun u => ?_) (ok_update ⟨fun hne => hsome _ (hok hne), ?_⟩ fun u _ => ?_)
  · rintro ⟨x, y, k, hy, hk, rfl⟩
    by_cases hx : x = a
    · -- Nothing is taken from the new block.
      subst hx
      obtain rfl : ⟨0, primary, asyncBlockElements ordinal, 0⟩ = y := by
        simpa [setBlock] using hy
      exact absurd hk (Nat.not_lt_zero _)
    · exact ⟨x, y, k, by simpa [setBlock, setPc, hx] using hy, hk, rfl⟩
  · rintro ⟨x, y, k, hy, hk, rfl⟩
    exact ⟨x, y, k, hblocks x y hy, hk, rfl⟩
  · have hperm : (ownedNodes l (s.held t) (.allocTotal primary a)).Perm
        (ownedNodes l (s.held t) (s.pc t)) := by
      rw [hpc, ownedNodes, ownedNodes]
      rfl
    have := owned_update hperm u
    rwa [Function.update_eq_self] at this
  · simp [setBlock]
  · exact (h.pcs u).mono (Or.inl ⟨rfl, rfl⟩) (fun x y hy => ⟨y, hblocks x y hy, rfl⟩) fun _ _ => rfl

/-! ### Steps that move a node -/

/-- What the nodes of a thread are after another one has moved. -/
theorem owned_of_ne {helds : T → List ℕ} {pcs : T → AsyncPoolPc} {held : List ℕ} {pc : AsyncPoolPc}
    (hu : u ≠ t) : ownedNodes l (Function.update helds t held u) (Function.update pcs t pc u) =
      ownedNodes l (helds u) (pcs u) := by
  rw [Function.update_of_ne hu, Function.update_of_ne hu]

/-- A thread gets a node that nobody has. -/
theorem Inv.gain (h : s.Inv l free) {free' : List ℕ} (hblocks : BlocksOk l s'.blocks s'.allocated)
    (hprimary : (s'.blocks s'.primaryBlock.ptr).isSome)
    (hchain : Chain s'.nodeNext s'.freeStack.ptr free') (hsub : free'.Sublist free)
    (hissued : ∀ m, Issued l s'.blocks m ↔ m = n ∨ Issued l s.blocks m)
    (hfree : ∀ m ∈ free, m ∈ free' ∨ m = n) (hn : n ∉ free') (hunowned : ∀ u, n ∉ s.owned l u)
    (helement : ∀ t, ∀ e ∈ s'.held t, l.headerOffset ≤ e)
    (hself : (s'.owned l t).Perm (n :: s.owned l t))
    (hother : ∀ u, u ≠ t → s'.owned l u = s.owned l u)
    (hpcs : ∀ t, (s'.pc t).Ok s'.freeStack s'.nodeNext s'.blocks) : s'.Inv l free' := by
  have hmem : ∀ u m, m ∈ s'.owned l u → m = n ∧ u = t ∨ m ∈ s.owned l u := by
    intro u m hm
    by_cases hu : u = t
    · subst hu
      rcases List.mem_cons.mp (hself.mem_iff.mp hm) with rfl | hm
      · exact Or.inl ⟨rfl, rfl⟩
      · exact Or.inr hm
    · exact Or.inr (hother u hu ▸ hm)
  refine ⟨hblocks, hprimary, hchain, h.nodup.sublist hsub, fun m hm => ?_, helement,
    fun u m hm => ?_, fun u m hm => ?_, fun u v m hu hv => ?_, fun u => ?_, fun m hm => ?_, hpcs⟩
  · exact (hissued m).mpr (Or.inr (h.free_issued m (hsub.subset hm)))
  · rcases hmem u m hm with ⟨rfl, -⟩ | hm
    · exact (hissued m).mpr (Or.inl rfl)
    · exact (hissued m).mpr (Or.inr (h.issued u m hm))
  · rcases hmem u m hm with ⟨rfl, -⟩ | hm
    · exact hn
    · exact fun hfree => h.apart u m hm (hsub.subset hfree)
  · rcases hmem u m hu with ⟨rfl, rfl⟩ | hu
    · rcases hmem v m hv with ⟨-, rfl⟩ | hv
      · rfl
      · exact absurd hv (hunowned v)
    · rcases hmem v m hv with ⟨rfl, rfl⟩ | hv
      · exact absurd hu (hunowned u)
      · exact h.unique u v m hu hv
  · by_cases hu : u = t
    · subst hu
      exact hself.nodup_iff.mpr (List.nodup_cons.mpr ⟨hunowned u, h.once u⟩)
    · rw [hother u hu]
      exact h.once u
  · have hgot : n ∈ s'.owned l t := hself.mem_iff.mpr List.mem_cons_self
    rcases (hissued m).mp hm with rfl | hm
    · exact Or.inr ⟨t, hgot⟩
    · rcases h.complete m hm with hm | ⟨u, hm⟩
      · rcases hfree m hm with hm | rfl
        · exact Or.inl hm
        · exact Or.inr ⟨t, hgot⟩
      · refine Or.inr ⟨u, ?_⟩
        by_cases hu : u = t
        · subst hu
          exact hself.mem_iff.mpr (List.mem_cons_of_mem _ hm)
        · exact (hother u hu).symm ▸ hm

/-- **A pop**: the compare-and-swap of the stack succeeds, so nothing has changed since the load and
what was read is the `next` of the top. -/
theorem Inv.pop (h : s.Inv l free) {top : TaggedPtr} {next : ℕ} (hpc : s.pc t = .takeSwap top next)
    (htop : s.freeStack = top) : ∃ free', free = top.ptr :: free' ∧
      ({ s.setPc t (.takeCount top.ptr) with freeStack := top.next next } : AsyncPool T).Inv l
        free' := by
  obtain ⟨hptr, -, hnext⟩ : AsyncPoolPc.Ok s.freeStack s.nodeNext s.blocks (.takeSwap top next) := by
    have := h.pcs t
    rwa [hpc] at this
  obtain rfl := hnext htop
  subst htop
  obtain ⟨free', rfl, hchain⟩ := h.chain.exists_cons hptr
  obtain ⟨hnotin, -⟩ := List.nodup_cons.mp h.nodup
  refine ⟨free', rfl, h.gain (t := t) (n := s.freeStack.ptr) h.blocks h.primary hchain
    (List.sublist_cons_self _ _) (fun m => ⟨Or.inr, ?_⟩) (fun m hm => (List.mem_cons.mp hm).symm)
    hnotin (fun u hu => h.apart u _ hu List.mem_cons_self) h.element ?_ (fun u hu => ?_)
    (ok_update trivial fun u _ => ?_)⟩
  · rintro (rfl | hm)
    · exact h.free_issued _ List.mem_cons_self
    · exact hm
  · change (ownedNodes l (s.held t) (Function.update s.pc t (.takeCount s.freeStack.ptr) t)).Perm _
    rw [Function.update_self, owned, hpc]
    simp only [ownedNodes, AsyncPoolPc.hand, Option.toList_some, Option.toList_none,
      List.append_nil]
    exact List.perm_append_singleton _ _
  · change ownedNodes l (s.held u) (Function.update s.pc t _ u) = _
    rw [Function.update_of_ne hu]
    rfl
  · exact (h.pcs u).mono (Or.inr (Nat.lt_succ_self _)) (fun a b hb => ⟨b, hb, rfl⟩) fun _ _ => rfl

/-- **A bump**: the compare-and-swap of a block's counter succeeds, so the position it counts was
not taken before. -/
theorem Inv.bump (h : s.Inv l free) (hsize : 0 < l.nodeSize) {a : ℕ} {b : AsyncBlock}
    (hpc : s.pc t = .takeBump a b.taken) (hb : s.blocks a = some b) :
    (((s.setPc t .idle).setBlock a { b with taken := b.taken + 1 }).setHeld t
      (s.held t ++ [l.node a b.taken + l.headerOffset])).Inv l free := by
  obtain ⟨b', hb', hk⟩ : AsyncPoolPc.Ok s.freeStack s.nodeNext s.blocks (.takeBump a b.taken) := by
    have := h.pcs t
    rwa [hpc] at this
  obtain rfl := Option.some_injective _ (hb.symm.trans hb')
  have hfresh := h.blocks.fresh hsize hb hk
  have hblocks : ∀ x y, s.blocks x = some y → ∃ y',
      Function.update s.blocks a (some { b with taken := b.taken + 1 }) x = some y' ∧
      y'.elements = y.elements ∧ y.taken ≤ y'.taken := by
    intro x y hy
    by_cases hx : x = a
    · subst hx
      obtain rfl := Option.some_injective _ (hb.symm.trans hy)
      exact ⟨_, Function.update_self .., rfl, Nat.le_succ _⟩
    · exact ⟨y, by rwa [Function.update_of_ne hx], rfl, le_rfl⟩
  refine h.gain (t := t) (n := l.node a b.taken) (h.blocks.setBlock hb rfl hk (h.blocks.linked a b hb))
    ?_ h.chain (List.Sublist.refl _) (fun m => ⟨?_, ?_⟩) (fun m hm => Or.inl hm)
    (fun hm => hfresh (h.free_issued _ hm)) (fun u hu => hfresh (h.issued u _ hu))
    (fun u e he => ?_) ?_ (fun u hu => owned_of_ne hu) (ok_update trivial fun u _ => ?_)
  · obtain ⟨y, hy⟩ := Option.isSome_iff_exists.mp h.primary
    obtain ⟨y', hy', -⟩ := hblocks _ y hy
    exact Option.isSome_iff_exists.mpr ⟨y', hy'⟩
  · rintro ⟨x, y, k, hy, hky, rfl⟩
    by_cases hx : x = a
    · subst hx
      obtain rfl : { b with taken := b.taken + 1 } = y := by
        simpa [setHeld, setBlock] using hy
      rcases Nat.lt_succ_iff_lt_or_eq.mp hky with hlt | rfl
      · exact Or.inr ⟨x, b, k, hb, hlt, rfl⟩
      · exact Or.inl rfl
    · exact Or.inr ⟨x, y, k, by simpa [setHeld, setBlock, setPc, hx] using hy, hky, rfl⟩
  · rintro (rfl | ⟨x, y, k, hy, hky, rfl⟩)
    · exact ⟨a, { b with taken := b.taken + 1 }, b.taken, by simp [setHeld, setBlock],
        Nat.lt_succ_self _, rfl⟩
    · obtain ⟨y', hy', -, hle⟩ := hblocks x y hy
      exact ⟨x, y', k, hy', hky.trans_le hle, rfl⟩
  · by_cases hu : u = t
    · have he : e ∈ s.held t ++ [l.node a b.taken + l.headerOffset] := by
        simpa [setHeld, hu] using he
      rcases List.mem_append.mp he with he | he
      · exact h.element t e he
      · rw [List.mem_singleton.mp he]
        exact Nat.le_add_left _ _
    · exact h.element u e (by simpa [setHeld, setBlock, setPc, hu] using he)
  · change (ownedNodes l (Function.update s.held t _ t) (Function.update s.pc t .idle t)).Perm _
    rw [Function.update_self, Function.update_self, owned, hpc]
    simp only [ownedNodes, AsyncPoolPc.hand, Option.toList_none, List.append_nil, List.map_append,
      List.map_cons, List.map_nil, Nat.add_sub_cancel]
    exact List.perm_append_singleton _ _
  · refine (h.pcs u).mono (Or.inl ⟨rfl, rfl⟩) (fun x y hy => ?_) fun _ _ => rfl
    obtain ⟨y', hy', hel, -⟩ := hblocks x y hy
    exact ⟨y', hy', hel⟩

/-- **A push**: the compare-and-swap of the stack succeeds, so the node's `next`, which nobody else
writes, is the top it replaces. -/
theorem Inv.push (h : s.Inv l free) {top : TaggedPtr} (hpc : s.pc t = .returnSwap n top)
    (htop : s.freeStack = top) :
    ({ s.setPc t .returnCount with freeStack := top.next n } : AsyncPool T).Inv l (n :: free) := by
  have hnext : s.nodeNext n = top.ptr := by
    have := h.pcs t
    rwa [hpc] at this
  have hn : n ∈ s.owned l t := mem_owned_of_hand (by rw [hpc]; rfl)
  have hissued := h.issued t n hn
  -- The thread gives up the node it was busy with and keeps the others.
  have hself : (s.owned l t).Perm (n :: ownedNodes l (s.held t) .returnCount) := by
    rw [owned, hpc]
    simp only [ownedNodes, AsyncPoolPc.hand, Option.toList_some, Option.toList_none,
      List.append_nil]
    exact List.perm_append_singleton _ _
  have hmem : ∀ u m, m ∈ ownedNodes l (s.held u) (Function.update s.pc t .returnCount u) →
      m ∈ s.owned l u ∧ m ≠ n := by
    intro u m hm
    by_cases hu : u = t
    · subst hu
      rw [Function.update_self] at hm
      refine ⟨hself.mem_iff.mpr (List.mem_cons_of_mem _ hm), ?_⟩
      rintro rfl
      exact (List.nodup_cons.mp (hself.nodup_iff.mp (h.once u))).1 hm
    · rw [Function.update_of_ne hu] at hm
      refine ⟨hm, ?_⟩
      rintro rfl
      exact hu (h.unique u t m hm hn)
  refine ⟨h.blocks, h.primary, ⟨rfl, h.blocks.issued_ne_zero hissued, ?_⟩,
    List.nodup_cons.mpr ⟨h.apart t n hn, h.nodup⟩, fun m hm => ?_, h.element, fun u m hm => ?_,
    fun u m hm => ?_, fun u v m hu hv => ?_, fun u => ?_, fun m hm => ?_,
    ok_update trivial fun u _ => ?_⟩
  · change Chain s.nodeNext (s.nodeNext n) free
    rw [hnext, ← htop]
    exact h.chain
  · rcases List.mem_cons.mp hm with rfl | hm
    · exact hissued
    · exact h.free_issued m hm
  · exact h.issued u m (hmem u m hm).1
  · refine List.not_mem_cons_of_ne_of_not_mem (hmem u m hm).2 (h.apart u m (hmem u m hm).1)
  · exact h.unique u v m (hmem u m hu).1 (hmem v m hv).1
  · change (ownedNodes l (s.held u) (Function.update s.pc t .returnCount u)).Nodup
    by_cases hu : u = t
    · subst hu
      rw [Function.update_self]
      exact (List.nodup_cons.mp (hself.nodup_iff.mp (h.once u))).2
    · rw [Function.update_of_ne hu]
      exact h.once u
  · rcases h.complete m hm with hfree | ⟨u, hu⟩
    · exact Or.inl (List.mem_cons_of_mem _ hfree)
    · by_cases hmn : m = n
      · exact Or.inl (hmn ▸ List.mem_cons_self)
      · refine Or.inr ⟨u, ?_⟩
        change m ∈ ownedNodes l (s.held u) (Function.update s.pc t .returnCount u)
        by_cases hut : u = t
        · rw [hut, Function.update_self]
          rw [hut] at hu
          exact (List.mem_cons.mp (hself.mem_iff.mp hu)).resolve_left hmn
        · rw [Function.update_of_ne hut]
          exact hu
  · refine (h.pcs u).mono (Or.inr ?_) (fun a b hb => ⟨b, hb, rfl⟩) fun _ _ => rfl
    change s.freeStack.tag < top.tag + 1
    rw [htop]
    exact Nat.lt_succ_self _

/-- An element is passed from one thread to another, or to itself. -/
theorem Inv.pass (h : s.Inv l free) {e : ℕ} (he : e ∈ s.held t) :
    ((s.setHeld t ((s.held t).erase e)).setHeld u
      ((s.setHeld t ((s.held t).erase e)).held u ++ [e])).Inv l free := by
  have hle := h.element t e he
  have hperm := List.perm_cons_erase he
  by_cases hut : u = t
  · subst hut
    have hheld : (s.setHeld u ((s.held u).erase e)).held u = (s.held u).erase e :=
      Function.update_self ..
    rw [hheld]
    have hback : ((s.held u).erase e ++ [e]).Perm (s.held u) :=
      (List.perm_append_singleton _ _).trans hperm.symm
    refine h.of_perm h.blocks h.primary (fun n => Iff.rfl) rfl (fun _ _ => rfl) (fun v x hx => ?_)
      (fun v => ?_) h.pcs
    · by_cases hv : v = u
      · have hx : x ∈ (s.held u).erase e ++ [e] := by simpa [setHeld, hv] using hx
        exact h.element u x (hback.mem_iff.mp hx)
      · exact h.element v x (by simpa [setHeld, hv] using hx)
    · change (ownedNodes l (Function.update (Function.update s.held u _) u _ v) (s.pc v)).Perm _
      by_cases hv : v = u
      · rw [hv, Function.update_self]
        exact (hback.map _).append_right _
      · rw [Function.update_of_ne hv, Function.update_of_ne hv]
        exact List.Perm.refl _
  · have hheld : (s.setHeld t ((s.held t).erase e)).held u = s.held u := Function.update_of_ne hut ..
    rw [hheld]
    have hgive : (s.owned l t).Perm
        ((e - l.headerOffset) :: ownedNodes l ((s.held t).erase e) (s.pc t)) :=
      (hperm.map _).append_right _
    have hget : (ownedNodes l (s.held u ++ [e]) (s.pc u)).Perm
        ((e - l.headerOffset) :: s.owned l u) := by
      simp only [owned, ownedNodes, List.map_append, List.map_cons, List.map_nil]
      exact ((List.perm_append_singleton _ _).append_right _)
    have ht : e - l.headerOffset ∈ s.owned l t := mem_owned_of_held he
    have howned : ∀ v, ((s.setHeld t ((s.held t).erase e)).setHeld u (s.held u ++ [e])).owned l v =
        if v = u then ownedNodes l (s.held u ++ [e]) (s.pc u)
        else if v = t then ownedNodes l ((s.held t).erase e) (s.pc t) else s.owned l v := by
      intro v
      by_cases hvu : v = u
      · simp [owned, setHeld, hvu]
      · by_cases hvt : v = t
        · simp [owned, setHeld, hvt, Ne.symm hut]
        · simp [owned, setHeld, hvu, hvt]
    -- The node passed on is with `u`, every other node is with whom it was.
    have hmem : ∀ v m, m ∈ ((s.setHeld t ((s.held t).erase e)).setHeld u (s.held u ++ [e])).owned l v ↔
        m = e - l.headerOffset ∧ v = u ∨ m ≠ e - l.headerOffset ∧ m ∈ s.owned l v := by
      intro v m
      rw [howned]
      have hnodup := List.nodup_cons.mp (hgive.nodup_iff.mp (h.once t))
      have hother : ∀ w, w ≠ t → e - l.headerOffset ∉ s.owned l w :=
        fun w hw hmem => hw (h.unique w t _ hmem ht)
      split_ifs with hvu hvt
      · rw [hget.mem_iff, List.mem_cons, hvu]
        by_cases hm : m = e - l.headerOffset
        · simp [hm]
        · simp [hm]
      · have hvu : t ≠ u := Ne.symm hut
        rw [hvt, hgive.mem_iff, List.mem_cons]
        by_cases hm : m = e - l.headerOffset
        · simp [hm, hvu, hnodup.1]
        · simp [hm]
      · by_cases hm : m = e - l.headerOffset
        · simp [hm, hvu, hother v hvt]
        · simp [hm]
    refine ⟨h.blocks, h.primary, h.chain, h.nodup, h.free_issued, fun v x hx => ?_,
      fun v m hm => ?_, fun v m hm => ?_, fun v w m hv hw => ?_, fun v => ?_, fun m hm => ?_, h.pcs⟩
    · by_cases hvu : v = u
      · have hx : x ∈ s.held u ++ [e] := by simpa [setHeld, hvu] using hx
        rcases List.mem_append.mp hx with hx | hx
        · exact h.element u x hx
        · rwa [List.mem_singleton.mp hx]
      · by_cases hvt : v = t
        · have hx : x ∈ (s.held t).erase e := by simpa [setHeld, hvt, Ne.symm hut] using hx
          exact h.element t x (List.mem_of_mem_erase hx)
        · exact h.element v x (by simpa [setHeld, hvu, hvt] using hx)
    · rcases (hmem v m).mp hm with ⟨rfl, -⟩ | ⟨-, hm⟩
      · exact h.issued t _ ht
      · exact h.issued v m hm
    · rcases (hmem v m).mp hm with ⟨rfl, -⟩ | ⟨-, hm⟩
      · exact h.apart t _ ht
      · exact h.apart v m hm
    · rcases (hmem v m).mp hv with ⟨hm, rfl⟩ | ⟨hm, hv⟩
      · rcases (hmem w m).mp hw with ⟨-, rfl⟩ | ⟨hm', -⟩
        · rfl
        · exact absurd hm hm'
      · rcases (hmem w m).mp hw with ⟨hm', -⟩ | ⟨-, hw⟩
        · exact absurd hm' hm
        · exact h.unique v w m hv hw
    · rw [howned]
      split_ifs
      · refine hget.nodup_iff.mpr (List.nodup_cons.mpr ⟨fun hu => ?_, h.once u⟩)
        exact hut (h.unique u t _ hu ht)
      · exact (List.nodup_cons.mp (hgive.nodup_iff.mp (h.once t))).2
      · exact h.once v
    · rcases h.complete m hm with hfree | ⟨v, hv⟩
      · exact Or.inl hfree
      · by_cases heq : m = e - l.headerOffset
        · exact Or.inr ⟨u, (hmem u m).mpr (Or.inl ⟨heq, rfl⟩)⟩
        · exact Or.inr ⟨v, (hmem v m).mpr (Or.inr ⟨heq, hv⟩)⟩

/-! ### Runs -/

/-- **Step rule of a thread**: its next access returns and keeps the invariant. -/
theorem Inv.advance (h : s.Inv l free) (hl : l.Unwrapped) :
    Returns (asyncPoolAdvance l s t) fun s' => ∃ free', s'.Inv l free' := by
  have hsize : 0 < l.nodeSize := by
    have := hl.nodeSize
    have := hl.headerOffset
    omega
  have hok := h.pcs t
  rw [asyncPoolAdvance]
  split
  next => exact returns_ok ⟨free, h⟩
  next => exact returns_ok ⟨free, h⟩
  next hpc =>
    refine returns_ok ⟨free, h.move _ ?_ ?_ h.primary⟩
    · rw [hpc]
      split_ifs <;> rfl
    · split_ifs with hptr
      · trivial
      · exact ⟨hptr, le_rfl⟩
  next top hpc =>
    rw [hpc] at hok
    exact returns_ok ⟨free, h.move (.takeSwap top _) (by rw [hpc]; rfl)
      ⟨hok.1, hok.2, fun _ => rfl⟩ h.primary⟩
  next top next hpc =>
    split_ifs with htop
    · obtain ⟨free', -, hinv⟩ := h.pop hpc htop
      exact returns_ok ⟨free', hinv⟩
    · exact returns_ok ⟨free, h.move .takeTop (by rw [hpc]; rfl) trivial h.primary⟩
  next node hpc => exact returns_ok ⟨free, h.keep hpc⟩
  next hpc =>
    exact returns_ok ⟨free, h.move (.takeTaken _) (by rw [hpc]; rfl) h.primary h.primary⟩
  next address hpc =>
    rw [hpc] at hok
    obtain ⟨b, hb⟩ := Option.isSome_iff_exists.mp hok
    rw [hb, deref_some, ok_bind]
    refine returns_ok ⟨free, h.move _ ?_ ?_ h.primary⟩
    · rw [hpc]
      split_ifs <;> rfl
    · split_ifs with hfull
      · trivial
      · exact ⟨b, hb, not_le.mp hfull⟩
  next address taken hpc =>
    have hblock := hok
    rw [hpc] at hblock
    obtain ⟨b, hb, -⟩ := hblock
    rw [hb, deref_some, ok_bind]
    split_ifs with htaken
    · subst htaken
      exact returns_ok ⟨free, h.bump hsize hpc hb⟩
    · exact returns_ok ⟨free, h.move .takeTop (by rw [hpc]; rfl) trivial h.primary⟩
  next hpc =>
    split_ifs
    · exact returns_ok ⟨free, h.move .takeTop (by rw [hpc]; rfl) trivial h.primary⟩
    · exact returns_ok ⟨free, h.move .allocPrimary (by rw [hpc]; rfl) trivial h.primary⟩
  next hpc =>
    refine returns_ok ⟨free, h.move _ ?_ ?_ h.primary⟩
    · rw [hpc]
      split_ifs <;> rfl
    · split_ifs
      · exact fun hne => absurd rfl hne
      · exact h.primary
  next primary hpc =>
    rw [hpc] at hok
    obtain ⟨b, hb⟩ := Option.isSome_iff_exists.mp hok
    rw [hb, deref_some, ok_bind]
    refine returns_ok ⟨free, h.move _ ?_ ?_ h.primary⟩
    · rw [hpc]
      split_ifs <;> rfl
    · split_ifs with hnext
      · exact fun _ => hok
      · exact ⟨fun _ hlink => (by cases hlink), h.blocks.linked primary b hb hnext⟩
  next primary hpc =>
    rw [hpc] at hok
    exact returns_ok ⟨free, h.move (.allocBlock primary _) (by rw [hpc]; rfl) hok h.primary⟩
  next primary block hpc =>
    rw [hpc] at hok
    refine returns_ok ⟨free, h.move (.allocLoad _ block) (by rw [hpc]; rfl) ⟨?_, hok.2⟩ h.primary⟩
    intro b hb
    split_ifs at hb with hprimary
    · cases hb
    · obtain rfl := Option.some_injective _ hb
      exact hok.1 hprimary
  next link block hpc =>
    rw [hpc] at hok
    exact returns_ok ⟨free, h.move (.allocStore link block _) (by rw [hpc]; rfl) hok h.primary⟩
  next link block old hpc =>
    rw [hpc] at hok
    split
    next link =>
      exact returns_ok ⟨free, h.move (.allocLink link block) (by rw [hpc]; rfl)
        ⟨hok.1 link rfl, hok.2⟩ hok.2⟩
    next =>
      exact returns_ok ⟨free, h.move .allocRelease (by rw [hpc]; rfl) trivial hok.2⟩
  next link address hpc =>
    rw [hpc] at hok
    obtain ⟨b, hb⟩ := Option.isSome_iff_exists.mp hok.1
    rw [hb, deref_some, ok_bind]
    exact returns_ok ⟨free, h.link hpc hb⟩
  next hpc => exact returns_ok ⟨free, h.move .takeTop (by rw [hpc]; rfl) trivial h.primary⟩
  next node hpc =>
    exact returns_ok ⟨free, h.move (.returnNext node _) (by rw [hpc]; rfl) trivial h.primary⟩
  next node top hpc => exact returns_ok ⟨free, h.writeNext hpc⟩
  next node top hpc =>
    split_ifs with htop
    · exact returns_ok ⟨node :: free, h.push hpc htop⟩
    · exact returns_ok ⟨free, h.move (.returnTop node) (by rw [hpc]; rfl) trivial h.primary⟩
  next hpc => exact returns_ok ⟨free, h.move .idle (by rw [hpc]; rfl) trivial h.primary⟩

end AsyncPool

variable {T : Type} [DecidableEq T] {l : AsyncPoolLayout} {s : AsyncPool T} {free : List ℕ}

/-- **Step rule**: a fitting operation returns and keeps the invariant. -/
theorem asyncPoolStep_inv {o : AsyncPoolOp T} (hl : l.Unwrapped) (hheader : 0 < l.headerSize)
    (h : s.Inv l free) (hguard : (fittingAsyncPoolMachine l T).guard s o) :
    Returns (asyncPoolStep l s o) fun s' => ∃ free', s'.Inv l free' := by
  obtain ⟨hguard, hfits⟩ := hguard
  cases o with
  | take t =>
    have hidle : s.pc t = .idle := hguard
    exact returns_ok ⟨free, h.move .takeTop (by rw [hidle]; rfl) trivial h.primary⟩
  | ret t element => exact returns_ok ⟨free, h.giveBack hguard.1 hguard.2⟩
  | pass t u element => exact returns_ok ⟨free, h.pass hguard⟩
  | advance t => exact h.advance hl
  | fail t =>
    obtain ⟨pc, hpc⟩ := Option.isSome_iff_exists.mp hguard
    refine returns_ok ⟨free, h.move _ ?_ ?_ h.primary⟩
    · rw [hpc]
      cases ht : s.pc t <;> simp_all [AsyncPoolPc.failed, AsyncPoolPc.hand] <;> simp [← hpc]
    · rw [hpc]
      cases ht : s.pc t <;> simp_all [AsyncPoolPc.failed] <;> simp [← hpc, AsyncPoolPc.Ok]
  | allocate t address =>
    obtain ⟨ordinal, hordinal⟩ := Option.isSome_iff_exists.mp hguard.1
    have hpc : ∃ primary, s.pc t = .allocBlock primary ordinal := by
      cases ht : s.pc t <;> simp_all [AsyncPoolPc.allocating]
    obtain ⟨primary, hpc⟩ := hpc
    exact returns_ok ⟨free, h.allocate hpc (hguard.2 ordinal hordinal) (hfits ordinal hordinal).2
      hheader⟩

omit [DecidableEq T] in
theorem asyncPoolInit_inv {address : ℕ} (hl : l.Unwrapped) (haddress : address ≠ 0) :
    (AsyncPool.init address : AsyncPool T).Inv l [] := by
  have hblock : ∀ x y, (AsyncPool.init address : AsyncPool T).blocks x = some y →
      x = address ∧ y = ⟨0, 0, 16, 0⟩ := by
    intro x y hy
    by_cases hx : x = address
    · subst hx
      exact ⟨rfl, by simpa [AsyncPool.init, asyncBlockElements, eq_comm] using hy⟩
    · simp [AsyncPool.init, hx] at hy
  have hbound := hl.bound
  refine ⟨⟨fun x y hy => ?_, fun x y hy => ?_, fun x y hy => ?_, fun x y hy => ?_,
    fun x y hy hne => ?_, fun x x' y y' hy hy' hne => ?_⟩, ?_, rfl, List.nodup_nil,
    fun n hn => (by cases hn), fun t e he => (by cases he), fun t n hn => (by cases hn),
    fun t n hn => (by cases hn), fun t u n hn => (by cases hn), fun t => List.nodup_nil,
    fun n hn => ?_, fun t => trivial⟩
  · rw [(hblock x y hy).1]
    exact List.mem_singleton_self _
  · rwa [(hblock x y hy).1]
  · rw [(hblock x y hy).2]
    change 16 * l.nodeSize < 2 ^ 32
    omega
  · rw [(hblock x y hy).2]
    exact Nat.zero_le _
  · rw [(hblock x y hy).2] at hne
    exact absurd rfl hne
  · exact absurd ((hblock x y hy).1.trans (hblock x' y' hy').1.symm) hne
  · simp [AsyncPool.init]
  · obtain ⟨x, y, k, hy, hk, -⟩ := hn
    rw [(hblock x y hy).2] at hk
    exact absurd hk (Nat.not_lt_zero _)

/-- **Exclusivity on every fitting run**, of any number of threads: it holds in every state reached,
and no guarded operation faults there. -/
theorem vlAsyncPool_exclusive {elementSize elementAlign address : ℕ} (halign : 0 < elementAlign)
    (hfits : vlMemoryPadUp AsyncPoolLayout.headerBytes elementAlign +
      vlMemoryPadUp elementSize elementAlign < 2 ^ 16) (haddress : address ≠ 0)
    {os : List (AsyncPoolOp T)}
    (hrun : (fittingAsyncPoolMachine (.init elementSize elementAlign) T).Run (.init address) os s) :
    s.Exclusive (.init elementSize elementAlign) ∧
      ∀ o, (fittingAsyncPoolMachine (.init elementSize elementAlign) T).guard s o →
        ∃ s', asyncPoolStep (.init elementSize elementAlign) s o = .ok s' := by
  have hl := asyncPoolLayout_unwrapped halign hfits
  have hheader : 0 < (AsyncPoolLayout.init elementSize elementAlign).headerSize :=
    lt_of_lt_of_le (by norm_num [AsyncPoolLayout.blockBytes]) (le_vlMemoryPadUp halign)
  have hinv : ∃ free, s.Inv (.init elementSize elementAlign) free := by
    refine hrun.invariant (I := fun s => ∃ free, s.Inv (.init elementSize elementAlign) free)
      (fun s o s' h hguard hstep => ?_) ⟨[], asyncPoolInit_inv hl haddress⟩
    obtain ⟨free, h⟩ := h
    exact (asyncPoolStep_inv hl hheader h hguard).of_ok hstep
  obtain ⟨free, hinv⟩ := hinv
  refine ⟨hinv.exclusive hl, fun o hguard => ?_⟩
  obtain ⟨s', hstep, -⟩ := asyncPoolStep_inv hl hheader hinv hguard
  exact ⟨s', hstep⟩

/-- A thread takes a fresh element and passes it to another one, which returns it; then the first
thread takes it again. -/
def recycle : List (AsyncPoolOp (Fin 2)) :=
  [[.take 0], List.replicate 4 (.advance 0), [.pass 0 1 4136, .ret 1 4136],
    List.replicate 4 (.advance 1), [.take 0], List.replicate 4 (.advance 0)].flatten

theorem vlAsyncPool_exclusive_recycle :
    ∃ s, (fittingAsyncPoolMachine (.init 24 8) (Fin 2)).Run (.init 4096) recycle s ∧
      s.Exclusive (.init 24 8) ∧ s.held 0 = [4136] ∧ s.freeStack = ⟨0, 2⟩ := by
  have hexec : (((fittingAsyncPoolMachine (.init 24 8) (Fin 2)).exec (.init 4096) recycle).any
      fun s => s.held 0 = [4136] ∧ s.freeStack = ⟨0, 2⟩) = true := by decide +kernel
  obtain ⟨s, hrun, htest⟩ := Machine.exists_run_of_exec hexec
  exact ⟨s, hrun, (vlAsyncPool_exclusive (by decide) (by decide) (by decide) hrun).1,
    of_decide_eq_true htest⟩

/-- Two threads take a fresh element each. -/
def takeTwice : List (AsyncPoolOp (Fin 2)) :=
  [[.take 0], List.replicate 4 (.advance 0), [.take 1], List.replicate 4 (.advance 1)].flatten

/-- For elements of 65528 bytes the distance between nodes wraps to zero, and both threads get the
same element. -/
theorem vlAsyncPool_shared :
    ∃ s, (asyncPoolMachine (.init 65528 8) (Fin 2)).Run (.init 4096) takeTwice s ∧
      ¬ s.Exclusive (.init 65528 8) := by
  have hexec : (((asyncPoolMachine (.init 65528 8) (Fin 2)).exec (.init 4096) takeTwice).any
      fun s => s.held 0 = [4136] ∧ s.held 1 = [4136]) = true := by decide +kernel
  obtain ⟨s, hrun, htest⟩ := Machine.exists_run_of_exec hexec
  obtain ⟨h0, h1⟩ := of_decide_eq_true htest
  refine ⟨s, hrun, fun hexclusive => ?_⟩
  have := hexclusive.once 0 1 4136 (by simp [h0]) (by simp [h1])
  cases this

end VeritableLasagna
