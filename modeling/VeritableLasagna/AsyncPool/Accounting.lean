import VeritableLasagna.AsyncPool.Walks

/-!
# The memory of the asynchronous pool

Every block that a pool allocates should be released once, by `vlAsyncPoolReset` or in the end by
`vlAsyncPoolFree`, and until then the pool should be able to find it. Both calls walk in one
direction from the primary block, which stands anywhere in the list: it moves to the end as blocks
are used up, and `vlAsyncPoolClear` puts it back to the start.

`vlAsyncPool_accounted_iff` says when that goes well: a call of `vlAsyncPoolReset` needs the primary
block to be the last one, and the call of `vlAsyncPoolFree` needs it to be the first.
-/

namespace VeritableLasagna

variable {T : Type}

/-- One block is found from another by following `next` and `prev`. -/
def AsyncPool.Reaches (s : AsyncPool T) : ℕ → ℕ → Prop :=
  Relation.ReflTransGen fun a a' => a' ≠ 0 ∧ ∃ b ∈ s.blocks a, b.next = a' ∨ b.prev = a'

/-- **The memory is accounted for**: no address was released more often than it was allocated; as
long as the pool is in use, a block that was allocated and not released can be found from the primary
block; and once the pool is freed, every block was released as often as it was allocated. -/
structure AsyncPoolClient.Accounted (c : AsyncPoolClient) : Prop where
  once : ∀ a, c.released.count a ≤ c.pool.allocated.count a
  reachable : c.freed = false → ∀ a, c.released.count a < c.pool.allocated.count a →
    c.pool.Reaches c.pool.primaryBlock.ptr a
  complete : c.freed = true → ∀ a, c.released.count a = c.pool.allocated.count a

instance (l : AsyncPoolLayout) : Decidable l.Unwrapped :=
  decidable_of_iff (l.nodeSize = l.headerOffset + l.elementSize ∧ 0 < l.headerOffset ∧
    l.nodeSize < 2 ^ 16) ⟨fun h => ⟨h.1, h.2.1, h.2.2⟩, fun h => ⟨h.1, h.2, h.3⟩⟩

/-- The sizes of nodes and of the block that a call adds do not wrap. -/
def AsyncPoolCall.Fits (l : AsyncPoolLayout) (c : AsyncPoolClient) (o : AsyncPoolCall) : Prop :=
  l.Unwrapped ∧ match o with
    | .take _ _ => c.pool.Grows → c.pool.totalBlocks < 31 ∧
        asyncBlockElements c.pool.totalBlocks * l.nodeSize < 2 ^ 32
    | .ret _ _ | .clear | .reset | .free => True

/-- **What the accounting needs of a call**: `vlAsyncPoolReset` starts at the last block and
`vlAsyncPoolFree` at the first. -/
def AsyncPoolCall.Tidy (c : AsyncPoolClient) : AsyncPoolCall → Prop
  | .reset => ∀ b ∈ c.pool.blocks c.pool.primaryBlock.ptr, b.next = 0
  | .free => ∀ b ∈ c.pool.blocks c.pool.primaryBlock.ptr, b.prev = 0
  | .take _ _ | .ret _ _ | .clear => True

/-- The machine restricted to calls that keep the accounting. -/
def tidyAsyncPoolMachine (l : AsyncPoolLayout) : Machine AsyncPoolClient AsyncPoolCall where
  guard c o := (asyncPoolClientMachine l).guard c o ∧ o.Fits l c ∧ o.Tidy c
  step := asyncPoolCall l

instance instDecidableCallFits (l : AsyncPoolLayout) (c : AsyncPoolClient) :
    ∀ o : AsyncPoolCall, Decidable (o.Fits l c)
  | .take _ _ => inferInstanceAs (Decidable (l.Unwrapped ∧ (c.pool.Grows →
      c.pool.totalBlocks < 31 ∧ asyncBlockElements c.pool.totalBlocks * l.nodeSize < 2 ^ 32)))
  | .ret _ _ | .clear | .reset | .free => inferInstanceAs (Decidable (l.Unwrapped ∧ True))

instance (c : AsyncPoolClient) : ∀ o : AsyncPoolCall, Decidable (o.Tidy c)
  | .reset => inferInstanceAs
      (Decidable (∀ b ∈ c.pool.blocks c.pool.primaryBlock.ptr, b.next = 0))
  | .free => inferInstanceAs
      (Decidable (∀ b ∈ c.pool.blocks c.pool.primaryBlock.ptr, b.prev = 0))
  | .take _ _ | .ret _ _ | .clear => inferInstanceAs (Decidable True)

instance (l : AsyncPoolLayout) (c : AsyncPoolClient) (o : AsyncPoolCall) :
    Decidable ((tidyAsyncPoolMachine l).guard c o) :=
  inferInstanceAs (Decidable ((asyncPoolClientMachine l).guard c o ∧ o.Fits l c ∧ o.Tidy c))

/-! ### Every block of the list is found -/

section Reaches

variable {s : AsyncPool T} {before behind : List ℕ} {current a : ℕ} {p q : Option ℕ}

/-- The blocks behind are found through `next`. -/
theorem reaches_behind (h : Segment (blockLinks s.blocks) p (blockEntries (current :: behind)) none)
    (hnull : 0 ∉ behind) (ha : a ∈ behind) : s.Reaches current a := by
  induction behind generalizing current p with
  | nil => cases ha
  | cons a' behind ih =>
    obtain ⟨b, hb, hnext, hrest⟩ := segment_cons h
    have hstep : s.Reaches current a' :=
      Relation.ReflTransGen.single ⟨fun heq => hnull (by simp [heq]), b, hb,
        Or.inl (iterOf_eq_some hnext)⟩
    rcases List.mem_cons.mp ha with rfl | ha
    · exact hstep
    · exact hstep.trans (ih hrest (fun hzero => hnull (List.mem_cons_of_mem _ hzero)) ha)

/-- The blocks before are found through `prev`. -/
theorem reaches_before
    (h : Segment (blockLinks s.blocks) none (blockEntries (before ++ [current])) q)
    (hnull : 0 ∉ before) (ha : a ∈ before) : s.Reaches current a := by
  induction before using List.reverseRecOn generalizing current q with
  | nil => cases ha
  | append_singleton before a' ih =>
    obtain ⟨b, hb, hprev, hfront⟩ := segment_concat h
    rw [List.getLast?_concat] at hprev
    have hstep : s.Reaches current a' :=
      Relation.ReflTransGen.single ⟨fun heq => hnull (by simp [heq]), b, hb,
        Or.inr (iterOf_eq_some hprev)⟩
    rcases List.mem_append.mp ha with ha | ha
    · exact hstep.trans (ih hfront (fun hzero => hnull (List.mem_append_left _ hzero)) ha)
    · rwa [List.mem_singleton.mp ha]

/-- **Every block is found** from the primary one. -/
theorem AsyncPool.Lined.reaches (h : s.Lined before current behind)
    (ha : a ∈ before ++ current :: behind) : s.Reaches s.primaryBlock.ptr a := by
  rw [h.primary]
  have hnull := h.null
  simp only [List.mem_append, List.mem_cons, not_or] at hnull ha
  rcases ha with ha | rfl | ha
  · exact reaches_before h.upto.1 hnull.1 ha
  · exact Relation.ReflTransGen.refl
  · have hlinked := h.linked
    rw [blockEntries_append] at hlinked
    exact reaches_behind (segment_append.mp hlinked).2 hnull.2.2 ha

end Reaches

/-! ### One call -/

section Call

variable {l : AsyncPoolLayout} {c c' : AsyncPoolClient} {o : AsyncPoolCall} {before behind : List ℕ}
  {current a : ℕ} {released : List ℕ}

/-- The invariant of tidy runs. -/
def AsyncPoolClient.Good (c : AsyncPoolClient) : Prop :=
  c.freed = false ∧ c.pool.Holds [] c.released ∨
    c.freed = true ∧ c.pool.allocated.Perm c.released

/-- **What the invariant means to a client.** -/
theorem AsyncPoolClient.Good.accounted (h : c.Good) : c.Accounted := by
  rcases h with ⟨hfreed, before, current, behind, hlined, hperm⟩ | ⟨hfreed, hperm⟩
  · have hcount : ∀ a, c.pool.allocated.count a =
        c.released.count a + (before ++ current :: behind).count a := by
      intro a
      rw [hperm.count_eq, List.append_nil, List.count_append]
    refine ⟨fun a => ?_, fun _ a ha => ?_, fun hopen => ?_⟩
    · rw [hcount a]
      exact Nat.le_add_right _ _
    · rw [hcount a] at ha
      exact hlined.reaches (List.count_pos_iff.mp (by omega))
    · rw [hfreed] at hopen
      cases hopen
  · refine ⟨fun a => (hperm.count_eq a).ge, fun hopen => ?_, fun _ a => (hperm.count_eq a).symm⟩
    rw [hfreed] at hopen
    cases hopen

/-- Where the primary block stands, its links tell. -/
theorem AsyncPool.Lined.tidy {s : AsyncPool T} (h : s.Lined before current behind) :
    ((∀ b ∈ s.blocks s.primaryBlock.ptr, b.next = 0) ↔ behind = []) ∧
      ((∀ b ∈ s.blocks s.primaryBlock.ptr, b.prev = 0) ↔ before = []) := by
  obtain ⟨b, hb, -, hprev, hnext⟩ := h.block
  rw [h.primary]
  constructor
  · constructor
    · intro hall
      rw [hall b hb] at hnext
      exact List.head?_eq_none_iff.mp hnext.symm
    · rintro rfl b' hb'
      obtain rfl := Option.some_injective _ (hb.symm.trans hb')
      exact iterOf_eq_none hnext
  · constructor
    · intro hall
      rw [hall b hb] at hprev
      exact List.getLast?_eq_none_iff.mp hprev.symm
    · rintro rfl b' hb'
      obtain rfl := Option.some_injective _ (hb.symm.trans hb')
      exact iterOf_eq_none hprev

/-- **Resetting loses the blocks behind the primary one**: they are not released, and the first block
leads nowhere. -/
theorem not_accounted_reset {pool : AsyncPool Unit}
    (hlined : c.pool.Lined before current (a :: behind))
    (hperm : c.pool.allocated.Perm (c.released ++ (before ++ current :: a :: behind)))
    (hreset : vlAsyncPoolReset c.pool = .ok (released, pool)) (hfreed : c.freed = false) :
    ¬ AsyncPoolClient.Accounted
      { c with pool := pool.setHeld () [], released := c.released ++ released } := by
  rw [vlAsyncPoolReset_eq hlined hperm] at hreset
  obtain ⟨rfl, rfl⟩ := Prod.mk.inj (Except.ok.inj hreset)
  have hmem : a ∉ before ++ [current] := hlined.upto.2.2.2 a List.mem_cons_self
  intro h
  have hreach := h.reachable hfreed a ?_
  · -- the walk from the first block ends where it starts
    rcases Relation.ReflTransGen.cases_head hreach with heq | ⟨x, ⟨hx, b, hb, hlink⟩, -⟩
    · exact hmem (heq ▸ firstBlock_mem)
    · have hb : resetBlocks c.pool.blocks (firstBlock before current) (before ++ [current]).tail
          (firstBlock before current) = some b := hb
      rw [resetBlocks, if_pos rfl] at hb
      obtain ⟨b', -, rfl⟩ := Option.map_eq_some_iff.mp hb
      rcases hlink with hlink | hlink
      · exact hx hlink.symm
      · exact hx hlink.symm
  · change (c.released ++ (before ++ [current]).tail.reverse).count a < c.pool.allocated.count a
    have hzero : (before ++ [current]).tail.reverse.count a = 0 :=
      List.count_eq_zero.mpr fun hin => hmem (List.mem_of_mem_tail (List.mem_reverse.mp hin))
    have hpos : 0 < (before ++ current :: a :: behind).count a :=
      List.count_pos_iff.mpr (by simp)
    rw [hperm.count_eq, List.count_append, List.count_append, hzero]
    omega

/-- **Freeing misses the blocks before the primary one**. -/
theorem not_accounted_free {pool : AsyncPool Unit}
    (hlined : c.pool.Lined (a :: before) current behind)
    (hperm : c.pool.allocated.Perm (c.released ++ (a :: before ++ current :: behind)))
    (hfree : vlAsyncPoolFree c.pool = .ok (released, pool)) :
    ¬ AsyncPoolClient.Accounted ⟨pool.setHeld () [], c.released ++ released, true⟩ := by
  rw [vlAsyncPoolFree_eq hlined hperm] at hfree
  obtain ⟨rfl, rfl⟩ := Prod.mk.inj (Except.ok.inj hfree)
  intro h
  have hcount : (c.released ++ current :: behind).count a = c.pool.allocated.count a :=
    h.complete rfl a
  have hnodup := hlined.nodup
  rw [List.cons_append, List.nodup_cons] at hnodup
  have hzero : (current :: behind).count a = 0 :=
    List.count_eq_zero.mpr fun hin => hnodup.1 (List.mem_append_right _ hin)
  rw [hperm.count_eq, List.count_append, List.count_append, List.cons_append,
    List.count_cons_self, hzero] at hcount
  omega

/-- **Every call returns**, and it keeps the accounting exactly if it is tidy. -/
theorem asyncPoolCall_spec (hsize : 0 < l.headerSize) (h : c.pool.Holds [] c.released)
    (hg : (asyncPoolClientMachine l).guard c o) (hfits : o.Fits l c) :
    Returns (asyncPoolCall l c o) fun c' =>
      (o.Tidy c → c'.Good) ∧ (¬ o.Tidy c → ¬ c'.Accounted) := by
  obtain ⟨hfreed, hg⟩ := hg
  cases o with
  | take origin rounds =>
    obtain ⟨hswaps, -, hfree⟩ := hg
    refine (vlAsyncPoolTake_spec h hsize hfree (fun hgrows => (hfits.2 hgrows).1) hswaps).bind
      fun r hr => returns_ok ⟨fun _ => Or.inl ⟨hfreed, hr.setHeld⟩, fun hn => absurd trivial hn⟩
  | ret element rounds =>
    refine (vlAsyncPoolReturn_spec h.setHeld hg.2).bind
      fun r hr => returns_ok ⟨fun _ => Or.inl ⟨hfreed, hr⟩, fun hn => absurd trivial hn⟩
  | clear =>
    refine (vlAsyncPoolClear_spec h).bind
      fun r hr => returns_ok ⟨fun _ => Or.inl ⟨hfreed, hr.setHeld⟩, fun hn => absurd trivial hn⟩
  | reset =>
    obtain ⟨before, current, behind, hlined, hperm⟩ := h
    cases behind with
    | nil =>
      refine (vlAsyncPoolReset_spec hlined hperm).bind fun r hr =>
        returns_ok ⟨fun _ => Or.inl ⟨hfreed, hr.setHeld⟩, fun hn => ?_⟩
      exact absurd (hlined.tidy.1.mpr rfl) hn
    | cons a behind =>
      rw [List.append_nil] at hperm
      have hreset := vlAsyncPoolReset_eq hlined hperm
      rw [asyncPoolCall, hreset]
      refine returns_ok ⟨fun ht => ?_, fun _ => not_accounted_reset hlined hperm hreset hfreed⟩
      exact absurd (hlined.tidy.1.mp ht) (by simp)
  | free =>
    obtain ⟨before, current, behind, hlined, hperm⟩ := h
    rw [List.append_nil] at hperm
    have hfree := vlAsyncPoolFree_eq hlined hperm
    rw [asyncPoolCall, hfree]
    cases before with
    | nil =>
      refine returns_ok ⟨fun _ => Or.inr ⟨rfl, hperm⟩, fun hn => ?_⟩
      exact absurd (hlined.tidy.2.mpr rfl) hn
    | cons a before =>
      refine returns_ok ⟨fun ht => ?_, fun _ => not_accounted_free hlined hperm hfree⟩
      exact absurd (hlined.tidy.2.mp ht) (by simp)

end Call

/-! ### Runs -/

/-- **Every tidy run** keeps the invariant. -/
theorem tidyAsyncPoolRun_good {l : AsyncPoolLayout} (hsize : 0 < l.headerSize)
    {c c' : AsyncPoolClient} {os : List AsyncPoolCall} (h : c.Good)
    (hrun : (tidyAsyncPoolMachine l).Run c os c') : c'.Good := by
  refine hrun.invariant (fun c o c' hc hg hstep => ?_) h
  obtain ⟨hg, hfits, htidy⟩ := hg
  rcases hc with ⟨-, hc⟩ | ⟨hfreed, -⟩
  · exact ((asyncPoolCall_spec hsize hc hg hfits).of_ok hstep).1 htidy
  · exact absurd (hfreed.symm.trans hg.1) (by simp)

/-- **When a pool accounts for its memory.** In every state that tidy calls reach the memory is
accounted for; and the next call, which returns as long as no size wraps, keeps it so exactly if it
is tidy. -/
theorem vlAsyncPool_accounted_iff (elementSize : UInt16) (bits : Fin 16) (origin : ℕ)
    {os : List AsyncPoolCall} {c : AsyncPoolClient}
    (hrun : (tidyAsyncPoolMachine (.init elementSize.toNat (2 ^ bits.val))).Run
      (.init (.init elementSize.toNat (2 ^ bits.val)) origin) os c) :
    c.Accounted ∧ ∀ o, (asyncPoolClientMachine (.init elementSize.toNat (2 ^ bits.val))).guard c o →
      o.Fits (.init elementSize.toNat (2 ^ bits.val)) c →
      Returns (asyncPoolCall (.init elementSize.toNat (2 ^ bits.val)) c o) fun c' =>
        (c'.Accounted ↔ o.Tidy c) := by
  have hsize : 0 < (AsyncPoolLayout.init elementSize.toNat (2 ^ bits.val)).headerSize :=
    AsyncPoolLayout.init_headerSize_pos (Nat.two_pow_pos _)
  have hgood := tidyAsyncPoolRun_good hsize (Or.inl ⟨rfl, AsyncPoolClient.init_holds _ _⟩) hrun
  refine ⟨hgood.accounted, fun o hg hfits => ?_⟩
  rcases hgood with ⟨-, hholds⟩ | ⟨hfreed, -⟩
  · refine (asyncPoolCall_spec hsize hholds hg hfits).mono fun c' ⟨htidy, hnot⟩ => ?_
    exact ⟨fun hacc => by_contra fun hn => hnot hn hacc, fun ht => (htidy ht).accounted⟩
  · exact absurd (hfreed.symm.trans hg.1) (by simp)

/-- Elements of 8 bytes: 17 of them need a second block, and once the pool is cleared the primary
block is the first again. -/
theorem vlAsyncPool_accounted_clear : ∃ c, (tidyAsyncPoolMachine (.init 8 8)).Run
    (.init (.init 8 8) 4096) (.replicate 17 (.take 8192 [true, true]) ++ [.clear]) c ∧
      c.Accounted ∧ Returns (asyncPoolCall (.init 8 8) c .free) AsyncPoolClient.Accounted := by
  obtain ⟨c, hrun, hc⟩ := Machine.exists_run_of_exec (M := tidyAsyncPoolMachine (.init 8 8))
    (s := .init (.init 8 8) 4096)
    (p := fun c => decide ((tidyAsyncPoolMachine (.init 8 8)).guard c .free))
    (show ((tidyAsyncPoolMachine (.init 8 8)).exec _
      (.replicate 17 (.take 8192 [true, true]) ++ [.clear])).any _ = true by decide +kernel)
  obtain ⟨hg, hfits, htidy⟩ := of_decide_eq_true hc
  obtain ⟨hacc, hnext⟩ := vlAsyncPool_accounted_iff 8 3 4096 hrun
  exact ⟨c, hrun, hacc, (hnext .free hg hfits).mono fun c' h => h.mpr htidy⟩

/-- Freed right after those 17 calls, the pool never releases its first block. -/
theorem vlAsyncPool_not_accounted_17 : ∃ c, (asyncPoolClientMachine (.init 8 8)).Run
    (.init (.init 8 8) 4096) (.replicate 17 (.take 8192 [true, true]) ++ [.free]) c ∧
      ¬ c.Accounted := by
  obtain ⟨c, hrun, hc⟩ := Machine.exists_run_of_exec (M := asyncPoolClientMachine (.init 8 8))
    (s := .init (.init 8 8) 4096)
    (p := fun c => c.freed && decide (c.released.count 4112 ≠ c.pool.allocated.count 4112))
    (show ((asyncPoolClientMachine (.init 8 8)).exec _
      (.replicate 17 (.take 8192 [true, true]) ++ [.free])).any _ = true by decide +kernel)
  obtain ⟨hfreed, hcount⟩ := Bool.and_eq_true_iff.mp hc
  exact ⟨c, hrun, fun h => of_decide_eq_true hcount (h.complete hfreed 4112)⟩

end VeritableLasagna
