import VeritableLasagna.AsyncQueue.Steps

/-!
# Steps of the asynchronous queue, one after the other

In runs in which one thread pops at a time (`AsyncQueueOp.served`), the nodes in use stay in their chains
whatever the threads do (`Sound.step`). As far as the pushes are concerned, there are seven kinds of steps
(`AsyncQueue.Moved`): all others change neither the lists of pushes, nor the nodes, nor who has which.
-/

namespace VeritableLasagna

variable {T V : Type}

/-- One thread pops at a time, and its compare-and-swap of `tail` does not fail for no reason. -/
def AsyncQueueOp.served (s : AsyncQueue T V) : AsyncQueueOp T V → Prop
  | .pop _ => ∀ u, (s.pc u).popping = false
  | .fail t => (s.pc t).helping = false
  | _ => True

instance [Fintype T] (s : AsyncQueue T V) : ∀ o : AsyncQueueOp T V, Decidable (o.served s)
  | .pop _ => inferInstanceAs (Decidable (∀ u, (s.pc u).popping = false))
  | .fail t => inferInstanceAs (Decidable ((s.pc t).helping = false))
  | .push _ _ | .clear _ | .take _ _ | .advance _ => inferInstanceAs (Decidable True)

/-- The machine restricted to one pop at a time. -/
def servedAsyncQueueMachine (T V : Type) [DecidableEq T] : Machine (AsyncQueue T V) (AsyncQueueOp T V) :=
  (asyncQueueMachine T V).restrict fun s o => o.served s

instance [DecidableEq T] [Fintype T] (s : AsyncQueue T V) (o : AsyncQueueOp T V) :
    Decidable ((servedAsyncQueueMachine T V).guard s o) :=
  inferInstanceAs (Decidable ((asyncQueueMachine T V).guard s o ∧ o.served s))

namespace AsyncQueuePc

/-- The new dummy, whose value is about to be copied. -/
def hand : AsyncQueuePc V → Option ℕ
  | .copy _ new => some new
  | _ => none

theorem eq_idle {pc : AsyncQueuePc V} (h : pc.isIdle = true) : pc = .idle := by
  cases pc with
  | idle => rfl
  | _ => cases h

theorem exists_eq_take {pc : AsyncQueuePc V} (h : pc.isTake = true) : ∃ value, pc = .take value := by
  cases pc with
  | take value => exact ⟨value, rfl⟩
  | _ => cases h

end AsyncQueuePc

namespace AsyncQueue

variable {s s' : AsyncQueue T V} {queue queue' : List ℕ} {own own' : T → List ℕ} {t : T}

/-- The push a node was handed out for, and the value in the node. -/
def entry (s : AsyncQueue T V) (n : ℕ) : ℕ × V := (s.stamp n, s.value n)

/-- The push that a thread is to link, and its value, which is in its node or about to be copied there. -/
def load (s : AsyncQueue T V) : AsyncQueuePc V → Option (ℕ × V)
  | .fill node value => some (s.stamp node, value)
  | .clear node | .pushTail node | .pushNext node _ | .link node _ _ | .catchUp node _ _ =>
    some (s.entry node)
  | _ => none

/-! ### What a step does -/

/-- The part of the state that tells which pushes were called, linked and delivered. -/
structure SameBooks (s s' : AsyncQueue T V) : Prop where
  value : s'.value = s.value
  stamp : s'.stamp = s.stamp
  clock : s'.clock = s.clock
  called : s'.called = s.called
  linked : s'.linked = s.linked
  delivered : s'.delivered = s.delivered

variable [DecidableEq T]

/-- A push has got its node. -/
def handOut (s : AsyncQueue T V) (t : T) (node : ℕ) (value : V) : AsyncQueue T V :=
  { s.setPc t (.fill node value) with
    taken := insert node s.taken
    stamp := Function.update s.stamp node s.clock
    clock := s.clock + 1
    called := s.called ++ [(s.clock, value)] }

/-- A push has filled its node. -/
def fillNode (s : AsyncQueue T V) (t : T) (node : ℕ) (value : V) : AsyncQueue T V :=
  { s.setPc t (.clear node) with value := Function.update s.value node value }

/-- A pop has moved `head` on. -/
def unlinkHead (s : AsyncQueue T V) (t : T) (next : TaggedPtr) : AsyncQueue T V :=
  { s.setPc t (.copy s.head.ptr next.ptr) with head := s.head.next next.ptr }

/-- A pop has copied the value of the new dummy. -/
def copyOut (s : AsyncQueue T V) (t : T) (old new : ℕ) : AsyncQueue T V :=
  { s.setPc t (.giveBack old) with delivered := s.delivered ++ [s.entry new] }

/-- **The steps**, as far as the pushes and their nodes are concerned. -/
inductive Moved (s s' : AsyncQueue T V) (queue : List ℕ) (own : T → List ℕ) : List ℕ → (T → List ℕ) → Prop
  | quiet {t : T} {pc : AsyncQueuePc V} : s'.pc = Function.update s.pc t pc → SameBooks s s' →
      pc.hand = (s.pc t).hand → s.load pc = s.load (s.pc t) → Moved s s' queue own queue own
  | take {t : T} {node : ℕ} {value : V} : s.pc t = .take value → node ∉ s.taken →
      s' = s.handOut t node value → Moved s s' queue own queue (Function.update own t [node])
  | fill {t : T} {node : ℕ} {value : V} : s.pc t = .fill node value → s' = s.fillNode t node value →
      Moved s s' queue own queue own
  | linkQueue {t : T} {node : ℕ} {tail next : TaggedPtr} : s.pc t = .link node tail next →
      s' = s.linkNode t node tail (s.linked ++ [s.entry node]) →
      Moved s s' queue own (queue ++ own t) (Function.update own t [])
  | linkOwn {t u : T} {node : ℕ} {tail next : TaggedPtr} : s.pc t = .link node tail next → u ≠ t →
      (s.pc u).cleared = true → own u ≠ [] →
      s' = s.linkNode t node tail (s.linked ++ [s.entry node]) →
      Moved s s' queue own queue (Function.update (Function.update own u (own u ++ own t)) t [])
  | unlink {t : T} {next : TaggedPtr} : s.pc t = .unlink s.head next → s.links s.head.ptr = next.ptr →
      s' = s.unlinkHead t next → Moved s s' queue own queue.tail own
  | copy {t : T} {old new : ℕ} : s.pc t = .copy old new → s' = s.copyOut t old new →
      Moved s s' queue own queue own

/-- A thread moves on, and nothing else changes but the size. -/
theorem Sound.moved (h : s.Sound queue own) {before pc : AsyncQueuePc V} (hpc : s.pc t = before) {size : ℕ}
    (hprivate : s.Private pc (own t)) (hcleared : before.cleared = true → pc.cleared = true)
    (hretired : pc.retired = none ∨ pc.retired = before.retired)
    (halone : pc.popping = true → ∀ u, u ≠ t → (s.pc u).popping = false) (hok : s.Ok queue own pc)
    (hhand : pc.hand = before.hand) (hload : s.load pc = s.load before) :
    ∃ queue' own', ({ s.setPc t pc with size := size } : AsyncQueue T V).Sound queue' own' ∧
      Moved s ({ s.setPc t pc with size := size } : AsyncQueue T V) queue own queue' own' := by
  subst hpc
  refine ⟨queue, own, h.move pc hprivate hcleared (fun n hn => ?_) halone hok,
    .quiet rfl ⟨rfl, rfl, rfl, rfl, rfl, rfl⟩ hhand hload⟩
  rcases hretired with hnone | hsame
  · rw [hnone] at hn
    cases hn
  · rwa [← hsame]

omit [DecidableEq T] in
theorem pc_swapTail {tail : TaggedPtr} {node : ℕ} : (s.swapTail tail node).pc = s.pc := by
  rw [swapTail]
  split_ifs <;> rfl

omit [DecidableEq T] in
theorem links_swapTail {tail : TaggedPtr} {node : ℕ} : (s.swapTail tail node).links = s.links := by
  rw [swapTail]
  split_ifs <;> rfl

omit [DecidableEq T] in
theorem head_swapTail {tail : TaggedPtr} {node : ℕ} : (s.swapTail tail node).head = s.head := by
  rw [swapTail]
  split_ifs <;> rfl

omit [DecidableEq T] in
theorem sameBooks_swapTail {tail : TaggedPtr} {node : ℕ} : SameBooks s (s.swapTail tail node) := by
  rw [swapTail]
  split_ifs
  · exact ⟨rfl, rfl, rfl, rfl, rfl, rfl⟩
  · exact ⟨rfl, rfl, rfl, rfl, rfl, rfl⟩

theorem pc_setPc_swapTail {tail : TaggedPtr} {node : ℕ} {pc : AsyncQueuePc V} :
    ((s.swapTail tail node).setPc t pc).pc = Function.update s.pc t pc := by
  rw [setPc, pc_swapTail]

/-- A thread swings `tail` on, or finds it changed, and moves on. -/
theorem Sound.movedTail (h : s.Sound queue own) {tail : TaggedPtr} {node : ℕ} (hahead : s.Ahead tail node)
    {before pc : AsyncQueuePc V} (hpc : s.pc t = before)
    (hprivate : (s.swapTail tail node).Private pc (own t))
    (hcleared : before.cleared = true → pc.cleared = true) (hretired : pc.retired = none)
    (halone : pc.popping = true → ∀ u, u ≠ t → (s.pc u).popping = false)
    (hok : (s.swapTail tail node).Ok queue own pc) (hhand : pc.hand = before.hand)
    (hload : s.load pc = s.load before) :
    ∃ queue' own', ((s.swapTail tail node).setPc t pc).Sound queue' own' ∧
      Moved s ((s.swapTail tail node).setPc t pc) queue own queue' own' := by
  subst hpc
  obtain ⟨hvalue, hstamp, hclock, hcalled, hlinked, hdelivered⟩ : SameBooks s (s.swapTail tail node) :=
    sameBooks_swapTail
  refine ⟨queue, own, (h.swapTail hahead).move pc hprivate ?_ (fun n hn => ?_) ?_ hok,
    .quiet pc_setPc_swapTail ⟨hvalue, hstamp, hclock, hcalled, hlinked, hdelivered⟩ hhand hload⟩
  · rwa [pc_swapTail]
  · rw [hretired] at hn
    cases hn
  · rwa [pc_swapTail]

/-- **The next access of a thread.** -/
theorem Sound.advance (h : s.Sound queue own) (t : T) : ∃ queue' own',
    (asyncQueueAdvance s t).Sound queue' own' ∧ Moved s (asyncQueueAdvance s t) queue own queue' own' := by
  have hprivate := h.isPrivate t
  have hok := h.ok t
  have halone : (s.pc t).popping = true → ∀ u, u ≠ t → (s.pc u).popping = false := h.alone_of_popping
  rw [asyncQueueAdvance]
  cases hpc : s.pc t with
  | idle =>
    exact ⟨queue, own, h, .quiet (Function.update_eq_self t s.pc).symm ⟨rfl, rfl, rfl, rfl, rfl, rfl⟩ rfl rfl⟩
  | take value =>
    exact ⟨queue, own, h, .quiet (Function.update_eq_self t s.pc).symm ⟨rfl, rfl, rfl, rfl, rfl, rfl⟩ rfl rfl⟩
  | fill node value =>
    rw [hpc] at hprivate
    refine ⟨queue, own, h.move (.clear node) hprivate ?_ ?_ ?_ trivial, .fill hpc rfl⟩
    · rw [hpc]
      exact fun hcleared => by cases hcleared
    · exact fun n hn => by cases hn
    · exact fun hpop => by cases hpop
  | clear node =>
    exact ⟨queue, own, h.clear hpc, .quiet rfl ⟨rfl, rfl, rfl, rfl, rfl, rfl⟩ (by rw [hpc]; rfl)
      (by rw [hpc]; rfl)⟩
  | pushTail node =>
    rw [hpc] at hprivate
    obtain ⟨hne, hchain⟩ := hprivate
    have hstamp := (h.stamps node (h.owned t node (hchain.start_mem hne)).1).2
    have hseen : s.Seen queue own node s.tail := ⟨s.clock, hstamp, le_rfl,
      fun u hu => absurd h.tail (h.owned u _ hu).2, fun _ => Or.inl h.tail⟩
    exact h.moved hpc ⟨hne, hchain⟩ (fun _ => rfl) (Or.inl rfl) (fun hpop => by cases hpop)
      ⟨hseen, le_rfl⟩ rfl rfl
  | pushNext node tail =>
    rw [hpc] at hprivate hok
    dsimp only
    split_ifs with hnull
    · exact h.moved hpc hprivate (fun _ => rfl) (Or.inl rfl) (fun hpop => by cases hpop)
        ⟨hok.1, hok.2, hnull⟩ rfl rfl
    · exact h.moved hpc hprivate (fun _ => rfl) (Or.inl rfl) (fun hpop => by cases hpop)
        ⟨hok.2, fun _ => ⟨rfl, hnull⟩⟩ rfl rfl
  | link node tail next =>
    rw [hpc] at hprivate hok
    dsimp only
    split_ifs with hswap
    · obtain ⟨⟨k, -, -, -, hend⟩, -, hnull⟩ := hok
      subst hswap
      rcases hend hnull with hqueue | ⟨u, hu, hcleared⟩
      · exact ⟨_, _, h.link_queue hpc hnull hqueue, .linkQueue hpc rfl⟩
      · obtain ⟨hut, hsound⟩ := h.link_own hpc hnull hu hcleared
        exact ⟨_, _, hsound, .linkOwn hpc hut hcleared (List.ne_nil_of_mem hu) rfl⟩
    · exact h.moved hpc hprivate (fun _ => rfl) (Or.inl rfl) (fun hpop => by cases hpop) trivial rfl rfl
  | swing node tail =>
    rw [hpc] at hprivate hok
    exact h.movedTail hok hpc hprivate (fun hc => by cases hc) rfl (fun hpop => by cases hpop) trivial rfl rfl
  | grow =>
    rw [hpc] at hprivate
    exact h.moved hpc hprivate (fun hc => by cases hc) (Or.inl rfl) (fun hpop => by cases hpop) trivial rfl
      rfl
  | catchUp node tail next =>
    rw [hpc] at hprivate hok
    obtain ⟨hne, hchain⟩ := hprivate
    refine h.movedTail hok hpc ⟨hne, ?_⟩ (fun _ => rfl) rfl (fun hpop => by cases hpop) trivial rfl rfl
    rwa [links_swapTail]
  | popHead =>
    rw [hpc] at hprivate halone
    exact h.moved hpc hprivate (fun hc => by cases hc) (Or.inl rfl) (fun _ => halone rfl) rfl rfl rfl
  | popTail head =>
    rw [hpc] at hprivate halone hok
    exact h.moved hpc hprivate (fun hc => by cases hc) (Or.inl rfl) (fun _ => halone rfl)
      ⟨⟨hok, Or.inl rfl⟩, le_rfl⟩ rfl rfl
  | popNext head tail =>
    rw [hpc] at hprivate halone hok
    obtain ⟨⟨hhead, hleft⟩, htag⟩ := hok
    dsimp only
    split_ifs with hnull hat
    · exact h.moved hpc hprivate (fun hc => by cases hc) (Or.inl rfl) (fun hpop => by cases hpop) trivial rfl
        rfl
    · exact h.moved hpc hprivate (fun hc => by cases hc) (Or.inl rfl) (fun _ => halone rfl)
        ⟨⟨hhead, hleft⟩, htag, hat, rfl, hnull⟩ rfl rfl
    · have hbehind : s.tail.ptr ≠ head.ptr := by
        rcases hleft with rfl | hne
        · exact Ne.symm hat
        · exact hne
      exact h.moved hpc hprivate (fun hc => by cases hc) (Or.inl rfl) (fun _ => halone rfl)
        ⟨hhead, hbehind, rfl, hnull⟩ rfl rfl
  | help head tail next =>
    rw [hpc] at hprivate halone hok
    obtain ⟨⟨rfl, hleft⟩, htag, hat, hlinks, hne⟩ := hok
    have hahead : s.Ahead tail next.ptr := ⟨htag, fun _ => ⟨hat ▸ hlinks, hne⟩⟩
    have hbehind : (s.swapTail tail next.ptr).tail.ptr ≠ s.head.ptr := by
      rw [AsyncQueue.swapTail]
      split_ifs with hswap
      · change next.ptr ≠ s.head.ptr
        rw [← hlinks]
        exact h.chain.next_ne h.head_mem
      · exact hleft.resolve_left hswap
    refine h.movedTail hahead hpc hprivate (fun hc => by cases hc) rfl (fun _ => halone rfl)
      ⟨head_swapTail, hbehind, ?_, hne⟩ rfl rfl
    rwa [links_swapTail]
  | unlink head next =>
    rw [hpc] at hok
    obtain ⟨rfl, -, hlinks, -⟩ := hok
    dsimp only
    rw [if_pos rfl]
    exact ⟨_, _, h.unlink hpc, .unlink hpc hlinks rfl⟩
  | copy old new =>
    rw [hpc] at hprivate halone
    refine ⟨queue, own, h.move (.giveBack old) hprivate ?_ ?_ (fun _ => halone rfl) trivial, .copy hpc rfl⟩
    · rw [hpc]
      exact fun hcleared => by cases hcleared
    · rw [hpc]
      exact fun n hn => hn
  | giveBack old =>
    exact ⟨queue, own, h.giveBack hpc, .quiet rfl ⟨rfl, rfl, rfl, rfl, rfl, rfl⟩ (by rw [hpc]; rfl)
      (by rw [hpc]; rfl)⟩
  | shrink =>
    rw [hpc] at hprivate
    exact h.moved hpc hprivate (fun hc => by cases hc) (Or.inl rfl) (fun hpop => by cases hpop) trivial rfl
      rfl

/-- **A compare-and-swap fails for no reason**, other than that by which a pop helps `tail` on. -/
theorem Sound.fail (h : s.Sound queue own) {pc : AsyncQueuePc V} (hpc : (s.pc t).failed = some pc)
    (hhelp : (s.pc t).helping = false) : ∃ queue' own',
    (s.setPc t pc).Sound queue' own' ∧ Moved s (s.setPc t pc) queue own queue' own' := by
  have hprivate := h.isPrivate t
  have halone : (s.pc t).popping = true → ∀ u, u ≠ t → (s.pc u).popping = false := h.alone_of_popping
  cases hat : s.pc t with
  | link node tail next =>
    rw [hat] at hpc hprivate
    obtain rfl := Option.some.inj hpc
    exact h.moved hat hprivate (fun _ => rfl) (Or.inl rfl) (fun hpop => by cases hpop) trivial rfl rfl
  | catchUp node tail next =>
    rw [hat] at hpc hprivate
    obtain rfl := Option.some.inj hpc
    exact h.moved hat hprivate (fun _ => rfl) (Or.inl rfl) (fun hpop => by cases hpop) trivial rfl rfl
  | swing node tail =>
    rw [hat] at hpc hprivate
    obtain rfl := Option.some.inj hpc
    exact h.moved hat hprivate (fun hc => by cases hc) (Or.inl rfl) (fun hpop => by cases hpop) trivial rfl
      rfl
  | unlink head next =>
    rw [hat] at hpc hprivate halone
    obtain rfl := Option.some.inj hpc
    exact h.moved hat hprivate (fun hc => by cases hc) (Or.inl rfl) (fun _ => halone rfl) trivial rfl rfl
  | help _ _ _ =>
    rw [hat] at hhelp
    cases hhelp
  | _ =>
    rw [hat] at hpc
    cases hpc

/-- **A step**, other than the removal of everything: what it does, and that the nodes in use remain in
their chains. -/
theorem Sound.step (h : s.Sound queue own) {o : AsyncQueueOp T V}
    (hguard : (servedAsyncQueueMachine T V).guard s o) (hclear : ∀ dummy, o ≠ .clear dummy) :
    ∃ queue' own', (asyncQueueStep s o).Sound queue' own' ∧
      Moved s (asyncQueueStep s o) queue own queue' own' := by
  obtain ⟨hcall, hserved⟩ := hguard
  cases o with
  | push t value =>
    have hidle : s.pc t = .idle := AsyncQueuePc.eq_idle hcall
    have hprivate : own t = [] := h.private_of hidle
    exact h.moved hidle hprivate (fun hc => by cases hc) (Or.inl rfl) (fun hpop => by cases hpop) trivial rfl
      rfl
  | pop t =>
    have hidle : s.pc t = .idle := AsyncQueuePc.eq_idle hcall
    have hprivate : own t = [] := h.private_of hidle
    exact h.moved hidle hprivate (fun hc => by cases hc) (Or.inl rfl) (fun _ u _ => hserved u) trivial rfl
      rfl
  | clear dummy => exact absurd rfl (hclear dummy)
  | take t node =>
    obtain ⟨htake, hne, hfresh⟩ := hcall
    obtain ⟨value, hpc⟩ := AsyncQueuePc.exists_eq_take htake
    change ∃ queue' own', (asyncQueueTake s t node).Sound queue' own' ∧
      Moved s (asyncQueueTake s t node) queue own queue' own'
    rw [asyncQueueTake, hpc]
    exact ⟨_, _, h.take hpc hne hfresh, .take hpc hfresh rfl⟩
  | advance t => exact h.advance t
  | fail t =>
    obtain ⟨pc, hpc⟩ := Option.isSome_iff_exists.mp hcall
    change ∃ queue' own', (s.setPc t ((s.pc t).failed.getD (s.pc t))).Sound queue' own' ∧
      Moved s (s.setPc t ((s.pc t).failed.getD (s.pc t))) queue own queue' own'
    rw [hpc]
    exact h.fail hpc hserved

omit [DecidableEq T] in
/-- **An empty queue** is its dummy. -/
theorem sound_init {dummy : ℕ} (hne : dummy ≠ 0) (next : ℕ → TaggedPtr) (value : ℕ → V) :
    (init dummy next value : AsyncQueue T V).Sound [dummy] fun _ => [] := by
  refine ⟨⟨rfl, hne, ?_⟩, List.mem_singleton_self _,
    fun n hn => Finset.mem_singleton.mpr (List.mem_singleton.mp hn), fun _ n hn => (by cases hn),
    fun _ _ n hn => (by cases hn), fun _ => rfl, fun _ => List.Pairwise.nil,
    fun n hn => ⟨?_, Nat.zero_lt_one⟩, fun m hm n hn _ => ?_, fun _ n hn => (by cases hn),
    fun _ _ hpop => (by cases hpop), fun _ => trivial⟩
  · change (Function.update next dummy ⟨0, 0⟩ dummy).ptr = 0
    rw [Function.update_self]
  · rwa [Finset.mem_singleton.mp hn]
  · rw [Finset.mem_singleton.mp hm, Finset.mem_singleton.mp hn]

end AsyncQueue

end VeritableLasagna
