import VeritableLasagna.AsyncQueue.Runs

/-!
# The order of the asynchronous queue

When pushes do not overlap, and one thread pops at a time, the queue is a FIFO: the values are delivered in
the order in which the pushes were called, and a pop that finds the queue empty has not overlooked any
(`vlAsyncQueue_fifo`). This is the case of one producer and one consumer, but also that of several which
call one after the other. The push that is going on is the only one with a node of its own, so every node
that is linked is put behind the last one of the queue.
-/

namespace VeritableLasagna

variable {T V : Type}

/-- Pushes do not overlap. -/
def AsyncQueueOp.apart (s : AsyncQueue T V) : AsyncQueueOp T V → Prop
  | .push _ _ => ∀ u, (s.pc u).pushing = false
  | _ => True

instance [Fintype T] (s : AsyncQueue T V) : ∀ o : AsyncQueueOp T V, Decidable (o.apart s)
  | .push _ _ => inferInstanceAs (Decidable (∀ u, (s.pc u).pushing = false))
  | .pop _ | .fail _ | .clear _ | .take _ _ | .advance _ => inferInstanceAs (Decidable True)

/-- The machine restricted to one push and one pop at a time. -/
def fifoAsyncQueueMachine (T V : Type) [DecidableEq T] : Machine (AsyncQueue T V) (AsyncQueueOp T V) :=
  (servedAsyncQueueMachine T V).restrict fun s o => o.apart s

instance [DecidableEq T] [Fintype T] (s : AsyncQueue T V) (o : AsyncQueueOp T V) :
    Decidable ((fifoAsyncQueueMachine T V).guard s o) :=
  inferInstanceAs (Decidable ((servedAsyncQueueMachine T V).guard s o ∧ o.apart s))

theorem AsyncQueuePc.pushing_of_cleared {pc : AsyncQueuePc V} (h : pc.cleared = true) :
    pc.pushing = true := by
  cases pc with
  | pushTail _ | pushNext _ _ | link _ _ _ | catchUp _ _ _ => rfl
  | _ => cases h

theorem AsyncQueuePc.pushing_of_failed {pc before : AsyncQueuePc V} (h : before.failed = some pc)
    (hpc : pc.pushing = true) : before.pushing = true := by
  cases before with
  | link _ _ _ | catchUp _ _ _ | swing _ _ => rfl
  | help _ _ _ | unlink _ _ =>
    obtain rfl := Option.some.inj h
    cases hpc
  | _ => cases h

namespace AsyncQueue

variable {s s' : AsyncQueue T V} {queue queue' : List ℕ} {own own' : T → List ℕ} {t : T} {n node : ℕ}
  {e : ℕ × V}

/-- The nodes to be delivered, in order: those behind the dummy, and the dummy itself while a pop is about to
copy its value. -/
def Waiting (s : AsyncQueue T V) (queue l : List ℕ) : Prop :=
  (∀ t, (s.pc t).hand = none) ∧ l = queue.tail ∨ (∃ t n, n ∈ (s.pc t).hand) ∧ l = queue

/-- **The order**: what is delivered, what waits, and the push that is going on. -/
structure Ordered (s : AsyncQueue T V) (queue : List ℕ) (own : T → List ℕ) : Prop where
  apart : ∀ t u, (s.pc t).pushing = true → (s.pc u).pushing = true → t = u
  alone : ∀ t, (own t).tail = []
  waiting : ∃ l, s.Waiting queue l ∧ s.linked = s.delivered ++ l.map s.entry
  called : s.called = s.linked ∨ ∃ t, ∃ e ∈ s.load (s.pc t), s.called = s.linked ++ [e]

theorem pushing_of_load {pc : AsyncQueuePc V} (h : e ∈ s.load pc) : pc.pushing = true := by
  cases pc with
  | fill _ _ | clear _ | pushTail _ | pushNext _ _ | link _ _ _ | catchUp _ _ _ => rfl
  | _ => cases h

variable [DecidableEq T]

/-- **A thread moves on**: it is in a push only if it was in one. -/
theorem exists_pc_advance (s : AsyncQueue T V) (t : T) : ∃ pc,
    (asyncQueueAdvance s t).pc = Function.update s.pc t pc ∧
      (pc.pushing = true → (s.pc t).pushing = true) := by
  rw [asyncQueueAdvance]
  cases hpc : s.pc t with
  | idle => exact ⟨s.pc t, (Function.update_eq_self t s.pc).symm, fun h => by rwa [hpc] at h⟩
  | take value => exact ⟨s.pc t, (Function.update_eq_self t s.pc).symm, fun _ => rfl⟩
  | fill node value => exact ⟨.clear node, rfl, fun _ => rfl⟩
  | clear node => exact ⟨.pushTail node, rfl, fun _ => rfl⟩
  | pushTail node => exact ⟨.pushNext node s.tail, rfl, fun _ => rfl⟩
  | pushNext node tail => exact ⟨_, rfl, fun _ => rfl⟩
  | link node tail next =>
    dsimp only
    split_ifs
    · exact ⟨.swing node tail, rfl, fun _ => rfl⟩
    · exact ⟨.pushTail node, rfl, fun _ => rfl⟩
  | swing node tail => exact ⟨.grow, pc_setPc_swapTail, fun _ => rfl⟩
  | grow => exact ⟨.idle, rfl, fun h => by cases h⟩
  | catchUp node tail next => exact ⟨.pushTail node, pc_setPc_swapTail, fun _ => rfl⟩
  | popHead => exact ⟨.popTail s.head, rfl, fun h => by cases h⟩
  | popTail head => exact ⟨.popNext head s.tail, rfl, fun h => by cases h⟩
  | popNext head tail =>
    dsimp only
    split_ifs
    · exact ⟨.idle, rfl, fun h => by cases h⟩
    · exact ⟨.help head tail (s.next head.ptr), rfl, fun h => by cases h⟩
    · exact ⟨.unlink head (s.next head.ptr), rfl, fun h => by cases h⟩
  | help head tail next => exact ⟨.unlink head next, pc_setPc_swapTail, fun h => by cases h⟩
  | unlink head next =>
    dsimp only
    split_ifs
    · exact ⟨.copy head.ptr next.ptr, rfl, fun h => by cases h⟩
    · exact ⟨.popHead, rfl, fun h => by cases h⟩
  | copy old new => exact ⟨.giveBack old, rfl, fun h => by cases h⟩
  | giveBack old => exact ⟨.shrink, rfl, fun h => by cases h⟩
  | shrink => exact ⟨.idle, rfl, fun h => by cases h⟩

/-- One push at a time, also after a thread has moved on. -/
theorem apart_update (h : ∀ t u, (s.pc t).pushing = true → (s.pc u).pushing = true → t = u)
    {pc : AsyncQueuePc V} (hpcs : s'.pc = Function.update s.pc t pc)
    (hpc : pc.pushing = true → (s.pc t).pushing = true ∨ ∀ u, (s.pc u).pushing = false) (u v : T)
    (hu : (s'.pc u).pushing = true) (hv : (s'.pc v).pushing = true) : u = v := by
  rw [hpcs] at hu hv
  -- Only the thread that moves can have begun a push.
  by_cases hut : u = t
  · by_cases hvt : v = t
    · rw [hut, hvt]
    · rw [hut, Function.update_self] at hu
      rw [Function.update_of_ne hvt] at hv
      rcases hpc hu with hold | hnone
      · exact absurd (h v t hv hold) hvt
      · rw [hnone v] at hv
        cases hv
  · rw [Function.update_of_ne hut] at hu
    by_cases hvt : v = t
    · rw [hvt, Function.update_self] at hv
      rcases hpc hv with hold | hnone
      · exact absurd (h u t hu hold) hut
      · rw [hnone u] at hu
        cases hu
    · rw [Function.update_of_ne hvt] at hv
      exact h u v hu hv

/-- **Pushes stay apart.** -/
theorem apart_step (h : ∀ t u, (s.pc t).pushing = true → (s.pc u).pushing = true → t = u)
    {o : AsyncQueueOp T V} (hguard : (fifoAsyncQueueMachine T V).guard s o) (u v : T)
    (hu : ((asyncQueueStep s o).pc u).pushing = true) (hv : ((asyncQueueStep s o).pc v).pushing = true) :
    u = v := by
  obtain ⟨⟨hcall, -⟩, hapart⟩ := hguard
  cases o with
  | push t value => exact apart_update h rfl (fun _ => Or.inr hapart) u v hu hv
  | pop t => exact apart_update h rfl (fun hp => by cases hp) u v hu hv
  | clear dummy => cases hu
  | take t node =>
    obtain ⟨value, hpc⟩ := AsyncQueuePc.exists_eq_take hcall.1
    have hpcs : (asyncQueueTake s t node).pc = Function.update s.pc t (.fill node value) := by
      rw [asyncQueueTake, hpc]
      rfl
    exact apart_update h hpcs (fun _ => Or.inl (by rw [hpc]; rfl)) u v hu hv
  | advance t =>
    obtain ⟨pc, hpcs, hpc⟩ := exists_pc_advance s t
    exact apart_update h hpcs (fun hp => Or.inl (hpc hp)) u v hu hv
  | fail t =>
    obtain ⟨pc, hpc⟩ := Option.isSome_iff_exists.mp hcall
    refine apart_update h rfl (fun hp => Or.inl ?_) u v hu hv
    rw [hpc] at hp
    exact AsyncQueuePc.pushing_of_failed hpc hp

/-! ### The order after each step -/

omit [DecidableEq T] in
theorem Waiting.congr {l : List ℕ} (h : s.Waiting queue l) (hhand : ∀ u, (s'.pc u).hand = (s.pc u).hand) :
    s'.Waiting queue l := by
  simp only [Waiting, hhand]
  exact h

omit [DecidableEq T] in
theorem Waiting.mem_queue {l : List ℕ} (h : s.Waiting queue l) (hn : n ∈ l) : n ∈ queue := by
  rcases h with ⟨-, rfl⟩ | ⟨-, rfl⟩
  · exact List.mem_of_mem_tail hn
  · exact hn

omit [DecidableEq T] in
/-- What waits goes on to wait, when the nodes of the queue stay as they are. -/
theorem Ordered.waiting_congr (h : s.Ordered queue own) (hhand : ∀ u, (s'.pc u).hand = (s.pc u).hand)
    (hentry : ∀ n ∈ queue, s'.entry n = s.entry n) (hlinked : s'.linked = s.linked)
    (hdelivered : s'.delivered = s.delivered) :
    ∃ l, s'.Waiting queue l ∧ s'.linked = s'.delivered ++ l.map s'.entry := by
  obtain ⟨l, hl, horder⟩ := h.waiting
  refine ⟨l, hl.congr hhand, ?_⟩
  rw [hlinked, hdelivered, List.map_congr_left fun n hn => hentry n (hl.mem_queue hn)]
  exact horder

/-- **A push gets its node**: no other one is going on. -/
theorem Ordered.take (h : s.Ordered queue own) (hs : s.Sound queue own) {value : V}
    (hpc : s.pc t = .take value) (hfresh : node ∉ s.taken)
    (hapart : ∀ u v, ((s.handOut t node value).pc u).pushing = true →
      ((s.handOut t node value).pc v).pushing = true → u = v) :
    (s.handOut t node value).Ordered queue (Function.update own t [node]) := by
  have hhand : ∀ u, ((s.handOut t node value).pc u).hand = (s.pc u).hand :=
    hand_update rfl (show _ = (s.pc t).hand by rw [hpc]; rfl)
  refine ⟨hapart, ?_, h.waiting_congr hhand (fun n hn => entry_handOut_taken hfresh (hs.queued n hn)) rfl rfl,
    Or.inr ⟨t, (s.clock, value), ?_, ?_⟩⟩
  · exact (Function.forall_update_iff own fun _ l => l.tail = []).mpr ⟨rfl, fun u _ => h.alone u⟩
  · change _ ∈ AsyncQueue.load _ (Function.update s.pc t (.fill node value) t)
    rw [Function.update_self]
    change some (Function.update s.stamp node s.clock node, value) = some (s.clock, value)
    rw [Function.update_self]
  · -- No value is on its way: the thread it belongs to would be in a push, too.
    have hcalled : s.called = s.linked := by
      refine h.called.resolve_right ?_
      rintro ⟨u, e, he, -⟩
      obtain rfl := h.apart u t (pushing_of_load he) (by rw [hpc]; rfl)
      rw [hpc] at he
      cases he
    change s.called ++ [(s.clock, value)] = s.linked ++ [(s.clock, value)]
    rw [hcalled]

/-- **A push fills its node**, which is not in the queue. -/
theorem Ordered.fill (h : s.Ordered queue own) (hs : s.Sound queue own) {value : V}
    (hpc : s.pc t = .fill node value)
    (hapart : ∀ u v, ((s.fillNode t node value).pc u).pushing = true →
      ((s.fillNode t node value).pc v).pushing = true → u = v) :
    (s.fillNode t node value).Ordered queue own := by
  have hown : own t = [node] := hs.private_of hpc
  have hhand : ∀ u, ((s.fillNode t node value).pc u).hand = (s.pc u).hand :=
    hand_update rfl (show _ = (s.pc t).hand by rw [hpc]; rfl)
  have hentry : ∀ n ∈ queue, (s.fillNode t node value).entry n = s.entry n := by
    intro n hn
    refine entry_fillNode ?_
    rintro rfl
    exact (hs.owned t n (hown ▸ List.mem_singleton_self n)).2 hn
  refine ⟨hapart, h.alone, h.waiting_congr hhand hentry rfl rfl, h.called.imp_right ?_⟩
  rintro ⟨u, e, he, hcalled⟩
  exact ⟨u, e, (hs.load_fillNode hpc u).symm ▸ he, hcalled⟩

/-- **A push links its node**, which is the only one that is not linked, behind the queue. -/
theorem Ordered.link (h : s.Ordered queue own) (hs : s.Sound queue own) (hbooks : s.Books queue own)
    {tail next : TaggedPtr} (hpc : s.pc t = .link node tail next)
    (hs' : s' = s.linkNode t node tail (s.linked ++ [s.entry node]))
    (hapart : ∀ u v, (s'.pc u).pushing = true → (s'.pc v).pushing = true → u = v) :
    s'.Ordered (queue ++ own t) (Function.update own t []) := by
  obtain ⟨hne, hchain⟩ : node ≠ 0 ∧ Chain s.links node (own t) := hs.private_of hpc
  obtain ⟨rest, hown, -⟩ := hchain.exists_cons hne
  have halone := h.alone t
  rw [hown] at halone
  obtain rfl : rest = [] := halone
  have hhand : ∀ u, (s'.pc u).hand = (s.pc u).hand :=
    hand_update (by rw [hs']; rfl) (show (AsyncQueuePc.swing node tail).hand = _ by rw [hpc]; rfl)
  have hload : s.load (s.pc t) = some (s.entry node) := by rw [hpc]; rfl
  refine ⟨hapart, ?_, ?_, Or.inl ?_⟩
  · exact (Function.forall_update_iff own fun _ l => l.tail = []).mpr ⟨rfl, fun u _ => h.alone u⟩
  · obtain ⟨l, hl, horder⟩ := h.waiting
    refine ⟨l ++ [node], ?_, ?_⟩
    · rw [hown]
      simp only [Waiting, hhand, List.tail_append_of_ne_nil (List.ne_nil_of_mem hs.head_mem)]
      exact hl.imp (And.imp_right (congrArg (· ++ [node]))) (And.imp_right (congrArg (· ++ [node])))
    · rw [hs', List.map_append, ← List.append_assoc]
      exact congrArg (· ++ [s.entry node]) horder
  · -- The value that is linked is the one that was called last.
    have hnot : s.called ≠ s.linked := by
      intro heq
      have hoffered : s.entry node ∈ s.loads := ⟨t, hload⟩
      have hcalled := (hbooks.ledger.mem_submitted _).mpr (Or.inr hoffered)
      exact hbooks.ledger.not_accepted _ hoffered (heq ▸ hcalled)
    obtain ⟨u, e, he, hcalled⟩ := h.called.resolve_left hnot
    obtain rfl := h.apart u t (pushing_of_load he) (pushing_of_load hload)
    rw [hload] at he
    obtain rfl := Option.some.inj he
    rw [hs']
    exact hcalled

/-- **A pop moves `head` on.** -/
theorem Ordered.unlink (h : s.Ordered queue own) (hs : s.Sound queue own) {next : TaggedPtr}
    (hpc : s.pc t = .unlink s.head next)
    (hapart : ∀ u v, ((s.unlinkHead t next).pc u).pushing = true →
      ((s.unlinkHead t next).pc v).pushing = true → u = v) :
    (s.unlinkHead t next).Ordered queue.tail own := by
  have hpop : (s.pc t).popping = true := by rw [hpc]; rfl
  refine ⟨hapart, h.alone, ?_, h.called.imp_right ?_⟩
  · obtain ⟨l, hl | ⟨⟨u, n, hn⟩, -⟩, horder⟩ := h.waiting
    · refine ⟨l, Or.inr ⟨⟨t, next.ptr, ?_⟩, hl.2⟩, horder⟩
      change next.ptr ∈ (Function.update s.pc t (.copy s.head.ptr next.ptr) t).hand
      rw [Function.update_self]
      rfl
    · -- Nobody else is between the two accesses of a pop.
      obtain rfl := hs.alone u t (popping_of_hand hn) hpop
      rw [hpc] at hn
      cases hn
  · rintro ⟨u, e, he, hcalled⟩
    exact ⟨u, e, (load_unlinkHead hpc u).symm ▸ he, hcalled⟩

/-- **A pop copies the value** of the new dummy, which was the next to be delivered. -/
theorem Ordered.copy (h : s.Ordered queue own) (hs : s.Sound queue own) {old new : ℕ}
    (hpc : s.pc t = .copy old new)
    (hapart : ∀ u v, ((s.copyOut t old new).pc u).pushing = true →
      ((s.copyOut t old new).pc v).pushing = true → u = v) :
    (s.copyOut t old new).Ordered queue own := by
  have hnew : new ∈ (s.pc t).hand := by rw [hpc]; rfl
  have hpop : (s.pc t).popping = true := by rw [hpc]; rfl
  obtain ⟨rest, hqueue, -⟩ := hs.chain.exists_cons (hs.stamps _ (hs.queued _ hs.head_mem)).1
  rw [hs.hand_eq hnew] at hqueue
  refine ⟨hapart, h.alone, ?_, h.called.imp_right ?_⟩
  · obtain ⟨l, ⟨hnone, -⟩ | ⟨-, rfl⟩, horder⟩ := h.waiting
    · rw [hnone t] at hnew
      cases hnew
    · refine ⟨l.tail, Or.inl ⟨fun u => ?_, rfl⟩, ?_⟩
      · change (Function.update s.pc t (.giveBack old) u).hand = none
        by_cases hut : u = t
        · rw [hut, Function.update_self]
          rfl
        · rw [Function.update_of_ne hut]
          refine Option.eq_none_iff_forall_not_mem.mpr fun n hn => ?_
          exact hut (hs.alone u t (popping_of_hand hn) hpop)
      · change s.linked = s.delivered ++ [s.entry new] ++ l.tail.map s.entry
        rw [horder, hqueue, List.append_assoc]
        rfl
  · rintro ⟨u, e, he, hcalled⟩
    exact ⟨u, e, (load_copyOut hpc u).symm ▸ he, hcalled⟩

/-- **A step keeps the order.** -/
theorem Ordered.moved (h : s.Ordered queue own) (hs : s.Sound queue own) (hbooks : s.Books queue own)
    (hmoved : Moved s s' queue own queue' own')
    (hapart : ∀ u v, (s'.pc u).pushing = true → (s'.pc v).pushing = true → u = v) :
    s'.Ordered queue' own' := by
  cases hmoved with
  | quiet hpcs hsame hhand hload =>
    refine ⟨hapart, h.alone, h.waiting_congr (hand_update hpcs hhand) (fun n _ => hsame.entry_eq n)
      hsame.linked hsame.delivered, ?_⟩
    rw [hsame.called, hsame.linked]
    refine h.called.imp_right ?_
    rintro ⟨u, e, he, hcalled⟩
    exact ⟨u, e, (load_update hpcs hsame.load_eq hload u).symm ▸ he, hcalled⟩
  | take hpc hfresh hs' =>
    subst hs'
    exact h.take hs hpc hfresh hapart
  | fill hpc hs' =>
    subst hs'
    exact h.fill hs hpc hapart
  | linkQueue hpc hs' => exact h.link hs hbooks hpc hs' hapart
  | linkOwn hpc hut hcleared =>
    exact absurd (h.apart _ _ (AsyncQueuePc.pushing_of_cleared hcleared) (by rw [hpc]; rfl)) hut
  | unlink hpc hlinks hs' =>
    subst hs'
    exact h.unlink hs hpc hapart
  | copy hpc hs' =>
    subst hs'
    exact h.copy hs hpc hapart

omit [DecidableEq T] in
theorem ordered_init (dummy : ℕ) (next : ℕ → TaggedPtr) (value : ℕ → V) :
    (init dummy next value : AsyncQueue T V).Ordered [dummy] fun _ => [] :=
  ⟨fun _ _ hp => (by cases hp), fun _ => rfl, ⟨[], Or.inl ⟨fun _ => rfl, rfl⟩, rfl⟩, Or.inl rfl⟩

end AsyncQueue

variable [DecidableEq T]

/-- **Every state a run reaches** has its pushes in order. -/
theorem fifoAsyncQueueRun_ordered {dummy : ℕ} (hne : dummy ≠ 0) {next : ℕ → TaggedPtr} {value : ℕ → V}
    {os : List (AsyncQueueOp T V)} {s : AsyncQueue T V}
    (hrun : (fifoAsyncQueueMachine T V).Run (.init dummy next value) os s) :
    ∃ queue own, s.Sound queue own ∧ s.Books queue own ∧ s.Ordered queue own := by
  refine hrun.invariant
    (I := fun s => ∃ queue own, s.Sound queue own ∧ s.Books queue own ∧ s.Ordered queue own) ?_
    ⟨_, _, AsyncQueue.sound_init hne next value, AsyncQueue.books_init dummy next value,
      AsyncQueue.ordered_init dummy next value⟩
  rintro s o s' ⟨queue, own, hs, hbooks, horder⟩ hguard hstep
  obtain rfl := Except.ok.inj hstep
  by_cases hclear : ∃ dummy', o = .clear dummy'
  · obtain ⟨dummy', rfl⟩ := hclear
    exact ⟨_, _, AsyncQueue.sound_init hguard.1.1.1 s.next s.value,
      AsyncQueue.books_init dummy' s.next s.value, AsyncQueue.ordered_init dummy' s.next s.value⟩
  · obtain ⟨queue', own', hs', hmoved⟩ := hs.step hguard.1 fun dummy' ho => hclear ⟨dummy', ho⟩
    exact ⟨queue', own', hs', hbooks.moved hs hmoved,
      horder.moved hs hbooks hmoved (AsyncQueue.apart_step horder.apart hguard)⟩

end VeritableLasagna
