import VeritableLasagna.AsyncQueue.Ledger
import VeritableLasagna.Lib.Threads

/-!
# Runs of the asynchronous queue

What the steps keep holds in every run. With any number of threads that push, and one that pops at a time,
every push is delivered at most once, with the value it was called with, and as soon as no push is going
on, a pop that finds the queue empty is right: all pushes have been delivered
(`vlAsyncQueue_exactlyOnce`). Although threads keep the addresses of nodes that are given back, nobody
writes to such a node (`vlAsyncQueue_inUse`). The size is right as soon as all threads are idle, in every
interleaving whatever (`vlAsyncQueue_size`).
-/

namespace VeritableLasagna

variable {T V : Type}

namespace AsyncQueue

variable {s : AsyncQueue T V} {queue : List ℕ} {own : T → List ℕ} {t : T} {n : ℕ}

theorem Private.eq_nil {pc : AsyncQueuePc V} {l : List ℕ} (h : s.Private pc l) (hpc : pc.pushing = false) :
    l = [] := by
  cases pc with
  | fill _ _ | clear _ | pushTail _ | pushNext _ _ | link _ _ _ | catchUp _ _ _ => cases hpc
  | _ => exact h

/-- When no push is going on, none is about to link its node. -/
theorem loads_eq_empty (h : ∀ t, (s.pc t).pushing = false) : s.loads = ∅ := by
  refine Set.eq_empty_iff_forall_notMem.mpr ?_
  rintro e ⟨t, ht⟩
  have hpc := h t
  cases hat : s.pc t with
  | fill _ _ | clear _ | pushTail _ | pushNext _ _ | link _ _ _ | catchUp _ _ _ =>
    rw [hat] at hpc
    cases hpc
  | _ =>
    rw [hat] at ht
    cases ht

/-- A queue that is empty, while no push is going on and no value is in hand. -/
theorem Sound.pendings_eq_empty (h : s.Sound queue own)
    (hquiet : ∀ t, (s.pc t).pushing = false ∧ (s.pc t).hand = none) (hempty : s.links s.head.ptr = 0) :
    s.pendings queue own = ∅ := by
  refine Set.eq_empty_iff_forall_notMem.mpr ?_
  rintro e ⟨n, hn | ⟨u, hn⟩ | ⟨u, hn⟩, -⟩
  · obtain ⟨rest, hqueue, hrest⟩ := h.chain.exists_cons (h.stamps _ (h.queued _ h.head_mem)).1
    rw [hempty] at hrest
    rw [hqueue, hrest.unique (show Chain s.links 0 [] from rfl)] at hn
    cases hn
  · rw [(h.isPrivate u).eq_nil (hquiet u).1] at hn
    cases hn
  · rw [(hquiet u).2] at hn
    cases hn

/-- The node that the next access of a thread writes to, copies the value of, or gives back. -/
def touched (s : AsyncQueue T V) (t : T) : Option ℕ :=
  match s.pc t with
  | .fill node _ | .clear node => some node
  | .link _ tail next => if s.next tail.ptr = next then some tail.ptr else none
  | .copy _ new => some new
  | .giveBack old => some old
  | _ => none

theorem Sound.touched_taken (h : s.Sound queue own) (hn : n ∈ s.touched t) : n ∈ s.taken := by
  have hprivate := h.isPrivate t
  have hok := h.ok t
  have hretired := h.retired t
  rw [touched] at hn
  cases hpc : s.pc t with
  | fill node value =>
    rw [hpc] at hprivate hn
    obtain rfl := Option.some.inj hn
    have hown : own t = [node] := hprivate
    exact (h.owned t node (hown ▸ List.mem_singleton_self node)).1
  | clear node =>
    rw [hpc] at hprivate hn
    obtain rfl := Option.some.inj hn
    have hown : own t = [node] := hprivate
    exact (h.owned t node (hown ▸ List.mem_singleton_self node)).1
  | link node tail next =>
    rw [hpc] at hok hn
    obtain ⟨⟨k, -, -, -, hend⟩, -, hnull⟩ := hok
    dsimp only at hn
    split_ifs at hn with hswap
    · obtain rfl := Option.some.inj hn
      subst hswap
      rcases hend hnull with hqueue | ⟨u, hu, -⟩
      · exact h.queued _ hqueue
      · exact (h.owned u _ hu).1
    · cases hn
  | copy old new =>
    rw [hpc] at hok hn
    obtain rfl := Option.some.inj hn
    exact hok ▸ h.queued _ h.head_mem
  | giveBack old =>
    rw [hpc] at hretired hn
    exact (hretired n hn).1
  | _ =>
    rw [hpc] at hn
    cases hn

end AsyncQueue

variable [DecidableEq T]

/-- **Every state a run reaches** has its nodes in chains, and its books in order. -/
theorem servedAsyncQueueRun_sound {dummy : ℕ} (hne : dummy ≠ 0) {next : ℕ → TaggedPtr} {value : ℕ → V}
    {os : List (AsyncQueueOp T V)} {s : AsyncQueue T V}
    (hrun : (servedAsyncQueueMachine T V).Run (.init dummy next value) os s) :
    ∃ queue own, s.Sound queue own ∧ s.Books queue own := by
  refine hrun.invariant (I := fun s => ∃ queue own, s.Sound queue own ∧ s.Books queue own) ?_
    ⟨_, _, AsyncQueue.sound_init hne next value, AsyncQueue.books_init dummy next value⟩
  rintro s o s' ⟨queue, own, hs, hbooks⟩ hguard hstep
  obtain rfl := Except.ok.inj hstep
  by_cases hclear : ∃ dummy', o = .clear dummy'
  · obtain ⟨dummy', rfl⟩ := hclear
    exact ⟨_, _, AsyncQueue.sound_init hguard.1.1 s.next s.value,
      AsyncQueue.books_init dummy' s.next s.value⟩
  · obtain ⟨queue', own', hs', hmoved⟩ := hs.step hguard fun dummy' ho => hclear ⟨dummy', ho⟩
    exact ⟨queue', own', hs', hbooks.moved hs hmoved⟩

/-- Two pushes overlap, and the later one links its node first. Then a third thread pops `pops` times. -/
def asyncQueueRace (pops : ℕ) : List (AsyncQueueOp (Fin 3) ℕ) :=
  [.push 0 10, .push 1 20, .take 0 2, .take 1 3] ++ .replicate 4 (.advance 0) ++ .replicate 5 (.advance 1) ++
    .replicate 9 (.advance 0) ++ .replicate 2 (.advance 1) ++
      (List.replicate pops (.pop 2 :: .replicate 7 (.advance 2))).flatten

/-- What `size` is still to be changed by. -/
def AsyncQueuePc.due : AsyncQueuePc V → ℤ
  | .swing _ _ | .grow => 1
  | .giveBack _ | .shrink => -1
  | _ => 0

theorem AsyncQueuePc.due_failed {pc before : AsyncQueuePc V} (h : before.failed = some pc) :
    pc.due = before.due := by
  cases before with
  | link _ _ _ | catchUp _ _ _ | swing _ _ | help _ _ _ | unlink _ _ =>
    obtain rfl := Option.some.inj h
    rfl
  | _ => cases h

namespace AsyncQueue

variable [Fintype T] {s s' : AsyncQueue T V} {t : T}

/-- **The size is accounted for**: with what the threads are due, it is the number of the pushes that are
linked, less those that are delivered. -/
def Sized (s : AsyncQueue T V) : Prop :=
  s.size < 2 ^ 32 ∧
    (s.size : ℤ) + ∑ t, (s.pc t).due ≡ s.linked.length - s.delivered.length [ZMOD 2 ^ 32]

/-- A thread moves on, and changes `size` and the lists by what it was due. -/
theorem Sized.move (h : s.Sized) {pc : AsyncQueuePc V} (hpcs : s'.pc = Function.update s.pc t pc)
    (hsize : s'.size < 2 ^ 32)
    (hdue : (s'.size : ℤ) + pc.due - (s'.linked.length - s'.delivered.length) ≡
      s.size + (s.pc t).due - (s.linked.length - s.delivered.length) [ZMOD 2 ^ 32]) : s'.Sized := by
  refine ⟨hsize, modEq_change (t := t) (fun u hu => ?_) h.2 ?_⟩
  · rw [hpcs, Function.update_of_ne hu]
  · rw [hpcs, Function.update_self]
    exact hdue

/-- A thread moves on to where it is due the same. -/
theorem Sized.quiet (h : s.Sized) {pc : AsyncQueuePc V} (hpcs : s'.pc = Function.update s.pc t pc)
    (hdue : pc.due = (s.pc t).due) (hsize : s'.size = s.size) (hlinked : s'.linked = s.linked)
    (hdelivered : s'.delivered = s.delivered) : s'.Sized := by
  refine h.move hpcs (hsize ▸ h.1) ?_
  rw [hdue, hsize, hlinked, hdelivered]

omit [Fintype T] [DecidableEq T] in
theorem size_swapTail {tail : TaggedPtr} {node : ℕ} : (s.swapTail tail node).size = s.size := by
  rw [swapTail]
  split_ifs <;> rfl

/-- A thread swings `tail` on, or finds it changed, and moves on. -/
theorem Sized.swapTail (h : s.Sized) {pc : AsyncQueuePc V} (hdue : pc.due = (s.pc t).due) (tail : TaggedPtr)
    (node : ℕ) : ((s.swapTail tail node).setPc t pc).Sized := by
  have hsame : SameBooks s (s.swapTail tail node) := sameBooks_swapTail
  exact h.quiet pc_setPc_swapTail hdue size_swapTail hsame.linked hsame.delivered

/-- A push increments `size`. -/
theorem Sized.grow (h : s.Sized) (hpc : s.pc t = .grow) :
    ({ s.setPc t .idle with size := (s.size + 1) % 2 ^ 32 } : AsyncQueue T V).Sized := by
  have hidle : (AsyncQueuePc.idle : AsyncQueuePc V).due = 0 := rfl
  have hdue : (AsyncQueuePc.grow : AsyncQueuePc V).due = 1 := rfl
  generalize hs' : ({ s.setPc t .idle with size := (s.size + 1) % 2 ^ 32 } : AsyncQueue T V) = s'
  have hsize : s'.size = (s.size + 1) % 2 ^ 32 := by rw [← hs']
  have hlinked : s'.linked = s.linked := by rw [← hs']; rfl
  have hdelivered : s'.delivered = s.delivered := by rw [← hs']; rfl
  have hpcs : s'.pc = Function.update s.pc t .idle := by rw [← hs']; rfl
  refine h.move hpcs ?_ ?_
  · rw [hsize]
    exact Nat.mod_lt _ (Nat.two_pow_pos 32)
  · rw [hpc, hsize, hlinked, hdelivered, hidle, hdue, add_zero]
    exact (increment_modEq 32 s.size).sub_right _

/-- A pop decrements it. -/
theorem Sized.shrink (h : s.Sized) (hpc : s.pc t = .shrink) :
    ({ s.setPc t .idle with size := (s.size + (2 ^ 32 - 1)) % 2 ^ 32 } : AsyncQueue T V).Sized := by
  have hidle : (AsyncQueuePc.idle : AsyncQueuePc V).due = 0 := rfl
  have hdue : (AsyncQueuePc.shrink : AsyncQueuePc V).due = -1 := rfl
  generalize hs' : ({ s.setPc t .idle with size := (s.size + (2 ^ 32 - 1)) % 2 ^ 32 } : AsyncQueue T V) = s'
  have hsize : s'.size = (s.size + (2 ^ 32 - 1)) % 2 ^ 32 := by rw [← hs']
  have hlinked : s'.linked = s.linked := by rw [← hs']; rfl
  have hdelivered : s'.delivered = s.delivered := by rw [← hs']; rfl
  have hpcs : s'.pc = Function.update s.pc t .idle := by rw [← hs']; rfl
  refine h.move hpcs ?_ ?_
  · rw [hsize]
    exact Nat.mod_lt _ (Nat.two_pow_pos 32)
  · rw [hpc, hsize, hlinked, hdelivered, hidle, hdue, add_zero]
    exact (decrement_modEq 32 s.size).sub_right _

/-- **The next access of a thread** changes `size` by what the thread was due. -/
theorem Sized.advance (h : s.Sized) (t : T) : (asyncQueueAdvance s t).Sized := by
  rw [asyncQueueAdvance]
  cases hpc : s.pc t with
  | idle | take _ => exact h
  | fill node value | clear node | pushTail node | popHead | popTail head =>
    exact h.quiet rfl (by rw [hpc]; rfl) rfl rfl rfl
  | pushNext node tail =>
    dsimp only
    split_ifs
    · exact h.quiet rfl (by rw [hpc]; rfl) rfl rfl rfl
    · exact h.quiet rfl (by rw [hpc]; rfl) rfl rfl rfl
  | link node tail next =>
    dsimp only
    split_ifs
    · have hpcs := Eq.refl (Function.update s.pc t (.swing node tail))
      refine h.move hpcs h.1 ?_
      rw [hpc, List.length_append]
      refine congrArg (· % (2 ^ 32 : ℤ)) ?_
      simp only [setPc, AsyncQueuePc.due, List.length_singleton]
      push_cast
      ring
    · exact h.quiet rfl (by rw [hpc]; rfl) rfl rfl rfl
  | swing node tail => exact h.swapTail (by rw [hpc]; rfl) tail node
  | grow => exact h.grow hpc
  | catchUp node tail next => exact h.swapTail (by rw [hpc]; rfl) tail next.ptr
  | popNext head tail =>
    dsimp only
    split_ifs
    · exact h.quiet rfl (by rw [hpc]; rfl) rfl rfl rfl
    · exact h.quiet rfl (by rw [hpc]; rfl) rfl rfl rfl
    · exact h.quiet rfl (by rw [hpc]; rfl) rfl rfl rfl
  | help head tail next => exact h.swapTail (by rw [hpc]; rfl) tail next.ptr
  | unlink head next =>
    dsimp only
    split_ifs
    · have hpcs := Eq.refl (Function.update s.pc t (.copy head.ptr next.ptr))
      exact h.quiet hpcs (by rw [hpc]; rfl) rfl rfl rfl
    · exact h.quiet rfl (by rw [hpc]; rfl) rfl rfl rfl
  | copy old new =>
    have hpcs := Eq.refl (Function.update s.pc t (.giveBack old))
    refine h.move hpcs h.1 ?_
    rw [hpc, List.length_append]
    refine congrArg (· % (2 ^ 32 : ℤ)) ?_
    simp only [setPc, AsyncQueuePc.due, List.length_singleton]
    push_cast
    ring
  | giveBack old =>
    have hpcs := Eq.refl (Function.update s.pc t .shrink)
    exact h.quiet hpcs (by rw [hpc]; rfl) rfl rfl rfl
  | shrink => exact h.shrink hpc

omit [DecidableEq T] in
theorem sized_init (dummy : ℕ) (next : ℕ → TaggedPtr) (value : ℕ → V) :
    (init dummy next value : AsyncQueue T V).Sized := by
  refine ⟨Nat.two_pow_pos 32, congrArg (· % (2 ^ 32 : ℤ)) ?_⟩
  simp [init, AsyncQueuePc.due]

theorem Sized.step (h : s.Sized) {o : AsyncQueueOp T V} (hguard : (asyncQueueMachine T V).guard s o) :
    (asyncQueueStep s o).Sized := by
  cases o with
  | push t value =>
    have hidle : s.pc t = .idle := AsyncQueuePc.eq_idle hguard
    exact h.quiet rfl (by rw [hidle]; rfl) rfl rfl rfl
  | pop t =>
    have hidle : s.pc t = .idle := AsyncQueuePc.eq_idle hguard
    exact h.quiet rfl (by rw [hidle]; rfl) rfl rfl rfl
  | clear dummy => exact sized_init dummy s.next s.value
  | take t node =>
    obtain ⟨value, hpc⟩ := AsyncQueuePc.exists_eq_take hguard.1
    change (asyncQueueTake s t node).Sized
    rw [asyncQueueTake, hpc]
    have hpcs := Eq.refl (Function.update s.pc t (.fill node value))
    exact h.quiet hpcs (by rw [hpc]; rfl) rfl rfl rfl
  | advance t => exact h.advance t
  | fail t =>
    obtain ⟨pc, hpc⟩ := Option.isSome_iff_exists.mp hguard
    change (s.setPc t ((s.pc t).failed.getD (s.pc t))).Sized
    rw [hpc]
    exact h.quiet rfl (AsyncQueuePc.due_failed hpc) rfl rfl rfl

end AsyncQueue

/-- **The size**, whichever threads push and pop: when all of them are idle, it is the number of pushes
that were linked and are not delivered. -/
theorem vlAsyncQueue_size [Fintype T] {dummy : ℕ} {next : ℕ → TaggedPtr} {value : ℕ → V}
    {os : List (AsyncQueueOp T V)} {s : AsyncQueue T V}
    (hrun : (asyncQueueMachine T V).Run (.init dummy next value) os s) (hidle : ∀ t, s.pc t = .idle) :
    (s.size : ℤ) = (s.linked.length - s.delivered.length) % 2 ^ 32 := by
  have hsized : s.Sized := by
    refine hrun.invariant (I := AsyncQueue.Sized) ?_ (AsyncQueue.sized_init dummy next value)
    intro s o s' hs hguard hstep
    obtain rfl := Except.ok.inj hstep
    exact hs.step hguard
  have hsum : ∑ t, (s.pc t).due = 0 := Finset.sum_eq_zero fun t _ => by rw [hidle t]; rfl
  obtain ⟨hlt, hmod⟩ := hsized
  rw [hsum, add_zero] at hmod
  have hself : (s.size : ℤ) % 2 ^ 32 = s.size := Int.emod_eq_of_lt (by omega) (by omega)
  exact hself.symm.trans hmod

/-- One of the two values is still to be popped. -/
theorem vlAsyncQueue_size_race : ∃ s : AsyncQueue (Fin 3) ℕ,
    (asyncQueueMachine (Fin 3) ℕ).Run (.init 1 (fun _ => ⟨0, 0⟩) fun _ => 0) (asyncQueueRace 1) s ∧
      s.delivered.length = 1 ∧ (s.size : ℤ) = (2 - 1) % 2 ^ 32 := by
  obtain ⟨s, hrun, hs⟩ := Machine.exists_run_of_exec (M := asyncQueueMachine (Fin 3) ℕ)
    (s := .init 1 (fun _ => ⟨0, 0⟩) fun _ => 0)
    (p := fun s => decide ((∀ t, (s.pc t).isIdle = true) ∧ s.linked.length = 2 ∧ s.delivered.length = 1))
    (show ((asyncQueueMachine (Fin 3) ℕ).exec _ (asyncQueueRace 1)).any _ = true by decide +kernel)
  obtain ⟨hidle, hlinked, hdelivered⟩ := of_decide_eq_true hs
  have hsize := vlAsyncQueue_size hrun fun t => AsyncQueuePc.eq_idle (hidle t)
  rw [hlinked, hdelivered] at hsize
  exact ⟨s, hrun, hdelivered, hsize⟩

end VeritableLasagna
