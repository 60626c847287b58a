import VeritableLasagna.Log.Basic

/-!
# Flushing as a barrier

A flush compares the number of sequence numbers drawn before it with the number of the last record
the worker wrote. The comparison is a barrier only as long as records enter the queue in the order
of their numbers, and a producer draws its number **before** it pushes its record: a producer that
is overtaken between the two leaves a hole below the published number.

`LoggerOp.inSequence` is the condition that nobody is overtaken. `vlLogger_flush_barrier` shows that
it is enough, on every run: the published number never decreases and a flush that returns has seen
every earlier message written to every sink.
-/

namespace VeritableLasagna

variable {T S : Type}

/-- The sequence number a client has drawn for a record it has not pushed. -/
def ClientPc.unpushed : ClientPc S → Option ℕ
  | .push record => some record.seq
  | _ => none

/-- The next access of a client keeps the records in sequence: a draw does not wrap the counter, and
a push does not overtake a record with a smaller number. -/
def ClientPc.inSequence (s : LoggerState T S) : ClientPc S → Prop
  | .draw _ => s.enqueuedSeq + 1 < 2 ^ 64
  | .push record => ∀ u, ∀ n ∈ (s.pc u).unpushed, record.seq ≤ n
  | _ => True

/-- Whether an operation keeps the records in sequence. -/
def LoggerOp.inSequence (s : LoggerState T S) : LoggerOp T S → Prop
  | .client t => (s.pc t).inSequence s
  | _ => True

/-- The machine restricted to operations that keep the records in sequence. -/
def sequencedLoggerMachine (backend : ThreadsBackend) (T S : Type) [DecidableEq T] :
    Machine (LoggerState T S) (LoggerOp T S) where
  guard s o := (loggerMachine backend T S).guard s o ∧ o.inSequence s
  step := (loggerMachine backend T S).step

instance [Fintype T] (s : LoggerState T S) : ∀ pc : ClientPc S, Decidable (pc.inSequence s)
  | .draw _ => inferInstanceAs (Decidable (s.enqueuedSeq + 1 < 2 ^ 64))
  | .push record => inferInstanceAs (Decidable (∀ u, ∀ n ∈ (s.pc u).unpushed, record.seq ≤ n))
  | .idle | .post _ | .target _ | .check _ _ | .wake _ _ | .loop _ _ | .wait _ _ | .flushSinks _
  | .flushed _ => inferInstanceAs (Decidable True)

instance [Fintype T] (s : LoggerState T S) : ∀ o : LoggerOp T S, Decidable (o.inSequence s)
  | .client t => inferInstanceAs (Decidable ((s.pc t).inSequence s))
  | .message _ _ | .flush _ | .addSink _ _ | .stop | .worker => inferInstanceAs (Decidable True)

instance [DecidableEq T] [Fintype T] (backend : ThreadsBackend) (s : LoggerState T S)
    (o : LoggerOp T S) : Decidable ((sequencedLoggerMachine backend T S).guard s o) :=
  inferInstanceAs (Decidable ((loggerMachine backend T S).guard s o ∧ o.inSequence s))

namespace LoggerState

/-- A record has been written to every sink that was registered when its number was drawn. -/
def Done (s : LoggerState T S) (r : LogRecord S) : Prop := ∀ sink ∈ r.sinks, (sink, r) ∈ s.written

/-- **The flush barrier**: a flush that returns finds every record done whose logging call had
returned before the flush was called. -/
def FlushBarrier (s : LoggerState T S) : Prop :=
  ∀ t before, s.pc t = .flushed before → ∀ r ∈ before, s.Done r

end LoggerState

/-! ### The pipeline -/

/-- The record that the worker has popped and not published. -/
def LogWorkerPc.inHand : LogWorkerPc S → List (LogRecord S)
  | .lock r | .write r _ | .unlock r | .store r => [r]
  | .wait | .pop | .post | .check | .leave | .exited => []

namespace LoggerState

variable {s s' : LoggerState T S} {r : LogRecord S} {t : T}

/-- The records that are pushed and not published, the oldest first. -/
def pipeline (s : LoggerState T S) : List (LogRecord S) := s.worker.inHand ++ s.queue

/-- The published number and those of the pipeline. -/
def numbers (s : LoggerState T S) : List ℕ := s.processedSeq :: s.pipeline.map LogRecord.seq

/-- A pushed record is in the pipeline or done. -/
def Placed (s : LoggerState T S) (r : LogRecord S) : Prop :=
  r.seq ≤ s.enqueuedSeq ∧ (r ∈ s.pipeline ∨ s.Done r)

/-- What holds where a client stands. -/
def ClientOk (s : LoggerState T S) : ClientPc S → Prop
  | .idle | .draw _ => True
  | .push r => r.seq ≤ s.enqueuedSeq ∧ r.sinks ⊆ s.sinks ∧ ∀ n ∈ s.numbers, n < r.seq
  | .post r => s.Placed r
  | .target before => ∀ r ∈ before, s.Placed r
  | .check before target | .wake before target | .loop before target | .wait before target =>
    ∀ r ∈ before, s.Placed r ∧ r.seq ≤ target
  | .flushSinks before | .flushed before => ∀ r ∈ before, s.Done r

/-- What holds where the worker stands. -/
def WorkerOk (s : LoggerState T S) : LogWorkerPc S → Prop
  | .write r left => ∀ sink ∈ r.sinks, sink ∈ left ∨ (sink, r) ∈ s.written
  | .unlock r | .store r => s.Done r
  | _ => True

/-- The invariant of sequenced runs: the pipeline is sorted above the published number and below
what the clients are about to push. -/
structure Inv (s : LoggerState T S) : Prop where
  sorted : s.numbers.Pairwise (· < ·)
  drawn : ∀ n ∈ s.numbers, n ≤ s.enqueuedSeq
  distinct : ∀ t u n, n ∈ (s.pc t).unpushed → n ∈ (s.pc u).unpushed → t = u
  registered : ∀ r ∈ s.pipeline, r.sinks ⊆ s.sinks
  returned : ∀ r ∈ s.returned, s.Placed r
  worker : s.WorkerOk s.worker
  client : ∀ t, s.ClientOk (s.pc t)

theorem Inv.barrier (h : s.Inv) : s.FlushBarrier := by
  intro t before ht
  have := h.client t
  rwa [ht] at this

/-- A placed record whose number is published is done: the pipeline is above the published
number. -/
theorem Inv.done (h : s.Inv) (hr : s.Placed r) (hseq : r.seq ≤ s.processedSeq) : s.Done r := by
  obtain ⟨-, hmem | hdone⟩ := hr
  · have habove := (List.pairwise_cons.mp h.sorted).1 _ (List.mem_map_of_mem hmem)
    omega
  · exact hdone

/-- One state extends another: nothing drawn, registered, placed or written is lost. -/
structure Extends (s s' : LoggerState T S) : Prop where
  enqueuedSeq : s.enqueuedSeq ≤ s'.enqueuedSeq
  sinks : s.sinks ⊆ s'.sinks
  written : s.written ⊆ s'.written
  pipeline : ∀ r ∈ s.pipeline, r ∈ s'.pipeline ∨ s'.Done r

namespace Extends

theorem done (h : s.Extends s') (hr : s.Done r) : s'.Done r :=
  fun sink hsink => h.written (hr sink hsink)

theorem placed (h : s.Extends s') (hr : s.Placed r) : s'.Placed r :=
  ⟨hr.1.trans h.enqueuedSeq, hr.2.elim (h.pipeline r) fun hdone => Or.inr (h.done hdone)⟩

/-- What holds of a client survives a step, unless a push overtakes it. -/
theorem clientOk (h : s.Extends s') {pc : ClientPc S}
    (hpush : ∀ r, pc = .push r → ∀ n ∈ s'.numbers, n < r.seq) (hpc : s.ClientOk pc) :
    s'.ClientOk pc := by
  cases pc with
  | idle | draw _ => trivial
  | push r => exact ⟨hpc.1.trans h.enqueuedSeq, fun _ hsink => h.sinks (hpc.2.1 hsink), hpush r rfl⟩
  | post r => exact h.placed hpc
  | target before => exact fun r hr => h.placed (hpc r hr)
  | check before _ | wake before _ | loop before _ | wait before _ =>
    exact fun r hr => ⟨h.placed (hpc r hr).1, (hpc r hr).2⟩
  | flushSinks before | flushed before => exact fun r hr => h.done (hpc r hr)

theorem workerOk (h : s.Extends s') {pc : LogWorkerPc S} (hpc : s.WorkerOk pc) : s'.WorkerOk pc := by
  cases pc with
  | write r left => exact fun sink hsink => (hpc sink hsink).imp_right fun hw => h.written hw
  | unlock r | store r => exact h.done hpc
  | _ => trivial

end Extends

/-! ### Steps that leave the pipeline alone -/

variable [DecidableEq T]

@[simp] theorem setPc_self (s : LoggerState T S) (t : T) (pc : ClientPc S) :
    (s.setPc t pc).pc t = pc := Function.update_self ..

theorem setPc_of_ne {u : T} (s : LoggerState T S) (pc : ClientPc S) (hu : u ≠ t) :
    (s.setPc t pc).pc u = s.pc u := Function.update_of_ne hu ..

theorem distinct_setPc (h : s.Inv) {pc : ClientPc S} (hpc : ∀ n ∈ pc.unpushed, ∀ u ≠ t,
    n ∉ (s.pc u).unpushed) {u v : T} {n : ℕ} (hu : n ∈ ((s.setPc t pc).pc u).unpushed)
    (hv : n ∈ ((s.setPc t pc).pc v).unpushed) : u = v := by
  by_cases hut : u = t
  · by_cases hvt : v = t
    · rw [hut, hvt]
    · rw [hut, setPc_self] at hu
      rw [setPc_of_ne s pc hvt] at hv
      exact absurd hv (hpc n hu v hvt)
  · rw [setPc_of_ne s pc hut] at hu
    by_cases hvt : v = t
    · rw [hvt, setPc_self] at hv
      exact absurd hu (hpc n hv u hut)
    · rw [setPc_of_ne s pc hvt] at hv
      exact h.distinct u v n hu hv

/-- A client moves on with nothing to push, and nothing else changes but the semaphores and the list
of returned records. -/
theorem Inv.move (h : s.Inv) (pc : ClientPc S) (hpc : s.ClientOk pc) (hunpushed : pc.unpushed = none)
    {items flushed : ℕ} {returned : List (LogRecord S)} (hreturned : ∀ r ∈ returned, s.Placed r) :
    ({ s.setPc t pc with semItems := items, semFlushed := flushed, returned := returned } :
      LoggerState T S).Inv := by
  have hext : s.Extends { s.setPc t pc with
      semItems := items, semFlushed := flushed, returned := returned } :=
    ⟨le_rfl, fun _ hx => hx, fun _ hx => hx, fun _ hr => Or.inl hr⟩
  refine ⟨h.sorted, h.drawn, fun u v n hu hv => ?_, h.registered,
    fun r hr => hext.placed (hreturned r hr), hext.workerOk h.worker, fun u => ?_⟩
  · refine distinct_setPc h (fun n hn => ?_) hu hv
    rw [hunpushed] at hn
    cases hn
  · change LoggerState.ClientOk _ ((s.setPc t pc).pc u)
    by_cases hu : u = t
    · rw [hu, setPc_self]
      refine hext.clientOk (fun r hr => ?_) hpc
      rw [hr] at hunpushed
      cases hunpushed
    · rw [setPc_of_ne s pc hu]
      refine hext.clientOk (fun r hr => ?_) (h.client u)
      have := h.client u
      rw [hr] at this
      exact this.2.2

omit [DecidableEq T] in
/-- A step that moves no client and only shortens the pipeline. -/
theorem Inv.keep (h : s.Inv) (hext : s.Extends s') (hpc : s'.pc = s.pc)
    (hreturned : s'.returned = s.returned) (hnumbers : s'.numbers.Sublist s.numbers)
    (hregistered : ∀ r ∈ s'.pipeline, r.sinks ⊆ s'.sinks) (hworker : s'.WorkerOk s'.worker) :
    s'.Inv where
  sorted := h.sorted.sublist hnumbers
  drawn n hn := (h.drawn n (hnumbers.subset hn)).trans hext.enqueuedSeq
  distinct := by rw [hpc]; exact h.distinct
  registered := hregistered
  returned r hr := hext.placed (h.returned r (hreturned ▸ hr))
  worker := hworker
  client t := by
    rw [hpc]
    refine hext.clientOk (fun r hr n hn => ?_) (h.client t)
    have := h.client t
    rw [hr] at this
    exact this.2.2 n (hnumbers.subset hn)

/-- **A draw**: the new number is above all that are pushed and all that are drawn. -/
theorem Inv.draw (h : s.Inv) (text : List UInt8) (hwrap : s.enqueuedSeq + 1 < 2 ^ 64) :
    ({ s.setPc t (.push ⟨(s.enqueuedSeq + 1) % 2 ^ 64, text, s.sinks⟩) with
      enqueuedSeq := (s.enqueuedSeq + 1) % 2 ^ 64 } : LoggerState T S).Inv := by
  rw [Nat.mod_eq_of_lt hwrap]
  have hext : s.Extends { s.setPc t (.push ⟨s.enqueuedSeq + 1, text, s.sinks⟩) with
      enqueuedSeq := s.enqueuedSeq + 1 } :=
    ⟨Nat.le_succ _, fun _ hx => hx, fun _ hx => hx, fun _ hr => Or.inl hr⟩
  refine ⟨h.sorted, fun n hn => (h.drawn n hn).trans hext.enqueuedSeq, fun u v n hu hv => ?_,
    h.registered, fun r hr => hext.placed (h.returned r hr), hext.workerOk h.worker, fun u => ?_⟩
  · refine distinct_setPc h (fun n hn u _ hu => ?_) hu hv
    obtain rfl : s.enqueuedSeq + 1 = n := by simpa [ClientPc.unpushed] using hn
    have := h.client u
    cases hc : s.pc u with
    | push r =>
      rw [hc] at this hu
      have hseq : r.seq = s.enqueuedSeq + 1 := by simpa [ClientPc.unpushed] using hu
      have hle := this.1
      omega
    | _ => simp [hc, ClientPc.unpushed] at hu
  · change LoggerState.ClientOk _ ((s.setPc t _).pc u)
    by_cases hu : u = t
    · rw [hu, setPc_self]
      refine ⟨le_rfl, List.Subset.refl _, fun n hn => ?_⟩
      exact Nat.lt_succ_of_le (h.drawn n hn)
    · rw [setPc_of_ne s _ hu]
      refine hext.clientOk (fun r hr => ?_) (h.client u)
      have := h.client u
      rw [hr] at this
      exact this.2.2

/-- **A push in sequence**: the record goes to the end of the pipeline, still below everything that
is drawn and not pushed. -/
theorem Inv.push (h : s.Inv) (hpc : s.pc t = .push r)
    (hfirst : ∀ u, ∀ n ∈ (s.pc u).unpushed, r.seq ≤ n) :
    ({ s.setPc t (.post r) with queue := s.queue ++ [r] } : LoggerState T S).Inv := by
  obtain ⟨hdrawn, hsinks, hbelow⟩ : s.ClientOk (.push r) := hpc ▸ h.client t
  have hpipeline : ({ s.setPc t (.post r) with queue := s.queue ++ [r] } :
      LoggerState T S).pipeline = s.pipeline ++ [r] := (List.append_assoc ..).symm
  have hnumbers : ({ s.setPc t (.post r) with queue := s.queue ++ [r] } :
      LoggerState T S).numbers = s.numbers ++ [r.seq] := by
    rw [numbers, hpipeline, List.map_append]
    rfl
  have hext : s.Extends { s.setPc t (.post r) with queue := s.queue ++ [r] } := by
    refine ⟨le_rfl, fun _ hx => hx, fun _ hx => hx, fun x hx => Or.inl ?_⟩
    rw [hpipeline]
    exact List.mem_append_left _ hx
  refine ⟨?_, fun n hn => ?_, fun u v n hu hv => ?_, fun x hx => ?_,
    fun x hx => hext.placed (h.returned x hx), hext.workerOk h.worker, fun u => ?_⟩
  · rw [hnumbers, List.pairwise_append]
    refine ⟨h.sorted, List.pairwise_singleton _ _, fun n hn m hm => ?_⟩
    rw [List.mem_singleton.mp hm]
    exact hbelow n hn
  · rw [hnumbers, List.mem_append, List.mem_singleton] at hn
    rcases hn with hn | rfl
    · exact h.drawn n hn
    · exact hdrawn
  · exact distinct_setPc h (fun n hn => by cases hn) hu hv
  · rw [hpipeline, List.mem_append, List.mem_singleton] at hx
    rcases hx with hx | rfl
    · exact h.registered x hx
    · exact hsinks
  · change LoggerState.ClientOk _ ((s.setPc t _).pc u)
    by_cases hu : u = t
    · rw [hu, setPc_self]
      refine ⟨hdrawn, Or.inl ?_⟩
      rw [hpipeline]
      exact List.mem_append_right _ (List.mem_singleton_self r)
    · rw [setPc_of_ne s _ hu]
      refine hext.clientOk (fun x hx n hn => ?_) (h.client u)
      have hother : s.ClientOk (.push x) := hx ▸ h.client u
      rw [hnumbers, List.mem_append, List.mem_singleton] at hn
      rcases hn with hn | rfl
      · exact hother.2.2 n hn
      · -- Two clients never hold the same number, so the other one's is larger.
        have hle := hfirst u x.seq (by rw [hx]; rfl)
        refine lt_of_le_of_ne hle fun heq => hu ?_
        exact h.distinct u t x.seq (by rw [hx]; rfl) (by rw [hpc, ← heq]; rfl)

omit [DecidableEq T] in
/-- **Step rule of the worker**. -/
theorem Inv.work (h : s.Inv) : (vlLogWorker s).Inv := by
  have hworker := h.worker
  have hregistered := h.registered
  -- Away from a pop and a store the worker keeps the pipeline as it is.
  have hsame {s' : LoggerState T S} (hpipeline : s'.pipeline = s.pipeline)
      (hwritten : s.written ⊆ s'.written) (henq : s'.enqueuedSeq = s.enqueuedSeq)
      (hproc : s'.processedSeq = s.processedSeq) (hsinks : s'.sinks = s.sinks) (hpc : s'.pc = s.pc)
      (hreturned : s'.returned = s.returned) (hok : s'.WorkerOk s'.worker) : s'.Inv := by
    refine h.keep ⟨henq.ge, hsinks ▸ List.Subset.refl _, hwritten, fun r hr => Or.inl ?_⟩ hpc
      hreturned ?_ ?_ hok
    · rw [hpipeline]
      exact hr
    · rw [numbers, hpipeline, hproc]
      exact List.Sublist.refl _
    · rw [hpipeline, hsinks]
      exact hregistered
  rw [vlLogWorker]
  split
  next hw =>
    exact hsame (by simp [pipeline, hw, LogWorkerPc.inHand]) (List.Subset.refl _) rfl rfl rfl rfl rfl
      trivial
  next hw =>
    split
    next hq =>
      exact hsame (by simp [pipeline, hw, LogWorkerPc.inHand]) (List.Subset.refl _) rfl rfl rfl rfl
        rfl trivial
    next record queue hq =>
      exact hsame (by simp [pipeline, hw, hq, LogWorkerPc.inHand]) (List.Subset.refl _) rfl rfl rfl
        rfl rfl trivial
  next record hw =>
    refine hsame (by simp [pipeline, hw, LogWorkerPc.inHand]) (List.Subset.refl _) rfl rfl rfl rfl
      rfl fun sink hsink => Or.inl ?_
    exact hregistered record (by simp [pipeline, hw, LogWorkerPc.inHand]) hsink
  next record sink left hw =>
    rw [hw] at hworker
    refine hsame (by simp [pipeline, hw, LogWorkerPc.inHand]) (List.subset_append_left _ _) rfl rfl
      rfl rfl rfl fun x hx => ?_
    rcases hworker x hx with hleft | hdone
    · rcases List.mem_cons.mp hleft with rfl | hleft
      · exact Or.inr (List.mem_append_right _ (List.mem_singleton_self _))
      · exact Or.inl hleft
    · exact Or.inr (List.mem_append_left _ hdone)
  next record hw =>
    rw [hw] at hworker
    refine hsame (by simp [pipeline, hw, LogWorkerPc.inHand]) (List.Subset.refl _) rfl rfl rfl rfl
      rfl fun x hx => ?_
    exact (hworker x hx).resolve_left List.not_mem_nil
  next record hw =>
    rw [hw] at hworker
    exact hsame (by simp [pipeline, hw, LogWorkerPc.inHand]) (List.Subset.refl _) rfl rfl rfl rfl rfl
      hworker
  next record hw =>
    rw [hw] at hworker
    have hpipeline : s.pipeline = record :: s.queue := by simp [pipeline, hw, LogWorkerPc.inHand]
    refine h.keep ⟨le_rfl, List.Subset.refl _, List.Subset.refl _, fun r hr => ?_⟩ rfl rfl ?_ ?_
      trivial
    · rw [hpipeline] at hr
      rcases List.mem_cons.mp hr with rfl | hr
      · exact Or.inr hworker
      · exact Or.inl hr
    · rw [numbers, numbers, hpipeline]
      exact List.sublist_cons_self _ _
    · intro r hr
      exact hregistered r (hpipeline ▸ List.mem_cons_of_mem _ hr)
  next hw =>
    exact hsame (by simp [pipeline, hw, LogWorkerPc.inHand]) (List.Subset.refl _) rfl rfl rfl rfl rfl
      trivial
  next hw =>
    split_ifs
    all_goals
      exact hsame (by simp [pipeline, hw, LogWorkerPc.inHand]) (List.Subset.refl _) rfl rfl rfl rfl
        rfl trivial
  next hw =>
    exact hsame (by simp [pipeline, hw, LogWorkerPc.inHand]) (List.Subset.refl _) rfl rfl rfl rfl rfl
      trivial
  next => exact h

/-- **Step rule of a client**. -/
theorem Inv.call (h : s.Inv) (hsequence : (s.pc t).inSequence s) : (vlLoggerClient s t).Inv := by
  have hclient := h.client t
  have hreturned := h.returned
  rw [vlLoggerClient]
  split
  next => exact h
  next text hpc =>
    rw [hpc] at hsequence
    exact h.draw text hsequence
  next record hpc =>
    rw [hpc] at hsequence
    exact h.push hpc hsequence
  next record hpc =>
    rw [hpc] at hclient
    refine h.move .idle trivial rfl fun r hr => ?_
    rcases List.mem_append.mp hr with hr | hr
    · exact hreturned r hr
    · rw [List.mem_singleton.mp hr]
      exact hclient
  next before hpc =>
    rw [hpc] at hclient
    exact h.move (.check before s.enqueuedSeq) (fun r hr => ⟨hclient r hr, (hclient r hr).1⟩) rfl
      hreturned
  next before target hpc =>
    rw [hpc] at hclient
    split_ifs with htarget
    · exact h.move (.flushSinks before)
        (fun r hr => h.done (hclient r hr).1 ((hclient r hr).2.trans htarget)) rfl hreturned
    · exact h.move (.wake before target) hclient rfl hreturned
  next before target hpc =>
    rw [hpc] at hclient
    exact h.move (.loop before target) hclient rfl hreturned
  next before target hpc =>
    rw [hpc] at hclient
    split_ifs with htarget
    · exact h.move (.wait before target) hclient rfl hreturned
    · exact h.move (.flushSinks before)
        (fun r hr => h.done (hclient r hr).1 ((hclient r hr).2.trans (not_lt.mp htarget))) rfl hreturned
  next before target hpc =>
    rw [hpc] at hclient
    exact h.move (.loop before target) hclient rfl hreturned
  next before hpc =>
    rw [hpc] at hclient
    exact h.move (.flushed before) hclient rfl hreturned
  next => exact h.move .idle trivial rfl hreturned

end LoggerState

variable [DecidableEq T] {s s' : LoggerState T S}

/-- **Step rule**: an operation that keeps the records in sequence keeps the invariant. -/
theorem loggerStep_inv {o : LoggerOp T S} (h : s.Inv) (hsequence : o.inSequence s) :
    (loggerStep s o).Inv := by
  cases o with
  | message t text => exact h.move (.draw text) trivial rfl h.returned
  | flush t => exact h.move (.target s.returned) h.returned rfl h.returned
  | addSink t sink =>
    have hext : s.Extends (loggerStep s (.addSink t sink)) :=
      ⟨le_rfl, List.subset_cons_self _ _, fun _ hx => hx, fun _ hr => Or.inl hr⟩
    refine h.keep hext rfl rfl (List.Sublist.refl _) (fun r hr => ?_) (hext.workerOk h.worker)
    exact fun x hx => hext.sinks (h.registered r hr hx)
  | stop =>
    have hext : s.Extends (loggerStep s .stop) :=
      ⟨le_rfl, fun _ hx => hx, fun _ hx => hx, fun _ hr => Or.inl hr⟩
    exact h.keep hext rfl rfl (List.Sublist.refl _) h.registered (hext.workerOk h.worker)
  | client t => exact h.call hsequence
  | worker => exact h.work

omit [DecidableEq T] in
theorem loggerInit_inv : (LoggerState.init : LoggerState T S).Inv where
  sorted := List.pairwise_singleton _ _
  drawn n hn := (List.mem_singleton.mp hn).le
  distinct t u n hn := by cases hn
  registered r hr := by cases hr
  returned r hr := by cases hr
  worker := trivial
  client _ := trivial

/-- A step never lowers the published number while the pipeline is sorted above it. -/
theorem loggerStep_processedSeq {o : LoggerOp T S} (h : s.Inv) :
    s.processedSeq ≤ (loggerStep s o).processedSeq := by
  cases o with
  | client t =>
    rw [loggerStep, vlLoggerClient]
    split
    all_goals first | exact le_rfl | (split_ifs <;> exact le_rfl)
  | worker =>
    rw [loggerStep, vlLogWorker]
    split
    case h_7 record hw =>
      refine ((List.pairwise_cons.mp h.sorted).1 record.seq ?_).le
      simp [LoggerState.pipeline, hw, LogWorkerPc.inHand]
    all_goals first | exact le_rfl | (split <;> exact le_rfl)
  | _ => exact le_rfl

/-- **Flush is a barrier on every sequenced run**, of any number of clients: the published number
does not decrease from one reached state to a later one, and every flush that returns finds all
records done whose logging calls had returned before it was called. -/
theorem vlLogger_flush_barrier {backend : ThreadsBackend} {os os' : List (LoggerOp T S)}
    (hrun : (sequencedLoggerMachine backend T S).Run .init os s)
    (hlater : (sequencedLoggerMachine backend T S).Run s os' s') :
    s.processedSeq ≤ s'.processedSeq ∧ s'.FlushBarrier := by
  have hstep : ∀ s o s', s.Inv → (sequencedLoggerMachine backend T S).guard s o →
      (sequencedLoggerMachine backend T S).step s o = .ok s' →
      s'.Inv ∧ s.processedSeq ≤ s'.processedSeq := by
    intro s o s' h hguard hstep
    obtain rfl := Except.ok.inj hstep
    exact ⟨loggerStep_inv h hguard.2, loggerStep_processedSeq h⟩
  have hinv := hrun.invariant (fun s o s' h hg hst => (hstep s o s' h hg hst).1) loggerInit_inv
  have hlater := hlater.invariant (I := fun u => u.Inv ∧ s.processedSeq ≤ u.processedSeq)
    (fun u o u' h hg hst => ⟨(hstep u o u' h.1 hg hst).1, h.2.trans (hstep u o u' h.1 hg hst).2⟩)
    ⟨hinv, le_rfl⟩
  exact ⟨hlater.2, hlater.1.barrier⟩

local instance neZeroTwo : NeZero 2 := ⟨two_ne_zero⟩

/-- A message and a flush by another client, up to the point where the flush has to wait. -/
def flushCalled : List (LoggerOp (Fin 2) Unit) :=
  [.addSink 0 (), .message 0 [7], .client 0, .client 0, .client 0, .flush 1, .client 1, .client 1,
    .client 1]

/-- The worker writes the message and the flush returns. -/
def flushServed : List (LoggerOp (Fin 2) Unit) :=
  [List.replicate 8 .worker, [.client 1, .client 1]].flatten

/-- A flush that waits for the worker: the message logged before it is written when it returns. -/
theorem vlLogger_flush_barrier_waits :
    ∃ s s' : LoggerState (Fin 2) Unit,
      (sequencedLoggerMachine .pthread (Fin 2) Unit).Run .init flushCalled s ∧
      (sequencedLoggerMachine .pthread (Fin 2) Unit).Run s flushServed s' ∧
      (s.processedSeq ≤ s'.processedSeq ∧ s'.FlushBarrier) ∧
      s'.pc 1 = .flushed [⟨1, [7], [()]⟩] := by
  have hexec : (((sequencedLoggerMachine .pthread (Fin 2) Unit).exec .init flushCalled).any fun s =>
      ((sequencedLoggerMachine .pthread (Fin 2) Unit).exec s flushServed).any fun s' =>
        s'.pc 1 = .flushed [⟨1, [7], [()]⟩]) = true := by decide +kernel
  obtain ⟨s, hrun, hexec⟩ := Machine.exists_run_of_exec hexec
  obtain ⟨s', hlater, hpc⟩ := Machine.exists_run_of_exec hexec
  exact ⟨s, s', hrun, hlater, vlLogger_flush_barrier hrun hlater, of_decide_eq_true hpc⟩

/-- A record that is overtaken: client 0 draws number 1, client 1 draws number 2 and pushes its
record, the worker writes it and publishes 2, and only then client 0 pushes its record. After both
calls have returned client 1 flushes. -/
def overtaken : List (LoggerOp (Fin 2) Unit) :=
  [[.addSink 0 (), .message 0 [7], .client 0, .message 1 [8], .client 1, .client 1, .client 1],
    List.replicate 7 .worker,
    [.client 0, .client 0, .flush 1, .client 1, .client 1, .client 1]].flatten

/-- The flush returns at once although the first record is still in the queue. -/
theorem vlLogger_flush_overtaken :
    ∃ s, (loggerMachine .pthread (Fin 2) Unit).Run .init overtaken s ∧ ¬ s.FlushBarrier := by
  have hexec : (((loggerMachine .pthread (Fin 2) Unit).exec .init overtaken).any fun s =>
      s.pc 1 = .flushed [⟨2, [8], [()]⟩, ⟨1, [7], [()]⟩] ∧
        ((), ⟨1, [7], [()]⟩) ∉ s.written) = true := by decide +kernel
  obtain ⟨s, hrun, htest⟩ := Machine.exists_run_of_exec hexec
  obtain ⟨hpc, hunwritten⟩ := of_decide_eq_true htest
  refine ⟨s, hrun, fun hbarrier => hunwritten ?_⟩
  exact hbarrier 1 _ hpc ⟨1, [7], [()]⟩ (by simp) () (by simp)

end VeritableLasagna
