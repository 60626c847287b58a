import VeritableLasagna.Lib.Ranking
import VeritableLasagna.Log.Flush

/-!
# Draining the logger

`vlLoggerDelete` tells the worker to stop and joins it. The join returns, and no message is lost
(`vlLoggerDelete_drains`): after the stop the worker takes a bounded number of steps, it is not blocked
before it has exited, and when it has, every record whose logging call had returned is written to every sink
that was registered when its number was drawn. What is written until then is exactly what was pending: what
was left of the record in hand, and then each record of the queue, in order, to every sink.

Unlike the barrier of a flush, this holds of all runs: it does not depend on the sequence numbers, but on
the queue alone.
-/

namespace VeritableLasagna

variable {T S : Type}

/-- Whether the worker has the configuration lock. -/
def LogWorkerPc.writing : LogWorkerPc S → Bool
  | .write _ _ | .unlock _ => true
  | _ => false

/-- Whether the worker has left its loop. -/
def LogWorkerPc.leaving : LogWorkerPc S → Bool
  | .leave | .exited => true
  | _ => false

/-- The writes that are left of the record in hand. -/
def LogWorkerPc.due (sinks : List S) : LogWorkerPc S → List (S × LogRecord S)
  | .lock r => sinks.map (·, r)
  | .write r left => left.map (·, r)
  | _ => []

/-- How many more steps the worker takes, at most, once it is told to stop, without those for the records of
the queue. -/
def LogWorkerPc.rest (sinks : List S) (empty : Bool) : LogWorkerPc S → ℕ
  | .lock _ => 8 + sinks.length
  | .write _ left => 7 + left.length
  | .unlock _ => 6
  | .store _ => 5
  | .post => 4
  | .wait => 4
  | .pop => 3
  | .check => if empty then 2 else 5
  | .leave => 1
  | .exited => 0

namespace LoggerState

variable {s s' : LoggerState T S} {r : LogRecord S} {t : T}

/-- The writes that are still to be made, in order. -/
def pending (s : LoggerState T S) : List (S × LogRecord S) :=
  s.worker.due s.sinks ++ s.queue.flatMap fun r => s.sinks.map (·, r)

/-- How many more steps the worker takes, at most, once it is told to stop. -/
def rest (s : LoggerState T S) : ℕ :=
  s.worker.rest s.sinks s.queue.isEmpty + (6 + s.sinks.length) * s.queue.length

/-- A pushed record is in the pipeline or done. -/
def Handed (s : LoggerState T S) (r : LogRecord S) : Prop := r ∈ s.pipeline ∨ s.Done r

/-- There is a token for the worker, or somebody is about to post one. -/
def Called (s : LoggerState T S) : Prop := 0 < s.semItems ∨ ∃ t r, s.pc t = .post r

/-- What holds where a client stands, in all runs. -/
def ClientFit (s : LoggerState T S) : ClientPc S → Prop
  | .push r => r.sinks ⊆ s.sinks
  | .post r => s.Handed r
  | _ => True

/-- What holds where the worker stands, in all runs: it is not asleep while there is something to do. -/
def WorkerFit (s : LoggerState T S) : LogWorkerPc S → Prop
  | .write _ left => left.length ≤ s.sinks.length
  | .wait => s.queue ≠ [] ∨ s.running = false → s.Called
  | .check => s.queue ≠ [] → s.Called
  | .leave | .exited => s.running = false
  | _ => True

/-- The invariant of all runs: no record is lost between its push and its writes, and the worker is not
asleep while there is something to do. -/
structure Orderly (s : LoggerState T S) : Prop where
  lock : s.locked = s.worker.writing
  registered : ∀ r ∈ s.pipeline, r.sinks ⊆ s.sinks
  client : ∀ t, s.ClientFit (s.pc t)
  returned : ∀ r ∈ s.returned, s.Handed r
  worker : s.WorkerOk s.worker
  fit : s.WorkerFit s.worker

/-- Nothing registered, handed over or written is lost. -/
structure Carries (s s' : LoggerState T S) : Prop where
  sinks : s.sinks ⊆ s'.sinks
  written : s.written ⊆ s'.written
  pipeline : ∀ r ∈ s.pipeline, s'.Handed r

namespace Carries

theorem done (h : s.Carries s') (hr : s.Done r) : s'.Done r := fun sink hsink => h.written (hr sink hsink)

theorem handed (h : s.Carries s') (hr : s.Handed r) : s'.Handed r :=
  hr.elim (h.pipeline r) fun hdone => .inr (h.done hdone)

theorem workerOk (h : s.Carries s') {pc : LogWorkerPc S} (hpc : s.WorkerOk pc) : s'.WorkerOk pc := by
  cases pc with
  | write r left => exact fun sink hsink => (hpc sink hsink).imp_right fun hw => h.written hw
  | unlock r | store r => exact h.done hpc
  | _ => trivial

theorem clientFit (h : s.Carries s') {pc : ClientPc S} (hpc : s.ClientFit pc) : s'.ClientFit pc := by
  cases pc with
  | push r => exact List.Subset.trans hpc h.sinks
  | post r => exact h.handed hpc
  | _ => trivial

end Carries

/-- The worker stands well after a step that posts a token, or leaves it what there is to do. -/
theorem WorkerFit.mono {pc : LogWorkerPc S} (h : s.WorkerFit pc) (hsinks : s.sinks.length ≤ s'.sinks.length)
    (hstopped : s.running = false → s'.running = false)
    (hcalled : s'.Called ∨ s'.queue = s.queue ∧ s'.running = s.running ∧ (s.Called → s'.Called)) :
    s'.WorkerFit pc := by
  cases pc with
  | write r left => exact le_trans h hsinks
  | wait =>
    rcases hcalled with hcalled | ⟨hqueue, hrunning, hcalled⟩
    · exact fun _ => hcalled
    · rw [WorkerFit, hqueue, hrunning]
      exact fun hbusy => hcalled (h hbusy)
  | check =>
    rcases hcalled with hcalled | ⟨hqueue, hrunning, hcalled⟩
    · exact fun _ => hcalled
    · rw [WorkerFit, hqueue]
      exact fun hbusy => hcalled (h hbusy)
  | leave | exited => exact hstopped h
  | _ => trivial

/-! ### The worker -/

/-- A step of the worker, which registers no sink and takes in no record. -/
theorem Orderly.keep (h : s.Orderly) (hcarries : s.Carries s') (hpc : s'.pc = s.pc)
    (hsinks : s'.sinks = s.sinks) (hreturned : s'.returned = s.returned)
    (hpipeline : s'.pipeline ⊆ s.pipeline) (hlock : s'.locked = s'.worker.writing)
    (hworker : s'.WorkerOk s'.worker) (hfit : s'.WorkerFit s'.worker) : s'.Orderly where
  lock := hlock
  registered r hr := by
    rw [hsinks]
    exact h.registered r (hpipeline hr)
  client t := by
    rw [hpc]
    exact hcarries.clientFit (h.client t)
  returned r hr := hcarries.handed (h.returned r (hreturned ▸ hr))
  worker := hworker
  fit := hfit

/-- A step of the worker that moves no record out of the pipeline. -/
theorem Orderly.turn (h : s.Orderly) (hpipeline : s'.pipeline = s.pipeline)
    (hwritten : s.written ⊆ s'.written) (hpc : s'.pc = s.pc) (hsinks : s'.sinks = s.sinks)
    (hreturned : s'.returned = s.returned) (hlock : s'.locked = s'.worker.writing)
    (hworker : s'.WorkerOk s'.worker) (hfit : s'.WorkerFit s'.worker) : s'.Orderly := by
  refine h.keep ⟨hsinks ▸ List.Subset.refl _, hwritten, fun r hr => .inl ?_⟩ hpc hsinks hreturned ?_ hlock
    hworker hfit
  · rwa [hpipeline]
  · rw [hpipeline]
    exact List.Subset.refl _

/-- **The next access of the worker** keeps the logger orderly. -/
theorem Orderly.work (h : s.Orderly) : (vlLogWorker s).Orderly := by
  have hlock := h.lock
  have hworker := h.worker
  have hfit := h.fit
  have hsame := List.Subset.refl s.written
  rw [vlLogWorker]
  cases hw : s.worker with
  | wait =>
    rw [hw] at hlock
    exact h.turn (by simp [pipeline, hw, LogWorkerPc.inHand]) hsame rfl rfl rfl hlock trivial trivial
  | pop =>
    rw [hw] at hlock
    dsimp only
    cases hqueue : s.queue with
    | nil =>
      exact h.turn (by simp [pipeline, hw, hqueue, LogWorkerPc.inHand]) hsame rfl rfl rfl hlock trivial
        fun hne => absurd rfl hne
    | cons record queue =>
      exact h.turn (by simp [pipeline, hw, hqueue, LogWorkerPc.inHand]) hsame rfl rfl rfl hlock trivial
        trivial
  | lock record =>
    -- The worker walks the sinks that are registered now, and those of the record are among them.
    refine h.turn (by simp [pipeline, hw, LogWorkerPc.inHand]) hsame rfl rfl rfl rfl (fun sink hsink => ?_)
      (le_refl s.sinks.length)
    exact .inl (h.registered record (by simp [pipeline, hw, LogWorkerPc.inHand]) hsink)
  | write record left =>
    rw [hw] at hworker hlock hfit
    cases left with
    | nil =>
      refine h.turn (by simp [pipeline, hw, LogWorkerPc.inHand]) hsame rfl rfl rfl hlock (fun x hx => ?_)
        trivial
      exact (hworker x hx).resolve_left List.not_mem_nil
    | cons sink left =>
      refine h.turn (by simp [pipeline, hw, LogWorkerPc.inHand]) (List.subset_append_left _ _) rfl rfl rfl
        hlock (fun x hx => ?_) ((Nat.le_succ left.length).trans hfit)
      rcases hworker x hx with hleft | hdone
      · rcases List.mem_cons.mp hleft with rfl | hleft
        · exact .inr (List.mem_append_right _ (List.mem_singleton_self _))
        · exact .inl hleft
      · exact .inr (List.mem_append_left _ hdone)
  | unlock record =>
    rw [hw] at hworker
    exact h.turn (by simp [pipeline, hw, LogWorkerPc.inHand]) hsame rfl rfl rfl rfl hworker trivial
  | store record =>
    -- The record leaves the pipeline, and it is done.
    rw [hw] at hworker hlock
    have hpipeline : s.pipeline = record :: s.queue := by simp [pipeline, hw, LogWorkerPc.inHand]
    refine h.keep ⟨List.Subset.refl _, hsame, fun r hr => ?_⟩ rfl rfl rfl ?_ hlock trivial trivial
    · rw [hpipeline] at hr
      rcases List.mem_cons.mp hr with rfl | hr
      · exact .inr hworker
      · exact .inl hr
    · rw [hpipeline]
      exact List.subset_cons_self _ _
  | post =>
    rw [hw] at hlock
    exact h.turn (by simp [pipeline, hw, LogWorkerPc.inHand]) hsame rfl rfl rfl hlock trivial trivial
  | check =>
    -- It goes back to sleep only if it is called, or if there is nothing to do.
    rw [hw] at hlock hfit
    dsimp only
    by_cases hstop : (!s.running && s.queue.isEmpty) = true
    · rw [if_pos hstop]
      obtain ⟨hrunning, -⟩ := Bool.and_eq_true _ _ ▸ hstop
      rw [Bool.not_eq_true'] at hrunning
      exact h.turn (by simp [pipeline, hw, LogWorkerPc.inHand]) hsame rfl rfl rfl hlock trivial hrunning
    · rw [if_neg hstop]
      refine h.turn (by simp [pipeline, hw, LogWorkerPc.inHand]) hsame rfl rfl rfl hlock trivial
        fun hbusy => hfit fun hempty => ?_
      rcases hbusy with hqueue | hrunning
      · exact hqueue hempty
      · change s.running = false at hrunning
        rw [hempty, hrunning] at hstop
        exact hstop rfl
  | leave =>
    rw [hw] at hlock hfit
    exact h.turn (by simp [pipeline, hw, LogWorkerPc.inHand]) hsame rfl rfl rfl hlock trivial hfit
  | exited => exact h

/-! ### The clients -/

variable [DecidableEq T]

/-- What holds of the clients when one of them is moved on. -/
theorem setPc_cases (P : ClientPc S → Prop) (s : LoggerState T S) (t : T) (pc : ClientPc S) (hself : P pc)
    (hother : ∀ u, u ≠ t → P (s.pc u)) (u : T) : P ((s.setPc t pc).pc u) := by
  by_cases hu : u = t
  · rw [hu, setPc_self]
    exact hself
  · rw [setPc_of_ne s pc hu]
    exact hother u hu

/-- A step of a client that neither pushes nor posts. -/
theorem Orderly.move (h : s.Orderly) (pc : ClientPc S) (hpc : s.ClientFit pc)
    (hbefore : ∀ r, s.pc t ≠ .post r) {enqueued items flushed : ℕ} (hitems : s.semItems ≤ items) :
    ({ s.setPc t pc with enqueuedSeq := enqueued, semItems := items, semFlushed := flushed } :
      LoggerState T S).Orderly := by
  have hcarries : s.Carries { s.setPc t pc with
      enqueuedSeq := enqueued, semItems := items, semFlushed := flushed } :=
    ⟨List.Subset.refl _, List.Subset.refl _, fun r hr => .inl hr⟩
  have hcalled (hs : s.Called) : Called { s.setPc t pc with
      enqueuedSeq := enqueued, semItems := items, semFlushed := flushed } := by
    -- A client that is about to post is another one.
    rcases hs with hpos | ⟨u, r, hu⟩
    · exact .inl (hpos.trans_le hitems)
    · refine .inr ⟨u, r, ?_⟩
      have hne : u ≠ t := by
        rintro rfl
        exact hbefore r hu
      rwa [← setPc_of_ne s pc hne] at hu
  exact ⟨h.lock, h.registered,
    setPc_cases (ClientFit _) s t pc (hcarries.clientFit hpc) fun u _ => hcarries.clientFit (h.client u),
    h.returned, hcarries.workerOk h.worker, h.fit.mono le_rfl id (.inr ⟨rfl, rfl, hcalled⟩)⟩

/-- **A client pushes its record**, and is about to call the worker. -/
theorem Orderly.push (h : s.Orderly) (hpc : s.pc t = .push r) :
    ({ s.setPc t (.post r) with queue := s.queue ++ [r] } : LoggerState T S).Orderly := by
  have hpipeline : ({ s.setPc t (.post r) with queue := s.queue ++ [r] } : LoggerState T S).pipeline =
      s.pipeline ++ [r] := (List.append_assoc _ _ _).symm
  have hcarries : s.Carries { s.setPc t (.post r) with queue := s.queue ++ [r] } := by
    refine ⟨List.Subset.refl _, List.Subset.refl _, fun x hx => .inl ?_⟩
    rw [hpipeline]
    exact List.mem_append_left _ hx
  have hcalled : Called { s.setPc t (.post r) with queue := s.queue ++ [r] } :=
    .inr ⟨t, r, setPc_self s t _⟩
  have hclient := h.client t
  rw [hpc] at hclient
  refine ⟨h.lock, fun x hx => ?_, setPc_cases (ClientFit _) s t (.post r) (.inl ?_)
    fun u _ => hcarries.clientFit (h.client u), fun x hx => hcarries.handed (h.returned x hx),
    hcarries.workerOk h.worker, h.fit.mono le_rfl id (.inl hcalled)⟩
  · rw [hpipeline] at hx
    rcases List.mem_append.mp hx with hx | hx
    · exact h.registered x hx
    · rw [List.mem_singleton.mp hx]
      exact hclient
  · rw [hpipeline]
    exact List.mem_append_right _ (List.mem_singleton_self _)

/-- **A client calls the worker**, and its call returns. -/
theorem Orderly.post (h : s.Orderly) (hpc : s.pc t = .post r) :
    ({ s.setPc t .idle with semItems := s.semItems + 1, returned := s.returned ++ [r] } :
      LoggerState T S).Orderly := by
  have hcarries : s.Carries
      { s.setPc t .idle with semItems := s.semItems + 1, returned := s.returned ++ [r] } :=
    ⟨List.Subset.refl _, List.Subset.refl _, fun r hr => .inl hr⟩
  have hcalled : Called { s.setPc t .idle with
      semItems := s.semItems + 1, returned := s.returned ++ [r] } := .inl (Nat.succ_pos _)
  have hclient := h.client t
  rw [hpc] at hclient
  refine ⟨h.lock, h.registered, setPc_cases (ClientFit _) s t .idle trivial
    fun u _ => hcarries.clientFit (h.client u), fun x hx => hcarries.handed ?_, hcarries.workerOk h.worker,
    h.fit.mono le_rfl id (.inl hcalled)⟩
  rcases List.mem_append.mp hx with hx | hx
  · exact h.returned x hx
  · rw [List.mem_singleton.mp hx]
    exact hclient

/-- **The next access of a client** keeps the logger orderly. -/
theorem Orderly.call (h : s.Orderly) (t : T) : (vlLoggerClient s t).Orderly := by
  by_cases hposting : ∃ r, s.pc t = .post r
  · obtain ⟨r, hpc⟩ := hposting
    rw [vlLoggerClient, hpc]
    exact h.post hpc
  have hbefore : ∀ r, s.pc t ≠ .post r := fun r hr => hposting ⟨r, hr⟩
  rw [vlLoggerClient]
  cases hpc : s.pc t with
  | idle => exact h
  | draw text => exact h.move (.push _) (List.Subset.refl _) hbefore le_rfl
  | push record => exact h.push hpc
  | post record => exact absurd hpc (hbefore record)
  | check before target =>
    dsimp only
    split_ifs
    · exact h.move (.flushSinks before) trivial hbefore le_rfl
    · exact h.move (.wake before target) trivial hbefore le_rfl
  | loop before target =>
    dsimp only
    split_ifs
    · exact h.move (.wait before target) trivial hbefore le_rfl
    · exact h.move (.flushSinks before) trivial hbefore le_rfl
  | target before => exact h.move (.check before s.enqueuedSeq) trivial hbefore le_rfl
  | wake before target => exact h.move (.loop before target) trivial hbefore (Nat.le_succ _)
  | wait before target => exact h.move (.loop before target) trivial hbefore le_rfl
  | flushSinks before => exact h.move (.flushed before) trivial hbefore le_rfl
  | flushed before => exact h.move .idle trivial hbefore le_rfl

/-- **A step keeps the logger orderly.** -/
theorem Orderly.step {backend : ThreadsBackend} (h : s.Orderly) {o : LoggerOp T S}
    (hguard : (loggerMachine backend T S).guard s o) : (loggerStep s o).Orderly := by
  have hidle {t : T} (ht : (s.pc t).isIdle = true) (r : LogRecord S) : s.pc t ≠ .post r := by
    intro hr
    rw [hr] at ht
    cases ht
  cases o with
  | message t text => exact h.move (.draw text) trivial (hidle hguard) le_rfl
  | flush t => exact h.move (.target s.returned) trivial (hidle hguard) le_rfl
  | addSink t sink =>
    have hsub : s.sinks ⊆ sink :: s.sinks := List.subset_cons_self _ _
    have hcarries : s.Carries { s with sinks := sink :: s.sinks } :=
      ⟨hsub, List.Subset.refl _, fun r hr => .inl hr⟩
    exact ⟨h.lock, fun r hr => List.Subset.trans (h.registered r hr) hsub,
      fun u => hcarries.clientFit (h.client u), fun r hr => hcarries.handed (h.returned r hr),
      hcarries.workerOk h.worker, h.fit.mono (Nat.le_succ _) id (.inr ⟨rfl, rfl, id⟩)⟩
  | stop =>
    have hcarries : s.Carries { s with running := false, semItems := s.semItems + 1 } :=
      ⟨List.Subset.refl _, List.Subset.refl _, fun r hr => .inl hr⟩
    exact ⟨h.lock, h.registered, fun u => hcarries.clientFit (h.client u),
      fun r hr => hcarries.handed (h.returned r hr), hcarries.workerOk h.worker,
      h.fit.mono le_rfl (fun _ => rfl) (.inl (.inl (Nat.succ_pos _)))⟩
  | client t => exact h.call t
  | worker => exact h.work

omit [DecidableEq T] in
theorem orderly_init : (init : LoggerState T S).Orderly := by
  refine ⟨rfl, fun r hr => ?_, fun _ => trivial, fun r hr => ?_, trivial, fun hbusy => ?_⟩
  · cases hr
  · cases hr
  · rcases hbusy with hqueue | hrunning
    · exact absurd rfl hqueue
    · cases hrunning

/-! ### The drain -/

omit [DecidableEq T] in
/-- **The worker makes the pending writes**, in their order. -/
theorem vlLogWorker_pending (s : LoggerState T S) :
    (vlLogWorker s).written ++ (vlLogWorker s).pending = s.written ++ s.pending := by
  rw [vlLogWorker]
  cases hw : s.worker with
  | pop =>
    dsimp only
    cases hqueue : s.queue with
    | nil => simp [pending, hw, hqueue, LogWorkerPc.due]
    | cons record queue => simp [pending, hw, hqueue, LogWorkerPc.due]
  | write record left =>
    cases left with
    | nil => simp [pending, hw, LogWorkerPc.due]
    | cons sink left => simp [pending, hw, LogWorkerPc.due]
  | check =>
    dsimp only
    split_ifs
    · simp [pending, hw, LogWorkerPc.due]
    · simp [pending, hw, LogWorkerPc.due]
  | _ => simp [pending, hw, LogWorkerPc.due]

omit [DecidableEq T] in
/-- **The worker is done sooner with every step** it takes after it is told to stop. -/
theorem vlLogWorker_rest {backend : ThreadsBackend} (hstop : s.running = false)
    (henabled : s.worker.enabled backend s = true) : (vlLogWorker s).rest < s.rest := by
  rw [vlLogWorker]
  cases hw : s.worker with
  | pop =>
    dsimp only
    cases hqueue : s.queue with
    | nil => simp [rest, hw, hqueue, LogWorkerPc.rest]
    | cons record queue =>
      -- The record that is popped makes up for the steps it takes to process it.
      simp only [rest, hw, hqueue, LogWorkerPc.rest, List.length_cons]
      rw [Nat.mul_succ]
      omega
  | write record left =>
    cases left with
    | nil => simp [rest, hw, LogWorkerPc.rest]
    | cons sink left => simp [rest, hw, LogWorkerPc.rest]
  | check =>
    dsimp only
    cases hqueue : s.queue with
    | nil => simp [rest, hw, hqueue, hstop, LogWorkerPc.rest]
    | cons record queue => simp [rest, hw, hqueue, LogWorkerPc.rest]
  | exited =>
    rw [hw] at henabled
    cases henabled
  | _ => simp [rest, hw, LogWorkerPc.rest]

/-- The logger while it is drained: it is told to stop, nobody uses it, and what is written and what is
pending are `all` there is to write. -/
structure Draining (all : List (S × LogRecord S)) (s : LoggerState T S) : Prop where
  orderly : s.Orderly
  stopped : s.running = false
  idle : ∀ t, s.pc t = .idle
  left : s.worker.leaving = true → s.queue = []
  all : s.written ++ s.pending = all

omit [DecidableEq T] in
/-- The worker leaves its loop only when the queue is empty. -/
theorem vlLogWorker_left (h : s.worker.leaving = true → s.queue = []) :
    (vlLogWorker s).worker.leaving = true → (vlLogWorker s).queue = [] := by
  rw [vlLogWorker]
  intro hleaving
  cases hw : s.worker with
  | pop =>
    dsimp only
    cases hqueue : s.queue with
    | nil => rfl
    | cons record queue =>
      rw [hw, hqueue] at hleaving
      cases hleaving
  | write record left =>
    rw [hw] at hleaving
    cases left with
    | nil | cons sink left => cases hleaving
  | check =>
    rw [hw] at hleaving
    dsimp only at hleaving ⊢
    by_cases hstop : (!s.running && s.queue.isEmpty) = true
    · obtain ⟨-, hempty⟩ := Bool.and_eq_true _ _ ▸ hstop
      exact List.isEmpty_iff.mp hempty
    · rw [if_neg hstop] at hleaving
      cases hleaving
  | leave => exact h (by rw [hw]; rfl)
  | exited => exact h (by rw [hw]; rfl)
  | _ =>
    rw [hw] at hleaving
    cases hleaving

omit [DecidableEq T] in
/-- The worker moves no client, and does not change `running`. -/
theorem vlLogWorker_frame (s : LoggerState T S) :
    (vlLogWorker s).pc = s.pc ∧ (vlLogWorker s).running = s.running := by
  rw [vlLogWorker]
  cases s.worker with
  | pop => cases s.queue <;> exact ⟨rfl, rfl⟩
  | write record left => cases left <;> exact ⟨rfl, rfl⟩
  | _ => exact ⟨rfl, rfl⟩

omit [DecidableEq T] in
/-- **A step of the drain.** -/
theorem Draining.step {all : List (S × LogRecord S)} (h : s.Draining all) : (vlLogWorker s).Draining all := by
  obtain ⟨hpc, hrunning⟩ := vlLogWorker_frame s
  refine ⟨h.orderly.work, hrunning.trans h.stopped, fun t => ?_, vlLogWorker_left h.left,
    (vlLogWorker_pending s).trans h.all⟩
  rw [hpc]
  exact h.idle t

omit [DecidableEq T] in
/-- **The worker is not blocked** before it has exited. -/
theorem Draining.progress {all : List (S × LogRecord S)} (backend : ThreadsBackend) (h : s.Draining all) :
    s.worker = .exited ∨ s.worker.enabled backend s = true := by
  cases hw : s.worker with
  | exited => exact .inl rfl
  | wait =>
    refine .inr (vlSemaphoreWaitReturns_of_pos backend ?_)
    have hfit := h.orderly.fit
    rw [hw] at hfit
    rcases hfit (.inr h.stopped) with hpos | ⟨t, r, ht⟩
    · exact hpos
    · rw [h.idle t] at ht
      cases ht
  | lock record =>
    have hlock := h.orderly.lock
    rw [hw] at hlock
    exact .inr (by rw [LogWorkerPc.enabled, hlock]; rfl)
  | _ => exact .inr rfl

omit [DecidableEq T] in
/-- **Nothing is pending** when the worker has exited. -/
theorem Draining.exited {all : List (S × LogRecord S)} (h : s.Draining all) (hw : s.worker = .exited) :
    s.queue = [] ∧ s.written = all ∧ ∀ r ∈ s.returned, s.Done r := by
  have hqueue : s.queue = [] := h.left (by rw [hw]; rfl)
  refine ⟨hqueue, ?_, fun r hr => ?_⟩
  · have hall := h.all
    rw [pending, hw, hqueue, List.flatMap_nil, List.append_nil] at hall
    exact (List.append_nil _).symm.trans hall
  · refine (h.orderly.returned r hr).resolve_left ?_
    rw [pipeline, hw, hqueue]
    exact List.not_mem_nil

omit [DecidableEq T] in
/-- What the worker has left is bounded by the records that wait and by the sinks. -/
theorem Orderly.rest_le (h : s.Orderly) : s.rest ≤ (6 + s.sinks.length) * (s.queue.length + 1) + 2 := by
  have hrest : s.worker.rest s.sinks s.queue.isEmpty ≤ 8 + s.sinks.length := by
    have hfit := h.fit
    cases hw : s.worker with
    | write record left =>
      rw [hw] at hfit
      have hle : left.length ≤ s.sinks.length := hfit
      simp only [LogWorkerPc.rest]
      omega
    | check =>
      simp only [LogWorkerPc.rest]
      split_ifs
      · omega
      · omega
    | _ =>
      simp only [LogWorkerPc.rest]
      omega
  rw [rest, Nat.mul_succ]
  omega

end LoggerState

variable [DecidableEq T]

/-- **The drain of a logger** that nobody else uses: once it is told to stop, the worker takes at most a
bounded number of steps and is not blocked until it has exited, so the join of `vlLoggerDelete` returns; and
then the queue is empty, everything that was pending is written, in its order, and every record whose call
had returned is done. -/
theorem vlLoggerDelete_drains {backend : ThreadsBackend} {os : List (LoggerOp T S)} {s s' : LoggerState T S}
    {n : ℕ} (hrun : (loggerMachine backend T S).Run .init os s) (hidle : ∀ t, s.pc t = .idle)
    (hdelete : (loggerMachine backend T S).Run s (.stop :: List.replicate n .worker) s') :
    n ≤ (6 + s.sinks.length) * (s.queue.length + 1) + 2 ∧
      (s'.worker = .exited ∨ s'.worker.enabled backend s' = true) ∧
      (s'.worker = .exited →
        s'.queue = [] ∧ s'.written = s.written ++ s.pending ∧ ∀ r ∈ s'.returned, s'.Done r) := by
  have horderly : s.Orderly := by
    refine hrun.invariant (I := LoggerState.Orderly) ?_ LoggerState.orderly_init
    intro s o s' h hguard hstep
    obtain rfl := Except.ok.inj hstep
    exact h.step hguard
  -- The first step tells the worker to stop; all others are its own.
  obtain _ | ⟨hguard, hstep, hworker⟩ := hdelete
  obtain rfl := Except.ok.inj hstep
  have hdraining : (loggerStep s .stop).Draining (s.written ++ s.pending) := by
    refine ⟨horderly.step hguard, rfl, hidle, fun hleaving => ?_, rfl⟩
    have hfit := horderly.fit
    change s.running = true at hguard
    change s.worker.leaving = true at hleaving
    cases hw : s.worker with
    | leave | exited =>
      rw [hw] at hfit
      exact absurd (hguard.symm.trans hfit) Bool.noConfusion
    | _ =>
      rw [hw] at hleaving
      cases hleaving
  have hend : s'.Draining (s.written ++ s.pending) ∧
      (List.replicate n (LoggerOp.worker : LoggerOp T S)).length + s'.rest ≤ s.rest := by
    refine hworker.ranked (I := LoggerState.Draining (s.written ++ s.pending)) (P := (· = .worker)) ?_
      (fun o ho => (List.mem_replicate.mp ho).2) hdraining
    intro s o s' h ho hguard hstep
    obtain rfl := ho
    obtain rfl := Except.ok.inj hstep
    exact ⟨h.step, LoggerState.vlLogWorker_rest h.stopped hguard⟩
  obtain ⟨hdraining, hlength⟩ := hend
  rw [List.length_replicate] at hlength
  exact ⟨(Nat.le_of_add_right_le hlength).trans horderly.rest_le, hdraining.progress backend,
    hdraining.exited⟩

/-- A message is logged, while the worker is asleep. -/
def messageAsleep : List (LoggerOp Unit Unit) :=
  [.addSink () (), .message () [104, 105], .client (), .client (), .client ()]

/-- The worker wakes up, writes the message, and exits. -/
theorem vlLoggerDelete_drains_asleep : ∃ s s' : LoggerState Unit Unit,
    (loggerMachine .win32 Unit Unit).Run .init messageAsleep s ∧
      (loggerMachine .win32 Unit Unit).Run s (.stop :: List.replicate 11 .worker) s' ∧
        s'.worker = .exited ∧ s'.written = [((), ⟨1, [104, 105], [()]⟩)] := by
  obtain ⟨s, hrun, hs⟩ := Machine.exists_run_of_exec (M := loggerMachine .win32 Unit Unit) (s := .init)
    (p := fun s => decide (s.pc () = .idle ∧ s.written ++ s.pending = [((), ⟨1, [104, 105], [()]⟩)]) &&
      ((loggerMachine .win32 Unit Unit).exec s (.stop :: List.replicate 11 .worker)).any
        fun s' : LoggerState Unit Unit => decide (s'.worker = .exited))
    (show ((loggerMachine .win32 Unit Unit).exec _ messageAsleep).any _ = true by decide +kernel)
  obtain ⟨hs, hexec⟩ := Bool.and_eq_true _ _ ▸ hs
  obtain ⟨hidle, hpending⟩ := of_decide_eq_true hs
  obtain ⟨s', hdelete, hs'⟩ := Machine.exists_run_of_exec hexec
  have hexited := of_decide_eq_true hs'
  obtain ⟨-, hwritten, -⟩ := (vlLoggerDelete_drains hrun (fun _ => hidle) hdelete).2.2 hexited
  exact ⟨s, s', hrun, hdelete, hexited, hwritten.trans hpending⟩

end VeritableLasagna
