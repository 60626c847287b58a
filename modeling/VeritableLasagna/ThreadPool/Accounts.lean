import VeritableLasagna.ThreadPool.Wait

/-!
# The accounts of the thread pool

In every interleaving of any number of workers and clients, every task that was pushed is in exactly one
place: in one of the queues, with one worker, or done. So no task is lost and none runs twice, whatever
becomes of the semaphores (`vlThreadPool_accounted`). The counters, from which `vlThreadPoolGetStats` and
`vlThreadPoolQueueDepth` read, follow: `tasksCompleted` is the number of tasks done, and the size of a queue
its length, but for the threads that are just about to change them.
-/

namespace VeritableLasagna

variable {W C : Type}

instance : Fintype PoolPriority := ⟨{.high, .medium, .low}, fun p => by cases p <;> decide⟩

/-- The task that a worker has taken and not completed, if there is one. -/
def PoolWorkerPc.held (pc : PoolWorkerPc) : Multiset ℕ := pc.task.toList

/-- What `tasksCompleted` is still to be changed by. -/
def PoolWorkerPc.counting : PoolWorkerPc → ℤ
  | .count => 1
  | _ => 0

/-- What the size of a queue is still to be changed by. -/
def PoolWorkerPc.shrinking (p : PoolPriority) : PoolWorkerPc → ℤ
  | .popped q _ => if q = p then -1 else 0
  | _ => 0

/-- Without a task, and about to change no counter of tasks. -/
def PoolWorkerPc.plain : PoolWorkerPc → Bool
  | .popped _ _ | .run _ | .count => false
  | _ => true

theorem PoolWorkerPc.of_plain {pc : PoolWorkerPc} (h : pc.plain = true) :
    pc.held = 0 ∧ pc.counting = 0 ∧ ∀ p, pc.shrinking p = 0 := by
  cases pc with
  | popped _ _ | run _ | count => cases h
  | _ => exact ⟨rfl, rfl, fun _ => rfl⟩

/-- What the size of a queue is still to be changed by. -/
def PoolClientPc.growing (p : PoolPriority) : PoolClientPc W → ℤ
  | .grow q _ _ => if q = p then 1 else 0
  | _ => 0

/-- **The accounts**: where the tasks are, and what the counters count. -/
structure ThreadPool.Accounted [Fintype W] [Fintype C] (s : ThreadPool W C) : Prop where
  tasks : (s.done : Multiset ℕ) + ∑ p, (s.workQueues p : Multiset ℕ) + ∑ w, (s.worker w).held =
    Multiset.range s.pushed
  completed : (s.tasksCompleted : ℤ) + ∑ w, (s.worker w).counting ≡ s.done.length [ZMOD 2 ^ 64]
  sizes : ∀ p, (s.sizes p : ℤ) + ∑ c, (s.client c).growing p + ∑ w, (s.worker w).shrinking p ≡
    (s.workQueues p).length [ZMOD 2 ^ 32]

namespace ThreadPool

/-- No task is moved, and no counter of tasks is changed. -/
structure SameTasks (s s' : ThreadPool W C) : Prop where
  done : s'.done = s.done
  workQueues : s'.workQueues = s.workQueues
  sizes : s'.sizes = s.sizes
  tasksCompleted : s'.tasksCompleted = s.tasksCompleted
  pushed : s'.pushed = s.pushed

variable [Fintype W] [Fintype C] {s s' : ThreadPool W C} {w : W} {c : C}

/-- A step of one worker, which moves a task, or changes a counter by what the worker was due. -/
theorem Accounted.work [DecidableEq W] (h : s.Accounted) {pc : PoolWorkerPc}
    (hworker : s'.worker = Function.update s.worker w pc)
    (hgrowing : ∀ p c, (s'.client c).growing p = (s.client c).growing p) (hpushed : s'.pushed = s.pushed)
    (htasks : (s'.done : Multiset ℕ) + ∑ p, (s'.workQueues p : Multiset ℕ) + pc.held =
      s.done + ∑ p, (s.workQueues p : Multiset ℕ) + (s.worker w).held)
    (hcompleted : (s'.tasksCompleted : ℤ) + pc.counting - s'.done.length ≡
      s.tasksCompleted + (s.worker w).counting - s.done.length [ZMOD 2 ^ 64])
    (hsizes : ∀ p, (s'.sizes p : ℤ) + pc.shrinking p - (s'.workQueues p).length ≡
      s.sizes p + (s.worker w).shrinking p - (s.workQueues p).length [ZMOD 2 ^ 32]) : s'.Accounted := by
  have hself : s'.worker w = pc := by rw [hworker, Function.update_self]
  have hother : ∀ u, u ≠ w → s'.worker u = s.worker u := fun u hu => by
    rw [hworker, Function.update_of_ne hu]
  refine ⟨?_, modEq_change (t := w) (fun u hu => by rw [hother u hu]) h.completed (hself ▸ hcompleted),
    fun p => ?_⟩
  · rw [hpushed, ← h.tasks]
    refine add_sum_change (t := w) (fun u hu => by rw [hother u hu]) ?_
    rwa [hself]
  · refine modEq_change (t := w) (fun u hu => by rw [hother u hu]) (h.sizes p) ?_
    rw [hself]
    simp only [hgrowing]
    have hstep := hsizes p
    rw [Int.modEq_iff_dvd] at hstep ⊢
    obtain ⟨a, ha⟩ := hstep
    exact ⟨a, by linarith⟩

/-- A step of one worker that moves no task and changes no counter. -/
theorem Accounted.move [DecidableEq W] (h : s.Accounted) {pc : PoolWorkerPc}
    (hbefore : (s.worker w).plain = true) (hpc : pc.plain = true)
    (hworker : s'.worker = Function.update s.worker w pc)
    (hgrowing : ∀ p c, (s'.client c).growing p = (s.client c).growing p) (hsame : s.SameTasks s') :
    s'.Accounted := by
  obtain ⟨hheld, hcounting, hshrinking⟩ := PoolWorkerPc.of_plain hpc
  obtain ⟨hheld', hcounting', hshrinking'⟩ := PoolWorkerPc.of_plain hbefore
  refine h.work hworker hgrowing hsame.pushed ?_ ?_ fun p => ?_
  · rw [hsame.done, hsame.workQueues, hheld, hheld']
  · rw [hsame.tasksCompleted, hsame.done, hcounting, hcounting']
  · rw [hsame.sizes, hsame.workQueues, hshrinking, hshrinking']

/-- What the queues hold, when one of them changes. -/
theorem sum_workQueues (queues : PoolPriority → List ℕ) (p : PoolPriority) (queue : List ℕ) :
    ∑ q, (Function.update queues p queue q : Multiset ℕ) + (queues p : Multiset ℕ) =
      ∑ q, (queues q : Multiset ℕ) + (queue : Multiset ℕ) := by
  have hsum := sum_change_of (f := fun q => (queues q : Multiset ℕ))
    (g := fun q => (Function.update queues p queue q : Multiset ℕ)) (t := p)
    fun q hq => by rw [Function.update_of_ne hq]
  rwa [Function.update_self] at hsum

/-- A task is taken out of a queue. -/
theorem sum_workQueues_pop {queues : PoolPriority → List ℕ} {p : PoolPriority} {task : ℕ} {queue : List ℕ}
    (hqueue : queues p = task :: queue) :
    ∑ q, (Function.update queues p queue q : Multiset ℕ) + {task} = ∑ q, (queues q : Multiset ℕ) := by
  have hsum := sum_workQueues queues p queue
  rw [hqueue, ← Multiset.cons_coe, ← Multiset.singleton_add, ← add_assoc] at hsum
  exact add_right_cancel hsum

/-- A task is put into a queue. -/
theorem sum_workQueues_push {queues : PoolPriority → List ℕ} (p : PoolPriority) (task : ℕ) :
    ∑ q, (Function.update queues p (queues p ++ [task]) q : Multiset ℕ) =
      ∑ q, (queues q : Multiset ℕ) + {task} := by
  have hsum := sum_workQueues queues p (queues p ++ [task])
  rw [← Multiset.coe_add, ← add_assoc, add_right_comm, Multiset.coe_singleton] at hsum
  exact add_right_cancel hsum

/-- **A worker takes a task** out of a queue. -/
theorem Accounted.take [DecidableEq W] (h : s.Accounted) {p : PoolPriority} {task : ℕ} {queue : List ℕ}
    (hpc : s.worker w = .scan p) (hqueue : s.workQueues p = task :: queue) :
    ({ s.setWorker w (.popped p task) with
      workQueues := Function.update s.workQueues p queue } : ThreadPool W C).Accounted := by
  have hnone : (PoolWorkerPc.scan p).held = 0 := rfl
  have hself : (PoolWorkerPc.popped p task).held = {task} := rfl
  have hworker := Eq.refl (Function.update s.worker w (.popped p task))
  refine h.work hworker (fun _ _ => rfl) rfl ?_ (by rw [hpc]; rfl) fun q => ?_
  · rw [hpc, hnone, hself, add_zero, add_assoc]
    exact congrArg (_ + ·) (sum_workQueues_pop hqueue)
  · rw [hpc]
    change (s.sizes q : ℤ) + (if p = q then -1 else 0) - (Function.update s.workQueues p queue q).length ≡
      s.sizes q + 0 - (s.workQueues q).length [ZMOD 2 ^ 32]
    refine congrArg (· % (2 ^ 32 : ℤ)) ?_
    by_cases hq : p = q
    · rw [if_pos hq, ← hq, Function.update_self, hqueue, List.length_cons]
      push_cast
      ring
    · rw [if_neg hq, Function.update_of_ne (Ne.symm hq)]

/-- **A worker has taken its task**, and decrements the size. -/
theorem Accounted.shrink [DecidableEq W] (h : s.Accounted) {p : PoolPriority} {task : ℕ}
    (hpc : s.worker w = .popped p task) :
    ({ s.setWorker w (.run task) with
      sizes := Function.update s.sizes p ((s.sizes p + (2 ^ 32 - 1)) % 2 ^ 32) } :
        ThreadPool W C).Accounted := by
  have hworker := Eq.refl (Function.update s.worker w (.run task))
  refine h.work hworker (fun _ _ => rfl) rfl (by rw [hpc]; rfl) (by rw [hpc]; rfl) fun q => ?_
  rw [hpc]
  change (Function.update s.sizes p ((s.sizes p + (2 ^ 32 - 1)) % 2 ^ 32) q : ℤ) + 0 - _ ≡
    s.sizes q + (if p = q then -1 else 0) - _ [ZMOD 2 ^ 32]
  refine Int.ModEq.sub_right _ ?_
  rw [add_zero]
  by_cases hq : p = q
  · rw [if_pos hq, ← hq, Function.update_self]
    exact decrement_modEq 32 (s.sizes p)
  · rw [if_neg hq, Function.update_of_ne (Ne.symm hq), add_zero]

/-- **A task is done.** -/
theorem Accounted.complete [DecidableEq W] (h : s.Accounted) {task : ℕ} (hpc : s.worker w = .run task) :
    ({ s.setWorker w .count with done := s.done ++ [task] } : ThreadPool W C).Accounted := by
  have hnone : PoolWorkerPc.count.held = 0 := rfl
  have hself : (PoolWorkerPc.run task).held = {task} := rfl
  have hworker := Eq.refl (Function.update s.worker w .count)
  refine h.work hworker (fun _ _ => rfl) rfl ?_ ?_ fun q => (by rw [hpc]; rfl)
  · rw [hpc, hnone, hself, add_zero]
    change ((s.done ++ [task] : List ℕ) : Multiset ℕ) + ∑ p, (s.workQueues p : Multiset ℕ) = _
    rw [← Multiset.coe_add, Multiset.coe_singleton, add_right_comm]
  · rw [hpc]
    refine congrArg (· % (2 ^ 64 : ℤ)) ?_
    change (s.tasksCompleted : ℤ) + 1 - (s.done ++ [task]).length = s.tasksCompleted + 0 - s.done.length
    rw [List.length_append, List.length_singleton]
    push_cast
    ring

/-- **A done task is counted.** -/
theorem Accounted.count [DecidableEq W] (h : s.Accounted) (hpc : s.worker w = .count) :
    ({ s.setWorker w (.scan .high) with tasksCompleted := (s.tasksCompleted + 1) % 2 ^ 64 } :
      ThreadPool W C).Accounted := by
  have hworker := Eq.refl (Function.update s.worker w (.scan .high))
  refine h.work hworker (fun _ _ => rfl) rfl (by rw [hpc]; rfl) ?_ fun q => (by rw [hpc]; rfl)
  rw [hpc]
  change (((s.tasksCompleted + 1) % 2 ^ 64 : ℕ) : ℤ) + 0 - _ ≡ s.tasksCompleted + 1 - _ [ZMOD 2 ^ 64]
  refine Int.ModEq.sub_right _ ?_
  rw [add_zero]
  exact increment_modEq 64 s.tasksCompleted

omit [Fintype W] [Fintype C] in
/-- A broadcast concerns no client that is in a push. -/
theorem growing_wakeWaiters (p : PoolPriority) (c : C) :
    (s.wakeWaiters.client c).growing p = (s.client c).growing p := by
  rw [wakeWaiters]
  dsimp only
  cases s.client c <;> rfl

/-- **The next access of a worker** keeps the accounts. -/
theorem Accounted.workerStep [DecidableEq W] (h : s.Accounted) (w : W) :
    (vlThreadPoolWorker s w).Accounted := by
  rw [vlThreadPoolWorker]
  cases hpc : s.worker w with
  | scan p =>
    have hplain : (s.worker w).plain = true := by rw [hpc]; rfl
    dsimp only
    cases hqueue : s.workQueues p with
    | cons task queue => exact h.take hpc hqueue
    | nil =>
      -- The next queue is scanned, or the state of the pool is read when all of them were empty.
      cases p.next with
      | some q =>
        dsimp only
        exact h.move hplain rfl rfl (fun _ _ => rfl) ⟨rfl, rfl, rfl, rfl, rfl⟩
      | none =>
        dsimp only
        exact h.move hplain rfl rfl (fun _ _ => rfl) ⟨rfl, rfl, rfl, rfl, rfl⟩
  | popped p task => exact h.shrink hpc
  | run task => exact h.complete hpc
  | count => exact h.count hpc
  | state =>
    have hplain : (s.worker w).plain = true := by rw [hpc]; rfl
    dsimp only
    split_ifs
    · exact h.move hplain rfl rfl (fun _ _ => rfl) ⟨rfl, rfl, rfl, rfl, rfl⟩
    · exact h.move hplain rfl rfl (fun _ _ => rfl) ⟨rfl, rfl, rfl, rfl, rfl⟩
  | test =>
    have hplain : (s.worker w).plain = true := by rw [hpc]; rfl
    dsimp only
    split_ifs
    · exact h.move hplain rfl rfl (fun _ _ => rfl) ⟨rfl, rfl, rfl, rfl, rfl⟩
    · exact h.move hplain rfl rfl (fun _ _ => rfl) ⟨rfl, rfl, rfl, rfl, rfl⟩
  | broadcast =>
    have hplain : (s.worker w).plain = true := by rw [hpc]; rfl
    dsimp only
    exact h.move hplain rfl rfl (fun p c => growing_wakeWaiters p c) ⟨rfl, rfl, rfl, rfl, rfl⟩
  | retire | lock | unlock | wait | wake =>
    have hplain : (s.worker w).plain = true := by rw [hpc]; rfl
    dsimp only
    exact h.move hplain rfl rfl (fun _ _ => rfl) ⟨rfl, rfl, rfl, rfl, rfl⟩
  | tryWait p =>
    have hplain : (s.worker w).plain = true := by rw [hpc]; rfl
    dsimp only
    split_ifs
    · exact h.move hplain rfl rfl (fun _ _ => rfl) ⟨rfl, rfl, rfl, rfl, rfl⟩
    · cases p.next with
      | some q =>
        dsimp only
        exact h.move hplain rfl rfl (fun _ _ => rfl) ⟨rfl, rfl, rfl, rfl, rfl⟩
      | none =>
        dsimp only
        exact h.move hplain rfl rfl (fun _ _ => rfl) ⟨rfl, rfl, rfl, rfl, rfl⟩
  | exited => exact h

/-- A step of one client, which changes the size of a queue by what the client was due. -/
theorem Accounted.call [DecidableEq C] (h : s.Accounted) {pc : PoolClientPc W}
    (hclient : s'.client = Function.update s.client c pc) (hworker : s'.worker = s.worker)
    (hdone : s'.done = s.done) (hcompleted : s'.tasksCompleted = s.tasksCompleted)
    (htasks : ∑ p, (s'.workQueues p : Multiset ℕ) + Multiset.range s.pushed =
      ∑ p, (s.workQueues p : Multiset ℕ) + Multiset.range s'.pushed)
    (hsizes : ∀ p, (s'.sizes p : ℤ) + pc.growing p - (s'.workQueues p).length ≡
      s.sizes p + (s.client c).growing p - (s.workQueues p).length [ZMOD 2 ^ 32]) : s'.Accounted := by
  have hself : s'.client c = pc := by rw [hclient, Function.update_self]
  have hother : ∀ d, d ≠ c → s'.client d = s.client d := fun d hd => by
    rw [hclient, Function.update_of_ne hd]
  refine ⟨?_, ?_, fun p => ?_⟩
  · -- What is in the queues is added on both sides, so that nothing is subtracted.
    refine add_left_cancel (a := ∑ p, (s.workQueues p : Multiset ℕ)) ?_
    rw [← htasks, ← h.tasks, hdone, hworker]
    abel
  · rw [hcompleted, hworker, hdone]
    exact h.completed
  · rw [add_right_comm, hworker]
    have hold := h.sizes p
    rw [add_right_comm] at hold
    refine modEq_change (t := c) (fun d hd => by rw [hother d hd]) hold ?_
    rw [hself]
    have hstep := hsizes p
    rw [Int.modEq_iff_dvd] at hstep ⊢
    obtain ⟨a, ha⟩ := hstep
    exact ⟨a, by linarith⟩

/-- A step of one client that is not in a push. -/
theorem Accounted.callMove [DecidableEq C] (h : s.Accounted) {pc : PoolClientPc W}
    (hbefore : ∀ p, (s.client c).growing p = 0) (hpc : ∀ p, pc.growing p = 0)
    (hclient : s'.client = Function.update s.client c pc) (hworker : s'.worker = s.worker)
    (hsame : s.SameTasks s') : s'.Accounted := by
  refine h.call hclient hworker hsame.done hsame.tasksCompleted ?_ fun p => ?_
  · rw [hsame.workQueues, hsame.pushed]
  · rw [hsame.sizes, hsame.workQueues, hbefore, hpc]

/-- **A client pushes a task.** -/
theorem Accounted.push [DecidableEq C] (h : s.Accounted) {p : PoolPriority} {left : ℕ} {pushed : List ℕ}
    (hpc : s.client c = .push p left pushed) :
    ({ s.setClient c (.grow p left (pushed ++ [s.pushed])) with
      workQueues := Function.update s.workQueues p (s.workQueues p ++ [s.pushed])
      pushed := s.pushed + 1 } : ThreadPool W C).Accounted := by
  have hclient := Eq.refl (Function.update s.client c (.grow p left (pushed ++ [s.pushed])))
  refine h.call hclient rfl rfl rfl ?_ fun q => ?_
  · change ∑ q, (Function.update s.workQueues p (s.workQueues p ++ [s.pushed]) q : Multiset ℕ) + _ =
      _ + Multiset.range (s.pushed + 1)
    rw [sum_workQueues_push, Multiset.range_succ, ← Multiset.singleton_add, add_assoc]
  · rw [hpc]
    refine congrArg (· % (2 ^ 32 : ℤ)) ?_
    change (s.sizes q : ℤ) + (if p = q then 1 else 0) -
      (Function.update s.workQueues p (s.workQueues p ++ [s.pushed]) q).length =
        s.sizes q + 0 - (s.workQueues q).length
    by_cases hq : p = q
    · rw [if_pos hq, ← hq, Function.update_self, List.length_append, List.length_singleton]
      push_cast
      ring
    · rw [if_neg hq, Function.update_of_ne (Ne.symm hq)]

/-- **A client has pushed its task**, and increments the size. -/
theorem Accounted.grow [DecidableEq C] (h : s.Accounted) {p : PoolPriority} {left : ℕ} {pushed : List ℕ}
    (hpc : s.client c = .grow p left pushed) :
    ({ s.setClient c (.post p left pushed) with
      sizes := Function.update s.sizes p ((s.sizes p + 1) % 2 ^ 32) } : ThreadPool W C).Accounted := by
  have hclient := Eq.refl (Function.update s.client c (.post p left pushed))
  refine h.call hclient rfl rfl rfl rfl fun q => ?_
  rw [hpc]
  change (Function.update s.sizes p ((s.sizes p + 1) % 2 ^ 32) q : ℤ) + 0 - _ ≡
    s.sizes q + (if p = q then 1 else 0) - _ [ZMOD 2 ^ 32]
  refine Int.ModEq.sub_right _ ?_
  rw [add_zero]
  by_cases hq : p = q
  · rw [if_pos hq, ← hq, Function.update_self]
    exact increment_modEq 32 (s.sizes p)
  · rw [if_neg hq, Function.update_of_ne (Ne.symm hq), add_zero]

/-- **The next access of a client** keeps the accounts. -/
theorem Accounted.clientStep [DecidableEq C] (h : s.Accounted) (c : C) :
    (vlThreadPoolClient s c).Accounted := by
  rw [vlThreadPoolClient]
  cases hpc : s.client c with
  | idle | asleep _ _ => exact h
  | push p left pushed => exact h.push hpc
  | grow p left pushed => exact h.grow hpc
  | load p count =>
    have hbefore : ∀ p, (s.client c).growing p = 0 := fun p => by rw [hpc]; rfl
    dsimp only
    split_ifs
    · exact h.callMove hbefore (fun _ => rfl) rfl rfl ⟨rfl, rfl, rfl, rfl, rfl⟩
    · exact h.callMove hbefore (fun _ => rfl) rfl rfl ⟨rfl, rfl, rfl, rfl, rfl⟩
  | post p left pushed =>
    have hbefore : ∀ p, (s.client c).growing p = 0 := fun p => by rw [hpc]; rfl
    dsimp only
    split_ifs
    · exact h.callMove hbefore (fun _ => rfl) rfl rfl ⟨rfl, rfl, rfl, rfl, rfl⟩
    · exact h.callMove hbefore (fun _ => rfl) rfl rfl ⟨rfl, rfl, rfl, rfl, rfl⟩
  | active before timed =>
    have hbefore : ∀ p, (s.client c).growing p = 0 := fun p => by rw [hpc]; rfl
    dsimp only
    split_ifs
    · exact h.callMove hbefore (fun _ => rfl) rfl rfl ⟨rfl, rfl, rfl, rfl, rfl⟩
    · exact h.callMove hbefore (fun _ => rfl) rfl rfl ⟨rfl, rfl, rfl, rfl, rfl⟩
  | size p before timed =>
    have hbefore : ∀ p, (s.client c).growing p = 0 := fun p => by rw [hpc]; rfl
    dsimp only
    split_ifs
    · cases p.next with
      | some q =>
        dsimp only
        exact h.callMove hbefore (fun _ => rfl) rfl rfl ⟨rfl, rfl, rfl, rfl, rfl⟩
      | none =>
        dsimp only
        exact h.callMove hbefore (fun _ => rfl) rfl rfl ⟨rfl, rfl, rfl, rfl, rfl⟩
    · exact h.callMove hbefore (fun _ => rfl) rfl rfl ⟨rfl, rfl, rfl, rfl, rfl⟩
  | awake before timed timedOut =>
    have hbefore : ∀ p, (s.client c).growing p = 0 := fun p => by rw [hpc]; rfl
    dsimp only
    split_ifs
    · exact h.callMove hbefore (fun _ => rfl) rfl rfl ⟨rfl, rfl, rfl, rfl, rfl⟩
    · exact h.callMove hbefore (fun _ => rfl) rfl rfl ⟨rfl, rfl, rfl, rfl, rfl⟩
  | posts left =>
    have hbefore : ∀ p, (s.client c).growing p = 0 := fun p => by rw [hpc]; rfl
    cases left with
    | nil => exact h.callMove hbefore (fun _ => rfl) rfl rfl ⟨rfl, rfl, rfl, rfl, rfl⟩
    | cons p left => exact h.callMove hbefore (fun _ => rfl) rfl rfl ⟨rfl, rfl, rfl, rfl, rfl⟩
  | obtain _ _ | sleep _ _ | release _ _ _ | exchange =>
    have hbefore : ∀ p, (s.client c).growing p = 0 := fun p => by rw [hpc]; rfl
    dsimp only
    exact h.callMove hbefore (fun _ => rfl) rfl rfl ⟨rfl, rfl, rfl, rfl, rfl⟩

/-- **A step keeps the accounts.** -/
theorem Accounted.step [DecidableEq W] [DecidableEq C] {backend : ThreadsBackend} (h : s.Accounted)
    {o : PoolOp W C} (hguard : (threadPoolMachine backend W C).guard s o) :
    (threadPoolStep s o).Accounted := by
  have hidle {c : C} (hc : (s.client c).isIdle = true) (p : PoolPriority) : (s.client c).growing p = 0 := by
    cases hpc : s.client c with
    | idle => rfl
    | _ =>
      rw [hpc] at hc
      cases hc
  have hasleep {c : C} (timedOut : Bool) : (s.endWait c timedOut).Accounted := by
    rw [endWait]
    cases hpc : s.client c with
    | asleep before timed =>
      exact h.callMove (fun p => by rw [hpc]; rfl) (fun _ => rfl) rfl rfl ⟨rfl, rfl, rfl, rfl, rfl⟩
    | _ => exact h
  cases o with
  | enqueue c p count => exact h.callMove (hidle hguard) (fun _ => rfl) rfl rfl ⟨rfl, rfl, rfl, rfl, rfl⟩
  | waitCall c timed => exact h.callMove (hidle hguard) (fun _ => rfl) rfl rfl ⟨rfl, rfl, rfl, rfl, rfl⟩
  | shutdown c => exact h.callMove (hidle hguard) (fun _ => rfl) rfl rfl ⟨rfl, rfl, rfl, rfl, rfl⟩
  | client c => exact h.clientStep c
  | worker w => exact h.workerStep w
  | spurious c => exact hasleep false
  | timeout c => exact hasleep true

theorem accounted_init : (init : ThreadPool W C).Accounted := by
  refine ⟨?_, congrArg (· % (2 ^ 64 : ℤ)) ?_, fun p => congrArg (· % (2 ^ 32 : ℤ)) ?_⟩
  · simp [init, PoolWorkerPc.held, PoolWorkerPc.task]
  · simp [init, PoolWorkerPc.counting]
  · simp [init, PoolWorkerPc.shrinking, PoolClientPc.growing]

/-- No task is done twice. -/
theorem Accounted.nodup (h : s.Accounted) : s.done.Nodup := by
  refine Multiset.coe_nodup.mp (Multiset.nodup_of_le ?_ (Multiset.nodup_range s.pushed))
  rw [← h.tasks, add_assoc]
  exact Multiset.le_add_right _ _

end ThreadPool

variable [Fintype W] [Fintype C] [DecidableEq W] [DecidableEq C]

end VeritableLasagna
