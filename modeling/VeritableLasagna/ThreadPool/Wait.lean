import VeritableLasagna.Lib.Threads
import VeritableLasagna.ThreadPool.Basic

/-!
# Waiting for the thread pool

`vlThreadPoolWait` loads the number of active workers and then, one after the other, the size
counters of the three queues. It decides that the pool is idle when all four are zero, each at its
own moment: a worker that wakes up after the first load takes a task out of a queue before that
queue's size is loaded, and a size counter lags behind its queue.

`PoolOp.truthful` is the condition that the loads do not mislead: a size found zero belongs to an
empty queue, and the number of active workers is still zero when the last size is loaded.
`vlThreadPoolWait_barrier` shows that it is enough, on every run.
-/

namespace VeritableLasagna

/-- The task that a worker has taken and not completed. -/
def PoolWorkerPc.task : PoolWorkerPc → Option ℕ
  | .popped _ task | .run task => some task
  | _ => none

variable {W C : Type}

/-- A wait that was called when the first task had been enqueued has decided for TRUE. -/
def PoolClientPc.released : PoolClientPc W → Bool
  | .release true [0] _ => true
  | _ => false

theorem PoolClientPc.released_iff {pc : PoolClientPc W} :
    pc.released = true ↔ ∃ workers, pc = .release true [0] workers := by
  constructor
  · intro h
    rw [released.eq_def] at h
    split at h
    next workers => exact ⟨workers, rfl⟩
    next => cases h
  · rintro ⟨workers, rfl⟩
    rfl

/-- **The completion barrier**: when a wait has decided for TRUE, every task whose enqueue call had
returned before the wait was called is done, and at the decision no worker had a task. -/
def ThreadPool.WaitBarrier (s : ThreadPool W C) : Prop :=
  ∀ c before workers, s.client c = .release true before workers →
    (∀ task ∈ before, task ∈ s.done) ∧ ∀ w, (workers w).task = none

/-- Whether the load of a size that is zero finds its queue empty and, if it is the last one, no
worker active. -/
def PoolClientPc.truthful (s : ThreadPool W C) : PoolClientPc W → Prop
  | .size p _ _ => s.sizes p = 0 → s.workQueues p = [] ∧ (p = .low → s.activeWorkers = 0)
  | _ => True

/-- Whether the next access of a waiting client is not misled. -/
def PoolOp.truthful (s : ThreadPool W C) : PoolOp W C → Prop
  | .client c => (s.client c).truthful s
  | _ => True

/-- The machine restricted to truthful operations. -/
def truthfulPoolMachine (backend : ThreadsBackend) (W C : Type) [DecidableEq W] [DecidableEq C]
    [Fintype W] : Machine (ThreadPool W C) (PoolOp W C) where
  guard s o := (threadPoolMachine backend W C).guard s o ∧ o.truthful s
  step := (threadPoolMachine backend W C).step

instance (s : ThreadPool W C) : ∀ pc : PoolClientPc W, Decidable (pc.truthful s)
  | .size p _ _ => inferInstanceAs (Decidable
      (s.sizes p = 0 → s.workQueues p = [] ∧ (p = .low → s.activeWorkers = 0)))
  | .idle | .load _ _ | .push _ _ _ | .grow _ _ _ | .post _ _ _ | .obtain _ _ | .active _ _
  | .sleep _ _ | .asleep _ _ | .awake _ _ _ | .release _ _ _ | .exchange | .posts _ =>
    inferInstanceAs (Decidable True)

instance (s : ThreadPool W C) : ∀ o : PoolOp W C, Decidable (o.truthful s)
  | .client c => inferInstanceAs (Decidable ((s.client c).truthful s))
  | .enqueue _ _ _ | .waitCall _ _ | .shutdown _ | .worker _ | .spurious _ | .timeout _ =>
    inferInstanceAs (Decidable True)

instance [DecidableEq W] [DecidableEq C] [Fintype W] (backend : ThreadsBackend)
    (s : ThreadPool W C) (o : PoolOp W C) :
    Decidable ((truthfulPoolMachine backend W C).guard s o) :=
  inferInstanceAs (Decidable ((threadPoolMachine backend W C).guard s o ∧ o.truthful s))

/-! ### Where the tasks are -/

/-- Whether `active_workers` counts a worker. -/
def PoolWorkerPc.counted : PoolWorkerPc → ℕ
  | .scan _ | .popped _ _ | .run _ | .count | .state | .retire | .exited => 1
  | .lock | .test | .broadcast | .unlock | .tryWait _ | .wait | .wake => 0

namespace ThreadPool

variable {s s' : ThreadPool W C} {task : ℕ} {w : W} {c : C}

/-- A pushed task is in a queue, with a worker, or done. -/
def Located (s : ThreadPool W C) (task : ℕ) : Prop :=
  task < s.pushed ∧ ((∃ p, task ∈ s.workQueues p) ∨ (∃ w, (s.worker w).task = some task) ∨
    task ∈ s.done)

/-- What holds where a client stands. -/
def ClientOk (s : ThreadPool W C) : PoolClientPc W → Prop
  | .push _ _ tasks | .grow _ _ tasks | .post _ _ tasks | .obtain tasks _ | .active tasks _
  | .sleep tasks _ | .asleep tasks _ | .awake tasks _ _ => ∀ task ∈ tasks, s.Located task
  | .size p before _ => ∀ task ∈ before, s.Located task ∧
      ∀ q, q.index < p.index → task ∉ s.workQueues q
  | .release result before workers => result = true →
      (∀ task ∈ before, task ∈ s.done) ∧ ∀ w, (workers w).task = none
  | .idle | .load _ _ | .exchange | .posts _ => True

/-- The invariant of truthful runs. -/
structure Tracked [Fintype W] (s : ThreadPool W C) : Prop where
  active : s.activeWorkers = ∑ w, (s.worker w).counted
  returned : ∀ task ∈ s.returned, s.Located task
  client : ∀ c, s.ClientOk (s.client c)

theorem Tracked.barrier [Fintype W] (h : s.Tracked) : s.WaitBarrier := by
  intro c before workers hc
  have := h.client c
  rw [hc] at this
  exact this rfl

/-- One state follows another: no task is lost, and only new tasks enter the queues. -/
structure Follows (s s' : ThreadPool W C) : Prop where
  located : ∀ task, s.Located task → s'.Located task
  done : s.done ⊆ s'.done
  fresh : ∀ task q, task < s.pushed → task ∈ s'.workQueues q → task ∈ s.workQueues q

/-- What holds of a client goes on to hold. -/
theorem Follows.clientOk (h : s.Follows s') {pc : PoolClientPc W} (hpc : s.ClientOk pc) :
    s'.ClientOk pc := by
  cases pc with
  | push _ _ tasks | grow _ _ tasks | post _ _ tasks | obtain tasks _ | active tasks _
  | sleep tasks _ | asleep tasks _ | awake tasks _ _ =>
    exact fun task htask => h.located task (hpc task htask)
  | size p before timed =>
    intro task htask
    obtain ⟨hlocated, hread⟩ := hpc task htask
    exact ⟨h.located task hlocated, fun q hq hmem => hread q hq (h.fresh task q hlocated.1 hmem)⟩
  | release result before workers =>
    intro hresult
    exact ⟨fun task htask => h.done ((hpc hresult).1 task htask), (hpc hresult).2⟩
  | idle | load _ _ | exchange | posts _ => trivial

/-- A step that changes neither tasks nor workers. -/
theorem follows_of_eq (hqueues : s'.workQueues = s.workQueues) (hworker : s'.worker = s.worker)
    (hdone : s'.done = s.done) (hpushed : s'.pushed = s.pushed) : s.Follows s' := by
  refine ⟨fun task htask => ?_, hdone ▸ List.Subset.refl _, fun task q _ hmem => hqueues ▸ hmem⟩
  rw [Located, hqueues, hworker, hdone, hpushed]
  exact htask

/-- A step that moves one worker, with the same task in its hands. -/
theorem follows_of_worker (hqueues : s'.workQueues = s.workQueues)
    (hother : ∀ u, u ≠ w → s'.worker u = s.worker u)
    (htask : (s'.worker w).task = (s.worker w).task) (hdone : s'.done = s.done)
    (hpushed : s'.pushed = s.pushed) : s.Follows s' := by
  refine ⟨fun task ⟨hlt, hmem⟩ => ⟨hpushed ▸ hlt, ?_⟩, hdone ▸ List.Subset.refl _,
    fun task q _ hmem => hqueues ▸ hmem⟩
  rw [hqueues, hdone]
  refine hmem.imp_right fun hmem => hmem.imp_left fun ⟨u, hu⟩ => ⟨u, ?_⟩
  by_cases huw : u = w
  · rw [huw, htask, ← huw, hu]
  · rw [hother u huw, hu]

/-- The step of a worker that takes the first task out of a queue. -/
theorem follows_of_take {p : PoolPriority} {queue : List ℕ} [DecidableEq W]
    (hqueue : s.workQueues p = task :: queue) (hnone : (s.worker w).task = none) :
    s.Follows { s.setWorker w (.popped p task) with
      workQueues := Function.update s.workQueues p queue } := by
  have htaken : ∀ q x, x ∈ Function.update s.workQueues p queue q → x ∈ s.workQueues q := by
    intro q x hx
    by_cases hq : q = p
    · rw [hq, Function.update_self] at hx
      rw [hq, hqueue]
      exact List.mem_cons_of_mem _ hx
    · rwa [Function.update_of_ne hq] at hx
  refine ⟨fun x ⟨hlt, hmem⟩ => ⟨hlt, ?_⟩, List.Subset.refl _, fun x q _ hx => htaken q x hx⟩
  have hworker : ∀ u x, (s.worker u).task = some x → ((s.setWorker w (.popped p task)).worker u).task
      = some x := by
    intro u x hu
    have huw : u ≠ w := by
      rintro rfl
      rw [hnone] at hu
      cases hu
    rwa [setWorker_worker_of_ne huw]
  rcases hmem with ⟨q, hq⟩ | ⟨u, hu⟩ | hdone
  · by_cases hqp : q = p
    · rw [hqp, hqueue] at hq
      rcases List.mem_cons.mp hq with rfl | hq
      · refine Or.inr (Or.inl ⟨w, ?_⟩)
        change ((s.setWorker w (.popped p x)).worker w).task = some x
        rw [setWorker_worker_self]
        rfl
      · refine Or.inl ⟨p, ?_⟩
        simpa using hq
    · refine Or.inl ⟨q, ?_⟩
      simpa [Function.update_of_ne hqp] using hq
  · exact Or.inr (Or.inl ⟨u, hworker u x hu⟩)
  · exact Or.inr (Or.inr hdone)

/-- The step of a worker whose task completes. -/
theorem follows_of_complete [DecidableEq W] (htask : (s.worker w).task = some task) :
    s.Follows { s.setWorker w .count with done := s.done ++ [task] } := by
  refine ⟨fun x ⟨hlt, hmem⟩ => ⟨hlt, ?_⟩, List.subset_append_left _ _, fun x q _ hx => hx⟩
  rcases hmem with hqueue | ⟨u, hu⟩ | hdone
  · exact Or.inl hqueue
  · by_cases huw : u = w
    · obtain rfl : task = x := Option.some_injective _ (htask.symm.trans (huw ▸ hu))
      exact Or.inr (Or.inr (List.mem_append_right _ (List.mem_singleton_self _)))
    · refine Or.inr (Or.inl ⟨u, ?_⟩)
      change ((s.setWorker w .count).worker u).task = some x
      rwa [setWorker_worker_of_ne huw]
  · exact Or.inr (Or.inr (List.mem_append_left _ hdone))

variable [Fintype W]

/-- A step that loses no task and changes no client's obligations. -/
theorem Tracked.keep (h : s.Tracked) (hfollows : s.Follows s')
    (hactive : s'.activeWorkers = ∑ w, (s'.worker w).counted) (hreturned : s'.returned = s.returned)
    (hclient : ∀ c, s.ClientOk (s'.client c)) : s'.Tracked where
  active := hactive
  returned task htask := hfollows.located task (h.returned task (hreturned ▸ htask))
  client c := hfollows.clientOk (hclient c)

theorem counted_le (pc : PoolWorkerPc) : pc.counted ≤ 1 := by
  cases pc <;> simp [PoolWorkerPc.counted]

theorem sum_counted_le (worker : W → PoolWorkerPc) :
    ∑ w, (worker w).counted ≤ Fintype.card W := by
  have hle := Finset.sum_le_card_nsmul Finset.univ (fun w => (worker w).counted) 1
    fun w _ => counted_le _
  simpa using hle

/-- **Step rule of a worker**. -/
theorem Tracked.work [DecidableEq W] (hcard : Fintype.card W < 2 ^ 32) (h : s.Tracked) :
    (vlThreadPoolWorker s w).Tracked := by
  have hactive := h.active
  have hbound := sum_counted_le s.worker
  have hsum (pc : PoolWorkerPc) : ∑ u, ((s.setWorker w pc).worker u).counted +
      (s.worker w).counted = ∑ u, (s.worker u).counted + pc.counted := by
    have := sum_change (f := fun u => (s.worker u).counted)
      (g := fun u => ((s.setWorker w pc).worker u).counted) (t := w)
      fun u hu => by rw [setWorker_worker_of_ne hu]
    rwa [setWorker_worker_self] at this
  have hother (pc : PoolWorkerPc) : ∀ u, u ≠ w → (s.setWorker w pc).worker u = s.worker u :=
    fun u hu => setWorker_worker_of_ne hu s pc
  -- A worker that neither takes nor completes a task, nor is counted differently.
  have hmove {s' : ThreadPool W C} {pc : PoolWorkerPc} (hcounted : pc.counted = (s.worker w).counted)
      (htask : pc.task = (s.worker w).task) (hqueues : s'.workQueues = s.workQueues)
      (hworker : s'.worker = (s.setWorker w pc).worker) (hdone : s'.done = s.done)
      (hpushed : s'.pushed = s.pushed) (hactives : s'.activeWorkers = s.activeWorkers)
      (hreturned : s'.returned = s.returned) (hclient : ∀ c, s.ClientOk (s'.client c)) :
      s'.Tracked := by
    refine h.keep (follows_of_worker (w := w) hqueues ?_ ?_ hdone hpushed) ?_ hreturned hclient
    · rw [hworker]
      exact hother pc
    · rw [hworker, setWorker_worker_self, htask]
    · have := hsum pc
      rw [hactives, hworker]
      omega
  rw [vlThreadPoolWorker]
  split
  next p hpc =>
    split
    next task queue hq =>
      refine h.keep (follows_of_take hq (by rw [hpc]; rfl)) ?_ rfl h.client
      have := hsum (.popped p task)
      rw [hpc] at this
      exact hactive.trans (Nat.add_right_cancel this).symm
    next hq =>
      split
      next p' _ => exact hmove (by rw [hpc]; rfl) (by rw [hpc]; rfl) rfl rfl rfl rfl rfl rfl h.client
      next => exact hmove (by rw [hpc]; rfl) (by rw [hpc]; rfl) rfl rfl rfl rfl rfl rfl h.client
  next p task hpc =>
    exact hmove (by rw [hpc]; rfl) (by rw [hpc]; rfl) rfl rfl rfl rfl rfl rfl h.client
  next task hpc =>
    refine h.keep (follows_of_complete (by rw [hpc]; rfl)) ?_ rfl h.client
    have := hsum .count
    rw [hpc] at this
    exact hactive.trans (Nat.add_right_cancel this).symm
  next hpc => exact hmove (by rw [hpc]; rfl) (by rw [hpc]; rfl) rfl rfl rfl rfl rfl rfl h.client
  next hpc =>
    refine hmove ?_ ?_ rfl rfl rfl rfl rfl rfl h.client
    · rw [hpc]
      split_ifs <;> rfl
    · rw [hpc]
      split_ifs <;> rfl
  next hpc =>
    -- The worker was counted, so the decrement does not wrap.
    refine h.keep (follows_of_worker (w := w) rfl (hother .lock) (by simp [hpc, PoolWorkerPc.task])
      rfl rfl) ?_ rfl h.client
    have hdrop := hsum .lock
    rw [hpc] at hdrop
    change _ + 1 = _ + 0 at hdrop
    change (s.activeWorkers + (2 ^ 32 - 1)) % 2 ^ 32 = ∑ u, ((s.setWorker w .lock).worker u).counted
    omega
  next hpc => exact hmove (by rw [hpc]; rfl) (by rw [hpc]; rfl) rfl rfl rfl rfl rfl rfl h.client
  next hpc =>
    refine hmove ?_ ?_ rfl rfl rfl rfl rfl rfl h.client
    · rw [hpc]
      split_ifs <;> rfl
    · rw [hpc]
      split_ifs <;> rfl
  next hpc =>
    refine hmove (by rw [hpc]; rfl) (by rw [hpc]; rfl) rfl rfl rfl rfl rfl rfl fun c => ?_
    have hclient := h.client c
    simp only [wakeWaiters, setWorker]
    split
    next hc => rwa [hc] at hclient
    next => exact hclient
  next hpc => exact hmove (by rw [hpc]; rfl) (by rw [hpc]; rfl) rfl rfl rfl rfl rfl rfl h.client
  next p hpc =>
    split_ifs
    · exact hmove (by rw [hpc]; rfl) (by rw [hpc]; rfl) rfl rfl rfl rfl rfl rfl h.client
    · split
      · exact hmove (by rw [hpc]; rfl) (by rw [hpc]; rfl) rfl rfl rfl rfl rfl rfl h.client
      · exact hmove (by rw [hpc]; rfl) (by rw [hpc]; rfl) rfl rfl rfl rfl rfl rfl h.client
  next hpc => exact hmove (by rw [hpc]; rfl) (by rw [hpc]; rfl) rfl rfl rfl rfl rfl rfl h.client
  next hpc =>
    -- At most as many workers are counted as there are, so the increment does not wrap.
    refine h.keep (follows_of_worker (w := w) rfl (hother (.scan .high))
      (by simp [hpc, PoolWorkerPc.task]) rfl rfl) ?_ rfl h.client
    have hraise := hsum (.scan .high)
    rw [hpc] at hraise
    change _ + 0 = _ + 1 at hraise
    have hle := sum_counted_le (s.setWorker w (.scan .high)).worker
    change (s.activeWorkers + 1) % 2 ^ 32 = ∑ u, ((s.setWorker w (.scan .high)).worker u).counted
    omega
  next => exact h

/-- A client moves on. -/
theorem Tracked.move [DecidableEq C] (h : s.Tracked) (pc : PoolClientPc W) (hfollows : s.Follows s')
    (hpc : s'.ClientOk pc) (hactive : s'.activeWorkers = s.activeWorkers)
    (hworker : s'.worker = s.worker) (hreturned : ∀ task ∈ s'.returned, s.Located task)
    (hclient : s'.client = (s.setClient c pc).client) : s'.Tracked where
  active := by rw [hactive, hworker, h.active]
  returned task htask := hfollows.located task (hreturned task htask)
  client d := by
    rw [hclient]
    by_cases hd : d = c
    · rw [hd, setClient_client_self]
      exact hpc
    · rw [setClient_client_of_ne hd]
      exact hfollows.clientOk (h.client d)

/-- No worker has a task while none is counted. -/
theorem Tracked.task_eq_none (h : s.Tracked) (hactive : s.activeWorkers = 0) (w : W) :
    (s.worker w).task = none := by
  have hzero : (s.worker w).counted = 0 := total_eq_zero.mp (h.active.symm.trans hactive) w
  cases hpc : s.worker w <;> simp_all [PoolWorkerPc.counted, PoolWorkerPc.task]

omit [Fintype W] in
/-- A push adds its task to the end of a queue. -/
theorem follows_of_push [DecidableEq C] {p : PoolPriority} (pc : PoolClientPc W) :
    s.Follows { s.setClient c pc with
      workQueues := Function.update s.workQueues p (s.workQueues p ++ [s.pushed])
      pushed := s.pushed + 1 } := by
  refine ⟨fun task ⟨hlt, hmem⟩ => ⟨Nat.lt_succ_of_lt hlt, ?_⟩, List.Subset.refl _,
    fun task q hlt hmem => ?_⟩
  · refine hmem.imp_left fun ⟨q, hq⟩ => ⟨q, ?_⟩
    by_cases hqp : q = p
    · rw [hqp] at hq ⊢
      simp [hq]
    · simpa [Function.update_of_ne hqp] using hq
  · by_cases hqp : q = p
    · have hne : task ≠ s.pushed := hlt.ne
      rw [hqp] at hmem ⊢
      simpa [hne] using hmem
    · simpa [Function.update_of_ne hqp] using hmem

/-- **Step rule of a client**: what is placed stays located, a size found zero rules its queue out,
and the last one leaves nothing but done tasks. -/
theorem Tracked.call [DecidableEq C] (h : s.Tracked) (htruthful : (s.client c).truthful s) :
    (vlThreadPoolClient s c).Tracked := by
  have hclient := h.client c
  have hmove {s' : ThreadPool W C} (pc : PoolClientPc W) (hpc : s.ClientOk pc)
      (hqueues : s'.workQueues = s.workQueues) (hdone : s'.done = s.done)
      (hpushed : s'.pushed = s.pushed) (hactive : s'.activeWorkers = s.activeWorkers)
      (hworker : s'.worker = s.worker) (hreturned : ∀ task ∈ s'.returned, s.Located task)
      (hclient : s'.client = (s.setClient c pc).client) : s'.Tracked :=
    have hfollows := follows_of_eq hqueues hworker hdone hpushed
    h.move pc hfollows (hfollows.clientOk hpc) hactive hworker hreturned hclient
  rw [vlThreadPoolClient]
  split
  next => exact h
  next p count hpc =>
    split_ifs
    · exact hmove (.push p count []) (fun _ htask => by cases htask) rfl rfl rfl rfl rfl h.returned
        rfl
    · exact hmove .idle trivial rfl rfl rfl rfl rfl h.returned rfl
  next p left pushed hpc =>
    rw [hpc] at hclient
    refine h.move (.grow p left (pushed ++ [s.pushed])) (follows_of_push _) (fun task htask => ?_)
      rfl rfl h.returned rfl
    rcases List.mem_append.mp htask with htask | htask
    · exact (follows_of_push _).located task (hclient task htask)
    · rw [List.mem_singleton.mp htask]
      exact ⟨Nat.lt_succ_self _, Or.inl ⟨p, by simp⟩⟩
  next p left pushed hpc =>
    rw [hpc] at hclient
    exact hmove (.post p left pushed) hclient rfl rfl rfl rfl rfl h.returned rfl
  next p left pushed hpc =>
    rw [hpc] at hclient
    dsimp only
    split_ifs
    · refine hmove .idle trivial rfl rfl rfl rfl rfl (fun task htask => ?_) rfl
      rcases List.mem_append.mp htask with htask | htask
      · exact h.returned task htask
      · exact hclient task htask
    · exact hmove (.push p (left - 1) pushed) hclient rfl rfl rfl rfl rfl h.returned rfl
  next before timed hpc =>
    rw [hpc] at hclient
    exact hmove (.active before timed) hclient rfl rfl rfl rfl rfl h.returned rfl
  next before timed hpc =>
    rw [hpc] at hclient
    split_ifs
    · refine hmove (.size .high before timed) (fun task htask => ⟨hclient task htask, ?_⟩)
        rfl rfl rfl rfl rfl h.returned rfl
      intro q hq
      exact absurd hq (Nat.not_lt_zero _)
    · exact hmove (.sleep before timed) hclient rfl rfl rfl rfl rfl h.returned rfl
  next p before timed hpc =>
    rw [hpc] at hclient htruthful
    split_ifs with hsize
    · obtain ⟨hempty, hactive⟩ := htruthful hsize
      -- The queues up to this one hold none of the tasks waited for.
      have hread : ∀ task ∈ before, ∀ q : PoolPriority, q.index ≤ p.index →
          task ∉ s.workQueues q := by
        intro task htask q hq hmem
        by_cases hqp : q = p
        · rw [hqp, hempty] at hmem
          cases hmem
        · refine (hclient task htask).2 q ?_ hmem
          cases p <;> cases q <;> simp_all [PoolPriority.index]
      split
      next p' hnext =>
        refine hmove (.size p' before timed) (fun task htask => ⟨(hclient task htask).1, ?_⟩)
          rfl rfl rfl rfl rfl h.returned rfl
        intro q hq
        refine hread task htask q ?_
        cases p <;> cases q <;> simp_all [PoolPriority.index, PoolPriority.next] <;>
          simp [← hnext] at hq
      next hnext =>
        obtain rfl : p = .low := by cases p <;> simp_all [PoolPriority.next]
        have hnone := h.task_eq_none (hactive rfl)
        refine hmove (.release true before s.worker) (fun _ => ⟨fun task htask => ?_, hnone⟩)
          rfl rfl rfl rfl rfl h.returned rfl
        rcases (hclient task htask).1.2 with ⟨q, hq⟩ | ⟨w, hw⟩ | hdone
        · exact absurd hq (hread task htask q (by cases q <;> simp [PoolPriority.index]))
        · rw [hnone w] at hw
          cases hw
        · exact hdone
    · exact hmove (.sleep before timed) (fun task htask => (hclient task htask).1)
        rfl rfl rfl rfl rfl h.returned rfl
  next before timed hpc =>
    rw [hpc] at hclient
    exact hmove (.asleep before timed) hclient rfl rfl rfl rfl rfl h.returned rfl
  next => exact h
  next before timed timedOut hpc =>
    rw [hpc] at hclient
    dsimp only
    split_ifs
    · exact hmove (.release false before s.worker) (fun hresult => by cases hresult)
        rfl rfl rfl rfl rfl h.returned rfl
    · exact hmove (.active before timed) hclient rfl rfl rfl rfl rfl h.returned rfl
  next => exact hmove .idle trivial rfl rfl rfl rfl rfl h.returned rfl
  next => exact hmove (.posts _) trivial rfl rfl rfl rfl rfl h.returned rfl
  next => exact hmove .idle trivial rfl rfl rfl rfl rfl h.returned rfl
  next p left hpc => exact hmove (.posts left) trivial rfl rfl rfl rfl rfl h.returned rfl

end ThreadPool

variable [DecidableEq W] [DecidableEq C] [Fintype W] {s : ThreadPool W C}

/-- **Step rule**: a truthful operation keeps track of the tasks. -/
theorem threadPoolStep_tracked {o : PoolOp W C} (hcard : Fintype.card W < 2 ^ 32) (h : s.Tracked)
    (htruthful : o.truthful s) : (threadPoolStep s o).Tracked := by
  have hmove (c : C) (pc : PoolClientPc W) (hpc : s.ClientOk pc) : (s.setClient c pc).Tracked :=
    have hfollows : s.Follows (s.setClient c pc) := ThreadPool.follows_of_eq rfl rfl rfl rfl
    h.move pc hfollows (hfollows.clientOk hpc) rfl rfl h.returned rfl
  have hend : ∀ c timedOut, (s.endWait c timedOut).Tracked := by
    intro c timedOut
    have hclient := h.client c
    rw [ThreadPool.endWait]
    split
    next before timed hpc =>
      rw [hpc] at hclient
      exact hmove c (.awake before timed timedOut) hclient
    next => exact h
  cases o with
  | enqueue c p count => exact hmove c (.load p count) trivial
  | waitCall c timed => exact hmove c (.obtain s.returned timed) h.returned
  | shutdown c => exact hmove c .exchange trivial
  | client c => exact h.call htruthful
  | worker w => exact h.work hcard
  | spurious c => exact hend c false
  | timeout c => exact hend c true

omit [DecidableEq W] [DecidableEq C] in
theorem poolInit_tracked : (ThreadPool.init : ThreadPool W C).Tracked where
  active := by simp [ThreadPool.init, PoolWorkerPc.counted]
  returned task htask := by cases htask
  client _ := trivial

/-- A HIGH task is enqueued, executed, and the worker goes idle; then a wait decides. -/
def waitAfterwards : List (PoolOp Unit Unit) :=
  [[.enqueue () .high 1], List.replicate 4 (.client ()), List.replicate 13 (.worker ()),
    [.waitCall () false], List.replicate 5 (.client ())].flatten

/-- The worker goes idle, a HIGH task is enqueued, and a wait finds no worker active; before it loads
the sizes, the worker wakes up and takes the task. -/
def waitMisled : List (PoolOp Unit Unit) :=
  [List.replicate 9 (.worker ()), [.enqueue () .high 1], List.replicate 4 (.client ()),
    [.waitCall () false, .client (), .client ()], List.replicate 4 (.worker ()),
    List.replicate 3 (.client ())].flatten

end VeritableLasagna
