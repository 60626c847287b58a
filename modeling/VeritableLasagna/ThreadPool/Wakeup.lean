import VeritableLasagna.ThreadPool.Basic

/-!
# Lost wakeups of the thread pool

A worker that finds no task looks once at every semaphore and then waits for the HIGH one only. With
the pthread back end that wait polls, so no worker ever sleeps. With the win32 back end it blocks:
a task of MEDIUM or LOW priority whose semaphore is posted after the last worker has looked at it
wakes nobody.

`PoolOp.heard` is the condition that this does not happen at a post, and `vlThreadPool_no_lost_wakeup`
shows that no run of heard operations reaches a lost wakeup. The invariant says who will find the
tasks of a queue: somebody is about to post its semaphore, a worker will scan it again, the HIGH
semaphore is posted, or its own semaphore is and a worker has not looked at it yet.
-/

namespace VeritableLasagna

/-- In an enqueue call. -/
def PoolClientPc.enqueuing {W : Type} : PoolClientPc W → Bool
  | .load _ _ | .push _ _ _ | .grow _ _ _ | .post _ _ _ => true
  | _ => false

/-- Between the push of a task and the post of its semaphore. -/
def PoolClientPc.posting {W : Type} (p : PoolPriority) : PoolClientPc W → Bool
  | .grow q _ _ | .post q _ _ => q = p
  | _ => false

namespace PoolWorkerPc

/-- The worker scans the queue before it retires. -/
def willScan (p : PoolPriority) : PoolWorkerPc → Bool
  | .scan q => q.index ≤ p.index
  | .popped _ _ | .run _ | .count | .wake => true
  | _ => false

/-- The worker looks at the semaphore before it waits for the HIGH one. -/
def heeds (p : PoolPriority) : PoolWorkerPc → Bool
  | .tryWait q => q.index ≤ p.index
  | .wait | .exited => false
  | _ => true

end PoolWorkerPc

variable {W C : Type}

/-- **A lost wakeup**: the pool is running, every worker is blocked, no enqueue call is in progress,
and some queue holds a task. -/
structure ThreadPool.LostWakeup (backend : ThreadsBackend) (s : ThreadPool W C) : Prop where
  running : s.phase = .running
  blocked : ∀ w, s.worker w = .wait ∧
    vlSemaphoreWaitReturns backend (s.semaphores .high) = false
  quiet : ∀ c, (s.client c).enqueuing = false
  task : ∃ p, s.workQueues p ≠ []

/-- Whether somebody hears a post: the wait polls, the post or an earlier one is on the HIGH
semaphore, or a worker has not looked at the semaphore yet. -/
def PoolClientPc.heard (backend : ThreadsBackend) (s : ThreadPool W C) : PoolClientPc W → Prop
  | .post p _ _ => backend = .pthread ∨ p = .high ∨ 0 < s.semaphores .high ∨
      ∃ w, (s.worker w).heeds p = true
  | _ => True

/-- Whether an operation is heard by a worker if it is a post. -/
def PoolOp.heard (backend : ThreadsBackend) (s : ThreadPool W C) : PoolOp W C → Prop
  | .client c => (s.client c).heard backend s
  | _ => True

variable [DecidableEq W] [DecidableEq C] [Fintype W]

/-- The machine restricted to heard operations. -/
def heardPoolMachine (backend : ThreadsBackend) (W C : Type) [DecidableEq W] [DecidableEq C]
    [Fintype W] : Machine (ThreadPool W C) (PoolOp W C) where
  guard s o := (threadPoolMachine backend W C).guard s o ∧ o.heard backend s
  step := (threadPoolMachine backend W C).step

instance (backend : ThreadsBackend) (s : ThreadPool W C) :
    ∀ pc : PoolClientPc W, Decidable (pc.heard backend s)
  | .post p _ _ => inferInstanceAs (Decidable (backend = .pthread ∨ p = .high ∨
      0 < s.semaphores .high ∨ ∃ w, (s.worker w).heeds p = true))
  | .idle | .load _ _ | .push _ _ _ | .grow _ _ _ | .obtain _ _ | .active _ _ | .size _ _ _
  | .sleep _ _ | .asleep _ _ | .awake _ _ _ | .release _ _ _ | .exchange | .posts _ =>
    inferInstanceAs (Decidable True)

instance (backend : ThreadsBackend) (s : ThreadPool W C) :
    ∀ o : PoolOp W C, Decidable (o.heard backend s)
  | .client c => inferInstanceAs (Decidable ((s.client c).heard backend s))
  | .enqueue _ _ _ | .waitCall _ _ | .shutdown _ | .worker _ | .spurious _ | .timeout _ =>
    inferInstanceAs (Decidable True)

instance (backend : ThreadsBackend) (s : ThreadPool W C) (o : PoolOp W C) :
    Decidable ((heardPoolMachine backend W C).guard s o) :=
  inferInstanceAs (Decidable ((threadPoolMachine backend W C).guard s o ∧ o.heard backend s))

namespace ThreadPool

variable {s s' : ThreadPool W C} {p : PoolPriority} {w : W} {c : C}

omit [DecidableEq W] [DecidableEq C] [Fintype W]

/-- Somebody will find the tasks of a queue. -/
def Attended (s : ThreadPool W C) (p : PoolPriority) : Prop :=
  (∃ c, (s.client c).posting p = true) ∨ (∃ w, (s.worker w).willScan p = true) ∨
    0 < s.semaphores .high ∨ (0 < s.semaphores p ∧ ∃ w, (s.worker w).heeds p = true)

/-- The invariant of heard runs. -/
def Watched (s : ThreadPool W C) : Prop :=
  s.phase = .running → ∀ p, s.workQueues p ≠ [] → s.Attended p

theorem Watched.not_lostWakeup [Nonempty W] {backend : ThreadsBackend}
    (h : backend = .pthread ∨ s.Watched) : ¬ s.LostWakeup backend := by
  intro hlost
  obtain ⟨w₀⟩ := ‹Nonempty W›
  obtain rfl | h := h
  · exact Bool.noConfusion (hlost.blocked w₀).2
  obtain ⟨p, hp⟩ := hlost.task
  rcases h hlost.running p hp with ⟨c, hc⟩ | ⟨w, hw⟩ | hhigh | ⟨-, w, hw⟩
  · have hquiet := hlost.quiet c
    cases hpc : s.client c <;> simp_all [PoolClientPc.posting, PoolClientPc.enqueuing]
  · rw [(hlost.blocked w).1] at hw
    cases hw
  · have hreturns := vlSemaphoreWaitReturns_of_pos backend hhigh
    rw [(hlost.blocked w₀).2] at hreturns
    cases hreturns
  · rw [(hlost.blocked w).1] at hw
    cases hw

theorem attended_of_willScan (h : (s.worker w).willScan p = true) : s.Attended p :=
  Or.inr (Or.inl ⟨w, h⟩)

/-- A step of one worker keeps a queue attended if the worker still scans it, and still looks at its
semaphore in case it is posted. -/
theorem Attended.worker (h : s.Attended p)
    (hclient : ∀ c, (s'.client c).posting p = (s.client c).posting p)
    (hsem : s'.semaphores = s.semaphores) (hother : ∀ u, u ≠ w → s'.worker u = s.worker u)
    (hscan : (s.worker w).willScan p = true → (s'.worker w).willScan p = true)
    (hheeds : 0 < s.semaphores p → (s.worker w).heeds p = true →
      (s'.worker w).heeds p = true) : s'.Attended p := by
  rcases h with ⟨c, hc⟩ | ⟨u, hu⟩ | hhigh | ⟨hpos, u, hu⟩
  · exact Or.inl ⟨c, (hclient c).trans hc⟩
  · by_cases huw : u = w
    · exact attended_of_willScan (hscan (huw ▸ hu))
    · exact attended_of_willScan (w := u) (hother u huw ▸ hu)
  · exact Or.inr (Or.inr (Or.inl (hsem ▸ hhigh)))
  · refine Or.inr (Or.inr (Or.inr ⟨hsem ▸ hpos, ?_⟩))
    by_cases huw : u = w
    · exact ⟨w, hheeds hpos (huw ▸ hu)⟩
    · exact ⟨u, hother u huw ▸ hu⟩

/-- A step of one client keeps a queue attended if no semaphore loses a token and the client does
not leave a task without a post. -/
theorem Attended.client (h : s.Attended p) (hworker : s'.worker = s.worker)
    (hsem : ∀ q, s.semaphores q ≤ s'.semaphores q)
    (hposting : ∀ c, (s.client c).posting p = true → s'.Attended p) : s'.Attended p := by
  rcases h with ⟨c, hc⟩ | ⟨u, hu⟩ | hhigh | ⟨hpos, u, hu⟩
  · exact hposting c hc
  · exact attended_of_willScan (w := u) (hworker ▸ hu)
  · exact Or.inr (Or.inr (Or.inl (hhigh.trans_le (hsem _))))
  · exact Or.inr (Or.inr (Or.inr ⟨hpos.trans_le (hsem _), u, hworker ▸ hu⟩))

/-- **Step rule of a worker**: only its own scan makes it overlook a queue, and that queue is then
empty; only its own look makes it ignore a semaphore, and that one is then not posted. -/
theorem Watched.work [DecidableEq W] (h : s.Watched) : (vlThreadPoolWorker s w).Watched := by
  -- After these steps the worker scans every queue, whoever has consumed which token.
  have hwake {s' : ThreadPool W C} (hw : ∀ p, (s'.worker w).willScan p = true) : s'.Watched :=
    fun _ p _ => attended_of_willScan (hw p)
  -- After the others everything is as before but what the worker itself still does.
  have hmove {s' : ThreadPool W C} (hphase : s'.phase = s.phase)
      (hqueues : s'.workQueues = s.workQueues)
      (hclient : ∀ p c, (s'.client c).posting p = (s.client c).posting p)
      (hsem : s'.semaphores = s.semaphores) (hother : ∀ u, u ≠ w → s'.worker u = s.worker u)
      (hscan : ∀ p, s.workQueues p ≠ [] → (s.worker w).willScan p = true →
        (s'.worker w).willScan p = true)
      (hheeds : s.phase = .running → ∀ p, 0 < s.semaphores p → (s.worker w).heeds p = true →
        (s'.worker w).heeds p = true) : s'.Watched := by
    intro hrunning p hp
    rw [hphase] at hrunning
    rw [hqueues] at hp
    exact (h hrunning p hp).worker (hclient p) hsem hother (hscan p hp) (hheeds hrunning p)
  have hother (pc : PoolWorkerPc) : ∀ u, u ≠ w → (s.setWorker w pc).worker u = s.worker u :=
    fun u hu => setWorker_worker_of_ne hu s pc
  rw [vlThreadPoolWorker]
  split
  next p hpc =>
    split
    next task queue hq => exact hwake fun q => by simp [PoolWorkerPc.willScan]
    next hq =>
      -- The queue just scanned is empty, so nobody has to scan it again.
      have hskip : ∀ q, s.workQueues q ≠ [] → q ≠ p := fun q hne hqp => hne (hqp ▸ hq)
      rw [hpc] at hmove
      split
      next p' hnext =>
        refine hmove rfl rfl (fun _ _ => rfl) rfl (hother _) (fun q hne hscan => ?_) fun _ q _ _ => ?_
        · rw [setWorker_worker_self]
          simpa [PoolWorkerPc.willScan, PoolPriority.index_next hnext (hskip q hne)] using hscan
        · rw [setWorker_worker_self]
          rfl
      next hnext =>
        refine hmove rfl rfl (fun _ _ => rfl) rfl (hother _) (fun q hne hscan => ?_) fun _ q _ _ => ?_
        · have hle : p.index ≤ q.index := by simpa [PoolWorkerPc.willScan] using hscan
          exact absurd (PoolPriority.index_le_of_next_eq_none hnext hle) (hskip q hne)
        · rw [setWorker_worker_self]
          rfl
  next p task hpc => exact hwake fun q => by simp [PoolWorkerPc.willScan]
  next task hpc => exact hwake fun q => by simp [PoolWorkerPc.willScan]
  next hpc =>
    refine hwake fun q => ?_
    change PoolWorkerPc.willScan q ((s.setWorker w (.scan .high)).worker w) = true
    simp [PoolWorkerPc.willScan, PoolPriority.index]
  next hpc =>
    rw [hpc] at hmove
    refine hmove rfl rfl (fun _ _ => rfl) rfl (hother _) (fun q _ hscan => by cases hscan)
      fun hrunning q _ _ => ?_
    rw [setWorker_worker_self, if_pos hrunning]
    rfl
  next hpc =>
    rw [hpc] at hmove
    refine hmove rfl rfl (fun _ _ => rfl) rfl (hother .lock) (fun q _ hscan => by cases hscan)
      fun _ q _ _ => ?_
    simp [PoolWorkerPc.heeds]
  next hpc =>
    rw [hpc] at hmove
    refine hmove rfl rfl (fun _ _ => rfl) rfl (hother _) (fun q _ hscan => by cases hscan)
      fun _ q _ _ => ?_
    simp [PoolWorkerPc.heeds]
  next hpc =>
    rw [hpc] at hmove
    refine hmove rfl rfl (fun _ _ => rfl) rfl (hother _) (fun q _ hscan => by cases hscan)
      fun _ q _ _ => ?_
    rw [setWorker_worker_self]
    split_ifs <;> rfl
  next hpc =>
    rw [hpc] at hmove
    refine hmove rfl rfl (fun q c => ?_) rfl (hother _) (fun q _ hscan => by cases hscan)
      fun _ q _ _ => ?_
    · simp only [wakeWaiters, setWorker]
      cases s.client c <;> rfl
    · simp [wakeWaiters, PoolWorkerPc.heeds]
  next hpc =>
    rw [hpc] at hmove
    refine hmove rfl rfl (fun _ _ => rfl) rfl (hother _) (fun q _ hscan => by cases hscan)
      fun _ q _ _ => ?_
    simp [PoolWorkerPc.heeds, PoolPriority.index]
  next p hpc =>
    split_ifs with hpos
    · exact hwake fun q => by simp [PoolWorkerPc.willScan]
    · -- The semaphore just looked at is not posted, so nobody has to look at it again.
      have hskip : ∀ q, 0 < s.semaphores q → q ≠ p := fun q hq hqp => hpos (hqp ▸ hq)
      rw [hpc] at hmove
      split
      next p' hnext =>
        refine hmove rfl rfl (fun _ _ => rfl) rfl (hother _) (fun q _ hscan => by cases hscan)
          fun _ q hq hheeds => ?_
        rw [setWorker_worker_self]
        simpa [PoolWorkerPc.heeds, PoolPriority.index_next hnext (hskip q hq)] using hheeds
      next hnext =>
        refine hmove rfl rfl (fun _ _ => rfl) rfl (hother _) (fun q _ hscan => by cases hscan)
          fun _ q hq hheeds => ?_
        have hle : p.index ≤ q.index := by simpa [PoolWorkerPc.heeds] using hheeds
        exact absurd (PoolPriority.index_le_of_next_eq_none hnext hle) (hskip q hq)
  next hpc => exact hwake fun q => by simp [PoolWorkerPc.willScan]
  next hpc =>
    refine hwake fun q => ?_
    change PoolWorkerPc.willScan q ((s.setWorker w (.scan .high)).worker w) = true
    simp [PoolWorkerPc.willScan, PoolPriority.index]
  next hpc => exact h

/-- **Step rule of a client**: it leaves no pushed task without a post, and its post is heard. -/
theorem Watched.call [DecidableEq C] [Fintype W] (h : s.Watched)
    (hheard : (s.client c).heard .win32 s) : (vlThreadPoolClient s c).Watched := by
  -- A client that posts nothing and pushes nothing leaves everything attended.
  have hmove {s' : ThreadPool W C} {pc : PoolClientPc W} (hphase : s'.phase = s.phase)
      (hqueues : s'.workQueues = s.workQueues) (hworker : s'.worker = s.worker)
      (hsem : ∀ q, s.semaphores q ≤ s'.semaphores q) (hclient : s'.client = (s.setClient c pc).client)
      (hposting : ∀ p, (s.client c).posting p = true → pc.posting p = true) : s'.Watched := by
    intro hrunning p hp
    rw [hphase] at hrunning
    rw [hqueues] at hp
    refine (h hrunning p hp).client hworker hsem fun d hd => Or.inl ⟨d, ?_⟩
    rw [hclient]
    by_cases hdc : d = c
    · rw [hdc, setClient_client_self]
      exact hposting p (hdc ▸ hd)
    · rw [setClient_client_of_ne hdc]
      exact hd
  rw [vlThreadPoolClient]
  split
  next => exact h
  next p count hpc =>
    rw [hpc] at hmove
    split_ifs
    · exact hmove rfl rfl rfl (fun _ => le_rfl) rfl fun q hq => by cases hq
    · exact hmove rfl rfl rfl (fun _ => le_rfl) rfl fun q hq => by cases hq
  next p left pushed hpc =>
    intro hrunning q hq
    by_cases hqp : q = p
    · refine Or.inl ⟨c, ?_⟩
      change PoolClientPc.posting q ((s.setClient c _).client c) = true
      simp [PoolClientPc.posting, hqp]
    · have hq : s.workQueues q ≠ [] := by simpa [Function.update_of_ne hqp] using hq
      refine (h hrunning q hq).client rfl (fun _ => le_rfl) fun d hd => Or.inl ⟨d, ?_⟩
      change PoolClientPc.posting q ((s.setClient c _).client d) = true
      have hdc : d ≠ c := by
        rintro rfl
        rw [hpc] at hd
        cases hd
      rw [setClient_client_of_ne hdc]
      exact hd
  next p left pushed hpc =>
    rw [hpc] at hmove
    exact hmove rfl rfl rfl (fun _ => le_rfl) rfl fun q hq => hq
  next p left pushed hpc =>
    rw [hpc] at hheard
    have hsem : ∀ q, s.semaphores q ≤ Function.update s.semaphores p (s.semaphores p + 1) q := by
      intro q
      by_cases hq : q = p
      · simp [hq]
      · simp [hq]
    -- The post is what the tasks of its queue were waiting for.
    have hpost {s' : ThreadPool W C} (hphase : s'.phase = s.phase)
        (hqueues : s'.workQueues = s.workQueues) (hworker : s'.worker = s.worker)
        (hsems : s'.semaphores = Function.update s.semaphores p (s.semaphores p + 1))
        (hclient : ∀ d, d ≠ c → s'.client d = s.client d) : s'.Watched := by
      intro hrunning q hq
      rw [hphase] at hrunning
      rw [hqueues] at hq
      refine (h hrunning q hq).client hworker (hsems ▸ hsem) fun d hd => ?_
      by_cases hdc : d = c
      · obtain rfl : p = q := by simpa [hdc, hpc, PoolClientPc.posting] using hd
        have hposted : s'.semaphores p = s.semaphores p + 1 := by simp [hsems]
        rcases hheard with hbackend | rfl | hhigh | ⟨w, hw⟩
        · cases hbackend
        · exact Or.inr (Or.inr (Or.inl (by omega)))
        · exact Or.inr (Or.inr (Or.inl (hsems ▸ hhigh.trans_le (hsem _))))
        · exact Or.inr (Or.inr (Or.inr ⟨by omega, w, hworker ▸ hw⟩))
      · exact Or.inl ⟨d, (hclient d hdc).symm ▸ hd⟩
    dsimp only
    split_ifs
    · exact hpost rfl rfl rfl rfl fun d hd => setClient_client_of_ne hd _ _
    · exact hpost rfl rfl rfl rfl fun d hd => setClient_client_of_ne hd _ _
  next before timed hpc =>
    rw [hpc] at hmove
    exact hmove rfl rfl rfl (fun _ => le_rfl) rfl fun q hq => by cases hq
  next before timed hpc =>
    rw [hpc] at hmove
    split_ifs
    · exact hmove rfl rfl rfl (fun _ => le_rfl) rfl fun q hq => by cases hq
    · exact hmove rfl rfl rfl (fun _ => le_rfl) rfl fun q hq => by cases hq
  next p before timed hpc =>
    rw [hpc] at hmove
    split_ifs
    · split
      · exact hmove rfl rfl rfl (fun _ => le_rfl) rfl fun q hq => by cases hq
      · exact hmove rfl rfl rfl (fun _ => le_rfl) rfl fun q hq => by cases hq
    · exact hmove rfl rfl rfl (fun _ => le_rfl) rfl fun q hq => by cases hq
  next before timed hpc =>
    rw [hpc] at hmove
    exact hmove rfl rfl rfl (fun _ => le_rfl) rfl fun q hq => by cases hq
  next => exact h
  next before timed timedOut hpc =>
    rw [hpc] at hmove
    dsimp only
    split_ifs
    · exact hmove rfl rfl rfl (fun _ => le_rfl) rfl fun q hq => by cases hq
    · exact hmove rfl rfl rfl (fun _ => le_rfl) rfl fun q hq => by cases hq
  next hpc =>
    rw [hpc] at hmove
    exact hmove rfl rfl rfl (fun _ => le_rfl) rfl fun q hq => by cases hq
  next hpc =>
    intro hrunning
    cases hrunning
  next hpc =>
    rw [hpc] at hmove
    exact hmove rfl rfl rfl (fun _ => le_rfl) rfl fun q hq => by cases hq
  next p left hpc =>
    rw [hpc] at hmove
    refine hmove rfl rfl rfl (fun q => ?_) rfl fun q hq => by cases hq
    by_cases hq : q = p
    · simp [hq]
    · simp [hq]

/-- A client that is not about to post moves to a place where it is not either. -/
theorem Watched.setClient [DecidableEq C] (h : s.Watched) (pc : PoolClientPc W)
    (hpc : ∀ p, (s.client c).posting p = false) : (s.setClient c pc).Watched := by
  intro hrunning p hp
  refine (h hrunning p hp).client rfl (fun _ => le_rfl) fun d hd => Or.inl ⟨d, ?_⟩
  have hdc : d ≠ c := by
    rintro rfl
    rw [hpc p] at hd
    cases hd
  rw [setClient_client_of_ne hdc]
  exact hd

end ThreadPool

variable {s : ThreadPool W C}

/-- **Step rule**: a heard operation keeps the pool watched. -/
theorem threadPoolStep_watched {o : PoolOp W C} (h : s.Watched)
    (hguard : (heardPoolMachine .win32 W C).guard s o) : (threadPoolStep s o).Watched := by
  obtain ⟨hguard, hheard⟩ := hguard
  have hidle : ∀ c, (s.client c).isIdle = true → ∀ p, (s.client c).posting p = false := by
    intro c hc p
    cases hpc : s.client c <;> simp_all [PoolClientPc.isIdle, PoolClientPc.posting]
  have hend : ∀ c timedOut, (s.endWait c timedOut).Watched := by
    intro c timedOut
    rw [ThreadPool.endWait]
    split
    next hpc => exact h.setClient _ fun p => by simp [hpc, PoolClientPc.posting]
    next => exact h
  cases o with
  | enqueue c p count => exact h.setClient _ (hidle c hguard)
  | waitCall c timed => exact h.setClient _ (hidle c hguard)
  | shutdown c => exact h.setClient _ (hidle c hguard)
  | client c => exact h.call hheard
  | worker w => exact h.work
  | spurious c => exact hend c false
  | timeout c => exact hend c true

/-- **No lost wakeup on heard runs**: no state that heard operations of any number of workers and
clients reach is a lost wakeup. -/
theorem vlThreadPool_no_lost_wakeup [Nonempty W] {backend : ThreadsBackend}
    {os : List (PoolOp W C)} (hrun : (heardPoolMachine backend W C).Run .init os s) :
    ¬ s.LostWakeup backend := by
  refine ThreadPool.Watched.not_lostWakeup ?_
  cases backend with
  | pthread => exact Or.inl rfl
  | win32 =>
    refine Or.inr (hrun.invariant (fun s o s' h hguard hstep => ?_) fun _ p hp => absurd rfl hp)
    obtain rfl := Except.ok.inj hstep
    exact threadPoolStep_watched h hguard

/-- Up to where the one worker has found no task and blocks. -/
def workerBlocks : List (PoolOp Unit Unit) := List.replicate 12 (.worker ())

/-- A HIGH task is pushed and posted while the worker is blocked. -/
def enqueueHigh : List (PoolOp Unit Unit) :=
  [.enqueue () .high 1, .client (), .client (), .client (), .client ()]

/-- The post of a HIGH task is heard. -/
theorem vlThreadPool_no_lost_wakeup_high :
    ∃ s, (heardPoolMachine .win32 Unit Unit).Run .init (workerBlocks ++ enqueueHigh) s ∧
      ¬ s.LostWakeup .win32 ∧ s.worker () = .wait ∧ s.workQueues .high = [0] := by
  have hexec : (((heardPoolMachine .win32 Unit Unit).exec .init (workerBlocks ++ enqueueHigh)).any
      fun s => s.worker () = .wait ∧ s.workQueues .high = [0]) = true := by decide +kernel
  obtain ⟨s, hrun, htest⟩ := Machine.exists_run_of_exec hexec
  exact ⟨s, hrun, vlThreadPool_no_lost_wakeup hrun, of_decide_eq_true htest⟩

/-- A LOW task is pushed and posted while the worker is blocked. -/
def enqueueLow : List (PoolOp Unit Unit) :=
  [.enqueue () .low 1, .client (), .client (), .client (), .client ()]

/-- The post of a LOW task wakes nobody: the call has returned, the worker stays blocked, and the
task stays in its queue. -/
theorem vlThreadPool_lost_wakeup :
    ∃ s, (threadPoolMachine .win32 Unit Unit).Run .init (workerBlocks ++ enqueueLow) s ∧
      s.LostWakeup .win32 := by
  have hexec : (((threadPoolMachine .win32 Unit Unit).exec .init (workerBlocks ++ enqueueLow)).any
      fun s => s.phase = .running ∧ s.worker () = .wait ∧ s.semaphores .high = 0 ∧
        (s.client ()).enqueuing = false ∧ s.workQueues .low = [0]) = true := by decide +kernel
  obtain ⟨s, hrun, htest⟩ := Machine.exists_run_of_exec hexec
  obtain ⟨hrunning, hwait, hsem, hquiet, hqueue⟩ := of_decide_eq_true htest
  refine ⟨s, hrun, hrunning, fun _ => ⟨hwait, ?_⟩, fun _ => hquiet, .low, ?_⟩
  · rw [hsem]
    rfl
  · simp [hqueue]

end VeritableLasagna
