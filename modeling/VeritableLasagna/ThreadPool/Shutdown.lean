import VeritableLasagna.Lib.Ranking
import VeritableLasagna.ThreadPool.Accounts

/-!
# Shutting the thread pool down

`vlThreadPoolDelete` shuts the pool down and joins its workers. Once the shutdown has returned and nobody
uses the pool any more, every worker exits, whatever the scheduler does, on both back ends
(`vlThreadPoolShutdown_exits`): a worker that is not blocked takes one of a number of steps that is bounded
from the start, and as long as a worker has not exited, some worker is not blocked. For this, the shutdown
posts each semaphore once for each worker: a worker that goes to sleep after it has found the pool running
takes at most one of the tokens before it finds it shutting down.
-/

namespace VeritableLasagna

variable {W C : Type}

/-- How many more steps a worker takes, at most, when the pool is shutting down, without those for the tasks
it is yet to take. -/
def PoolWorkerPc.rest : PoolWorkerPc → ℕ
  | .retire => 14
  | .lock => 13
  | .test => 12
  | .broadcast => 11
  | .unlock => 10
  | .tryWait .high => 9
  | .tryWait .medium => 8
  | .tryWait .low => 7
  | .wait => 6
  | .wake => 5
  | .popped _ _ => 7
  | .run _ => 6
  | .count => 5
  | .scan .high => 4
  | .scan .medium => 3
  | .scan .low => 2
  | .state => 1
  | .exited => 0

/-- Whether a worker has `idle_lock`. -/
def PoolWorkerPc.holding : PoolWorkerPc → ℕ
  | .test | .broadcast | .unlock => 1
  | _ => 0

/-- Whether a worker has found the pool running, and may take a token before it looks again. -/
def PoolWorkerPc.owing : PoolWorkerPc → ℕ
  | .retire | .lock | .test | .broadcast | .unlock | .tryWait _ | .wait => 1
  | _ => 0

/-- Whether a client has `idle_lock`. -/
def PoolClientPc.holding : PoolClientPc W → ℕ
  | .active _ _ | .size _ _ _ | .sleep _ _ | .release _ _ _ => 1
  | _ => 0

/-- How many tokens a client in `vlThreadPoolShutdown` is still to put into the HIGH semaphore. -/
def PoolClientPc.promised : PoolClientPc W → ℕ
  | .posts left => left.count .high
  | _ => 0

theorem PoolWorkerPc.owing_le (pc : PoolWorkerPc) : pc.owing ≤ 1 := by
  cases pc <;> simp [owing]

namespace ThreadPool

variable [Fintype W] [Fintype C] {s s' : ThreadPool W C} {w : W} {c : C}

/-- How many more steps the workers take, at most, when the pool is shutting down and nobody uses it. -/
def rest (s : ThreadPool W C) : ℕ := ∑ w, (s.worker w).rest + 6 * ∑ p, (s.workQueues p).length

/-- **Nobody sleeps in vain**: somebody has `idle_lock` if it is taken, and once the pool is shutting down,
there is a token in the HIGH semaphore for each worker that may be about to wait for one, or one is promised.
-/
structure Orderly (s : ThreadPool W C) : Prop where
  lock : ∑ w, (s.worker w).holding + ∑ c, (s.client c).holding = s.idleLock.toNat
  tokens : s.phase = .shuttingDown →
    ∑ w, (s.worker w).owing ≤ s.semaphores .high + ∑ c, (s.client c).promised

/-- A step of one worker. -/
theorem Orderly.work [DecidableEq W] (h : s.Orderly) {pc : PoolWorkerPc}
    (hworker : s'.worker = Function.update s.worker w pc)
    (hclient : ∀ c, (s'.client c).holding = (s.client c).holding ∧
      (s'.client c).promised = (s.client c).promised) (hphase : s'.phase = s.phase)
    (hlock : pc.holding + s.idleLock.toNat = (s.worker w).holding + s'.idleLock.toNat)
    (htokens : s.phase = .shuttingDown →
      pc.owing + s.semaphores .high ≤ (s.worker w).owing + s'.semaphores .high) : s'.Orderly := by
  have hself : s'.worker w = pc := by rw [hworker, Function.update_self]
  have hother : ∀ u, u ≠ w → s'.worker u = s.worker u := fun u hu => by
    rw [hworker, Function.update_of_ne hu]
  have hholding := sum_change (f := fun u => (s.worker u).holding) (g := fun u => (s'.worker u).holding)
    (t := w) fun u hu => by rw [hother u hu]
  have howing := sum_change (f := fun u => (s.worker u).owing) (g := fun u => (s'.worker u).owing) (t := w)
    fun u hu => by rw [hother u hu]
  rw [hself] at hholding howing
  have hlocked := h.lock
  refine ⟨?_, fun hdown => ?_⟩
  · simp only [(hclient _).1]
    omega
  · rw [hphase] at hdown
    have htoken := h.tokens hdown
    have hstep := htokens hdown
    simp only [(hclient _).2]
    omega

/-- A step of one client. -/
theorem Orderly.call [DecidableEq C] (h : s.Orderly) {pc : PoolClientPc W}
    (hclient : s'.client = Function.update s.client c pc) (hworker : s'.worker = s.worker)
    (hlock : pc.holding + s.idleLock.toNat = (s.client c).holding + s'.idleLock.toNat)
    (htokens : s'.phase = .shuttingDown → s.phase = .shuttingDown ∧
      s.semaphores .high + (s.client c).promised ≤ s'.semaphores .high + pc.promised ∨
        Fintype.card W ≤ pc.promised) : s'.Orderly := by
  have hself : s'.client c = pc := by rw [hclient, Function.update_self]
  have hother : ∀ d, d ≠ c → s'.client d = s.client d := fun d hd => by
    rw [hclient, Function.update_of_ne hd]
  have hholding := sum_change (f := fun d => (s.client d).holding) (g := fun d => (s'.client d).holding)
    (t := c) fun d hd => by rw [hother d hd]
  have hpromised := sum_change (f := fun d => (s.client d).promised) (g := fun d => (s'.client d).promised)
    (t := c) fun d hd => by rw [hother d hd]
  rw [hself] at hholding hpromised
  have hlocked := h.lock
  refine ⟨?_, fun hdown => ?_⟩
  · rw [hworker]
    omega
  · rw [hworker]
    rcases htokens hdown with ⟨hbefore, hstep⟩ | hcard
    · have htoken := h.tokens hbefore
      omega
    · have hle := Finset.sum_le_card_nsmul Finset.univ (fun w => (s.worker w).owing) 1
        fun w _ => PoolWorkerPc.owing_le _
      have htotal := le_total (fun d => (s'.client d).promised) c
      rw [hself] at htotal
      rw [smul_eq_mul, mul_one, Finset.card_univ] at hle
      omega

/-- **The next access of a worker** keeps the pool orderly. -/
theorem Orderly.workerStep [DecidableEq W] {backend : ThreadsBackend} (h : s.Orderly)
    (henabled : (s.worker w).enabled backend s = true) : (vlThreadPoolWorker s w).Orderly := by
  -- Most accesses leave the lock, the state and the semaphores alone.
  have hmove {s' : ThreadPool W C} {pc : PoolWorkerPc}
      (hworker : s'.worker = Function.update s.worker w pc) (hclient : s'.client = s.client)
      (hphase : s'.phase = s.phase) (hlock : s'.idleLock = s.idleLock)
      (hsemaphores : s'.semaphores .high = s.semaphores .high)
      (hholding : pc.holding = (s.worker w).holding)
      (howing : s.phase = .shuttingDown → pc.owing ≤ (s.worker w).owing) : s'.Orderly := by
    refine h.work hworker (fun c => by rw [hclient]; exact ⟨rfl, rfl⟩) hphase ?_ fun hdown => ?_
    · rw [hlock, hholding]
    · rw [hsemaphores]
      exact Nat.add_le_add_right (howing hdown) _
  rw [vlThreadPoolWorker]
  cases hpc : s.worker w with
  | scan p =>
    dsimp only
    cases s.workQueues p with
    | cons task queue =>
      dsimp only
      exact hmove rfl rfl rfl rfl rfl (by rw [hpc]; rfl) fun _ => Nat.zero_le _
    | nil =>
      cases p.next with
      | some q =>
        dsimp only
        exact hmove rfl rfl rfl rfl rfl (by rw [hpc]; rfl) fun _ => Nat.zero_le _
      | none =>
        dsimp only
        exact hmove rfl rfl rfl rfl rfl (by rw [hpc]; rfl) fun _ => Nat.zero_le _
  | popped p task | run task | count =>
    dsimp only
    exact hmove rfl rfl rfl rfl rfl (by rw [hpc]; rfl) fun _ => Nat.zero_le _
  | state =>
    dsimp only
    by_cases hrunning : s.phase = .running
    · rw [if_pos hrunning]
      refine hmove rfl rfl rfl rfl rfl (by rw [hpc]; rfl) fun hdown => ?_
      rw [hrunning] at hdown
      cases hdown
    · rw [if_neg hrunning]
      exact hmove rfl rfl rfl rfl rfl (by rw [hpc]; rfl) fun _ => Nat.zero_le _
  | retire =>
    dsimp only
    exact hmove rfl rfl rfl rfl rfl (by rw [hpc]; rfl) fun _ => by rw [hpc]; exact le_refl 1
  | lock =>
    rw [hpc, PoolWorkerPc.enabled, Bool.not_eq_true'] at henabled
    dsimp only
    refine h.work (Eq.refl (Function.update s.worker w .test)) (fun _ => ⟨rfl, rfl⟩) rfl ?_ fun _ => ?_
    · rw [henabled, hpc]
      rfl
    · rw [hpc]
      exact le_refl _
  | test =>
    dsimp only
    split_ifs
    · exact hmove rfl rfl rfl rfl rfl (by rw [hpc]; rfl) fun _ => by rw [hpc]; exact le_refl 1
    · exact hmove rfl rfl rfl rfl rfl (by rw [hpc]; rfl) fun _ => by rw [hpc]; exact le_refl 1
  | broadcast =>
    -- A client in the wait for `all_idle` has neither the lock nor tokens to post.
    have hclient (c : C) : ((s.wakeWaiters).client c).holding = (s.client c).holding ∧
        ((s.wakeWaiters).client c).promised = (s.client c).promised := by
      rw [wakeWaiters]
      dsimp only
      cases s.client c <;> exact ⟨rfl, rfl⟩
    dsimp only
    refine h.work (Eq.refl (Function.update s.worker w .unlock)) hclient rfl ?_ fun _ => ?_
    · rw [hpc]
      rfl
    · rw [hpc]
      exact le_refl _
  | unlock =>
    -- Only one thread has the lock.
    have hone := le_total (fun u => (s.worker u).holding) w
    have hlocked := h.lock
    rw [hpc] at hone
    change 1 ≤ _ at hone
    have htaken : s.idleLock.toNat = 1 := by
      have := Bool.toNat_le s.idleLock
      omega
    dsimp only
    refine h.work (Eq.refl (Function.update s.worker w (.tryWait .high))) (fun _ => ⟨rfl, rfl⟩) rfl ?_
      fun _ => ?_
    · rw [htaken, hpc]
      rfl
    · rw [hpc]
      exact le_refl _
  | tryWait p =>
    dsimp only
    split_ifs with hsemaphore
    · refine h.work (Eq.refl (Function.update s.worker w .wake)) (fun _ => ⟨rfl, rfl⟩) rfl (by rw [hpc]; rfl)
        fun _ => ?_
      rw [hpc]
      change 0 + s.semaphores .high ≤ 1 + Function.update s.semaphores p (s.semaphores p - 1) .high
      by_cases hp : p = .high
      · rw [hp, Function.update_self]
        omega
      · rw [Function.update_of_ne (Ne.symm hp)]
        omega
    · cases p.next with
      | some q =>
        dsimp only
        exact hmove rfl rfl rfl rfl rfl (by rw [hpc]; rfl) fun _ => by rw [hpc]; exact le_refl 1
      | none =>
        dsimp only
        exact hmove rfl rfl rfl rfl rfl (by rw [hpc]; rfl) fun _ => by rw [hpc]; exact le_refl 1
  | wait =>
    dsimp only
    refine h.work (Eq.refl (Function.update s.worker w .wake)) (fun _ => ⟨rfl, rfl⟩) rfl (by rw [hpc]; rfl)
      fun _ => ?_
    rw [hpc]
    change 0 + s.semaphores .high ≤
      1 + Function.update s.semaphores .high (vlSemaphoreWait (s.semaphores .high)) .high
    rw [Function.update_self, vlSemaphoreWait]
    omega
  | wake =>
    dsimp only
    exact hmove rfl rfl rfl rfl rfl (by rw [hpc]; rfl) fun _ => Nat.zero_le _
  | exited => exact h

/-- The tokens that a shutdown puts into the HIGH semaphore. -/
theorem count_high_posts (n : ℕ) :
    (List.replicate n [PoolPriority.high, .medium, .low]).flatten.count .high = n := by
  induction n with
  | zero => rfl
  | succ n ih =>
    rw [List.replicate_succ, List.flatten_cons, List.count_append, ih, Nat.add_comm]
    rfl

/-- **The next access of a client** keeps the pool orderly. -/
theorem Orderly.clientStep [DecidableEq C] (h : s.Orderly) (henabled : (s.client c).enabled s = true) :
    (vlThreadPoolClient s c).Orderly := by
  -- Most accesses leave the lock, the state and the semaphores alone.
  have hmove {s' : ThreadPool W C} {pc : PoolClientPc W}
      (hclient : s'.client = Function.update s.client c pc) (hworker : s'.worker = s.worker)
      (hphase : s'.phase = s.phase) (hlock : s'.idleLock = s.idleLock)
      (hsemaphores : s'.semaphores = s.semaphores) (hholding : pc.holding = (s.client c).holding)
      (hpromised : pc.promised = (s.client c).promised) : s'.Orderly := by
    refine h.call hclient hworker (by rw [hlock, hholding]) fun hdown => .inl ⟨hphase ▸ hdown, ?_⟩
    rw [hsemaphores, hpromised]
  -- Whoever has the lock is the only one.
  have htaken (hone : (s.client c).holding = 1) : s.idleLock.toNat = 1 := by
    have hle := le_total (fun d => (s.client d).holding) c
    have hlocked := h.lock
    have hbool := Bool.toNat_le s.idleLock
    omega
  rw [vlThreadPoolClient]
  cases hpc : s.client c with
  | idle | asleep _ _ => exact h
  | load p count =>
    dsimp only
    split_ifs
    · exact hmove rfl rfl rfl rfl rfl (by rw [hpc]; rfl) (by rw [hpc]; rfl)
    · exact hmove rfl rfl rfl rfl rfl (by rw [hpc]; rfl) (by rw [hpc]; rfl)
  | push _ _ _ | grow _ _ _ =>
    dsimp only
    exact hmove rfl rfl rfl rfl rfl (by rw [hpc]; rfl) (by rw [hpc]; rfl)
  | post p left pushed =>
    -- A post for a task may go to the HIGH semaphore as well.
    have hpost : s.semaphores .high ≤ Function.update s.semaphores p (s.semaphores p + 1) .high := by
      by_cases hp : p = .high
      · rw [hp, Function.update_self]
        exact Nat.le_succ _
      · rw [Function.update_of_ne (Ne.symm hp)]
    dsimp only
    split_ifs
    · refine h.call (Eq.refl (Function.update s.client c .idle)) rfl (by rw [hpc]; rfl)
        fun hdown => .inl ⟨hdown, ?_⟩
      rw [hpc]
      exact Nat.add_le_add_right hpost _
    · refine h.call (Eq.refl (Function.update s.client c (.push p (left - 1) pushed))) rfl (by rw [hpc]; rfl)
        fun hdown => .inl ⟨hdown, ?_⟩
      rw [hpc]
      exact Nat.add_le_add_right hpost _
  | obtain before timed =>
    rw [hpc, PoolClientPc.enabled, Bool.not_eq_true'] at henabled
    dsimp only
    refine h.call (Eq.refl (Function.update s.client c (.active before timed))) rfl ?_
      fun hdown => .inl ⟨hdown, ?_⟩
    · rw [henabled, hpc]
      rfl
    · rw [hpc]
      exact le_refl _
  | active before timed =>
    dsimp only
    split_ifs
    · exact hmove rfl rfl rfl rfl rfl (by rw [hpc]; rfl) (by rw [hpc]; rfl)
    · exact hmove rfl rfl rfl rfl rfl (by rw [hpc]; rfl) (by rw [hpc]; rfl)
  | size p before timed =>
    dsimp only
    split_ifs
    · cases p.next with
      | some q =>
        dsimp only
        exact hmove rfl rfl rfl rfl rfl (by rw [hpc]; rfl) (by rw [hpc]; rfl)
      | none =>
        dsimp only
        exact hmove rfl rfl rfl rfl rfl (by rw [hpc]; rfl) (by rw [hpc]; rfl)
    · exact hmove rfl rfl rfl rfl rfl (by rw [hpc]; rfl) (by rw [hpc]; rfl)
  | sleep before timed =>
    dsimp only
    refine h.call (Eq.refl (Function.update s.client c (.asleep before timed))) rfl ?_
      fun hdown => .inl ⟨hdown, ?_⟩
    · rw [htaken (by rw [hpc]; rfl), hpc]
      rfl
    · rw [hpc]
      exact le_refl _
  | awake before timed timedOut =>
    rw [hpc, PoolClientPc.enabled, Bool.not_eq_true'] at henabled
    dsimp only
    split_ifs
    · refine h.call (Eq.refl (Function.update s.client c (.release false before s.worker))) rfl ?_
        fun hdown => .inl ⟨hdown, ?_⟩
      · rw [henabled, hpc]
        rfl
      · rw [hpc]
        exact le_refl _
    · refine h.call (Eq.refl (Function.update s.client c (.active before timed))) rfl ?_
        fun hdown => .inl ⟨hdown, ?_⟩
      · rw [henabled, hpc]
        rfl
      · rw [hpc]
        exact le_refl _
  | release result before workers =>
    dsimp only
    refine h.call (Eq.refl (Function.update s.client c .idle)) rfl ?_ fun hdown => .inl ⟨hdown, ?_⟩
    · rw [htaken (by rw [hpc]; rfl), hpc]
      rfl
    · rw [hpc]
      exact le_refl _
  | exchange =>
    dsimp only
    cases hphase : s.phase with
    | running =>
      rw [if_pos rfl]
      refine h.call (Eq.refl (Function.update s.client c (.posts _))) rfl (by rw [hpc]; rfl)
        fun _ => .inr ?_
      rw [PoolClientPc.promised, count_high_posts]
    | shuttingDown =>
      rw [if_neg (by decide)]
      refine h.call (Eq.refl (Function.update s.client c (.posts []))) rfl (by rw [hpc]; rfl)
        fun _ => .inl ⟨hphase, ?_⟩
      rw [hpc]
      exact le_refl _
  | posts left =>
    cases left with
    | nil =>
      dsimp only
      exact hmove rfl rfl rfl rfl rfl (by rw [hpc]; rfl) (by rw [hpc]; rfl)
    | cons p left =>
      dsimp only
      refine h.call (Eq.refl (Function.update s.client c (.posts left))) rfl (by rw [hpc]; rfl)
        fun hdown => .inl ⟨hdown, ?_⟩
      rw [hpc]
      change _ + List.count .high (p :: left) ≤
        Function.update s.semaphores p (s.semaphores p + 1) .high + List.count .high left
      by_cases hp : p = .high
      · rw [hp, Function.update_self, List.count_cons_self]
        omega
      · rw [Function.update_of_ne (Ne.symm hp), List.count_cons_of_ne hp]

/-- **A step keeps the pool orderly.** -/
theorem Orderly.step [DecidableEq W] [DecidableEq C] {backend : ThreadsBackend} (h : s.Orderly)
    {o : PoolOp W C} (hguard : (threadPoolMachine backend W C).guard s o) : (threadPoolStep s o).Orderly := by
  have hcall {c : C} (hc : (s.client c).isIdle = true) {pc : PoolClientPc W} (hholding : pc.holding = 0) :
      (s.setClient c pc).Orderly := by
    cases hpc : s.client c with
    | idle =>
      refine h.call (Eq.refl (Function.update s.client c pc)) rfl (by rw [hpc, hholding]; rfl)
        fun hdown => .inl ⟨hdown, ?_⟩
      rw [hpc]
      exact Nat.add_le_add_left (Nat.zero_le _) _
    | _ =>
      rw [hpc] at hc
      cases hc
  have hasleep {c : C} (timedOut : Bool) : (s.endWait c timedOut).Orderly := by
    rw [endWait]
    cases hpc : s.client c with
    | asleep before timed =>
      dsimp only
      refine h.call (Eq.refl (Function.update s.client c (.awake before timed timedOut))) rfl
        (by rw [hpc]; rfl) fun hdown => .inl ⟨hdown, ?_⟩
      rw [hpc]
      exact le_refl _
    | _ => exact h
  cases o with
  | enqueue c p count => exact hcall hguard rfl
  | waitCall c timed => exact hcall hguard rfl
  | shutdown c => exact hcall hguard rfl
  | client c => exact h.clientStep hguard
  | worker w => exact h.workerStep hguard
  | spurious c => exact hasleep false
  | timeout c => exact hasleep true

theorem orderly_init : (init : ThreadPool W C).Orderly := by
  refine ⟨?_, fun hdown => by cases hdown⟩
  simp [init, PoolWorkerPc.holding, PoolClientPc.holding]

omit [Fintype W] [Fintype C] in
/-- A worker neither changes the state of the pool nor stirs clients that do not use it. -/
theorem vlThreadPoolWorker_quiet [DecidableEq W] (w : W) (hidle : ∀ c, s.client c = .idle) :
    (vlThreadPoolWorker s w).phase = s.phase ∧ ∀ c, (vlThreadPoolWorker s w).client c = .idle := by
  rw [vlThreadPoolWorker]
  cases s.worker w with
  | scan p =>
    dsimp only
    cases s.workQueues p with
    | cons task queue => exact ⟨rfl, hidle⟩
    | nil =>
      cases p.next with
      | some _ | none => exact ⟨rfl, hidle⟩
  | tryWait p =>
    dsimp only
    split_ifs
    · exact ⟨rfl, hidle⟩
    · cases p.next with
      | some _ | none => exact ⟨rfl, hidle⟩
  | broadcast =>
    refine ⟨rfl, fun c => ?_⟩
    dsimp only [wakeWaiters, setWorker]
    rw [hidle c]
  | _ =>
    dsimp only
    exact ⟨rfl, hidle⟩

omit [Fintype C] in
/-- A step of one worker that leaves the queues alone. -/
theorem rest_lt [DecidableEq W] {pc : PoolWorkerPc} (hworker : s'.worker = Function.update s.worker w pc)
    (hqueues : s'.workQueues = s.workQueues) (hpc : pc.rest < (s.worker w).rest) : s'.rest < s.rest := by
  have hsum := sum_change (f := fun u => (s.worker u).rest) (g := fun u => (s'.worker u).rest) (t := w)
    fun u hu => by rw [hworker, Function.update_of_ne hu]
  rw [hworker, Function.update_self] at hsum
  rw [rest, rest, hworker, hqueues]
  omega

omit [Fintype C] in
/-- **A worker is done sooner with every step** it takes while the pool is shutting down. -/
theorem vlThreadPoolWorker_rest [DecidableEq W] {backend : ThreadsBackend} (hdown : s.phase = .shuttingDown)
    (henabled : (s.worker w).enabled backend s = true) : (vlThreadPoolWorker s w).rest < s.rest := by
  rw [vlThreadPoolWorker]
  cases hpc : s.worker w with
  | scan p =>
    dsimp only
    cases hqueue : s.workQueues p with
    | cons task queue =>
      -- The task that is taken makes up for the steps it takes to run it.
      have hsum := sum_change (f := fun u => (s.worker u).rest)
        (g := fun u => (Function.update s.worker w (.popped p task) u).rest) (t := w)
        fun u hu => by rw [Function.update_of_ne hu]
      have hlength := sum_change (f := fun q => (s.workQueues q).length)
        (g := fun q => (Function.update s.workQueues p queue q).length) (t := p)
        fun q hq => by rw [Function.update_of_ne hq]
      rw [Function.update_self, hpc] at hsum
      rw [Function.update_self, hqueue, List.length_cons] at hlength
      change ∑ u, (Function.update s.worker w (.popped p task) u).rest +
        6 * ∑ q, (Function.update s.workQueues p queue q).length < s.rest
      have hscan : 2 ≤ (PoolWorkerPc.scan p).rest := by cases p <;> decide
      have hpopped : (PoolWorkerPc.popped p task).rest = 7 := rfl
      rw [rest]
      omega
    | nil =>
      cases p with
      | high | medium | low => exact rest_lt rfl rfl (by rw [hpc]; decide)
  | tryWait p =>
    dsimp only
    split_ifs
    · exact rest_lt rfl rfl (by rw [hpc]; cases p <;> decide)
    · cases p with
      | high | medium | low => exact rest_lt rfl rfl (by rw [hpc]; decide)
  | state =>
    dsimp only
    rw [if_neg (by rw [hdown]; decide)]
    exact rest_lt rfl rfl (by rw [hpc]; decide)
  | test =>
    dsimp only
    split_ifs
    · exact rest_lt rfl rfl (by rw [hpc]; decide)
    · exact rest_lt rfl rfl (by rw [hpc]; decide)
  | popped _ _ | run _ | count | retire | lock | broadcast | unlock | wait | wake =>
    dsimp only
    exact rest_lt rfl rfl (by rw [hpc]; simp [PoolWorkerPc.rest])
  | exited =>
    rw [hpc] at henabled
    cases henabled

/-- **Somebody can go on** when the pool is shutting down, nobody uses it, and a worker has not exited. -/
theorem Orderly.progress (backend : ThreadsBackend) (h : s.Orderly) (hdown : s.phase = .shuttingDown)
    (hidle : ∀ c, s.client c = .idle) (hw : s.worker w ≠ .exited) :
    ∃ u, (s.worker u).enabled backend s = true := by
  by_contra hstuck
  have hblocked (u : W) : (s.worker u).enabled backend s = false :=
    Bool.eq_false_iff.mpr fun hu => hstuck ⟨u, hu⟩
  have hlocked := h.lock
  have htokens := h.tokens hdown
  simp only [hidle, PoolClientPc.holding, PoolClientPc.promised, Finset.sum_const_zero, add_zero]
    at hlocked htokens
  cases hpc : s.worker w with
  | exited => exact hw hpc
  | lock =>
    -- Somebody has the lock, and whoever has it is not blocked.
    have hw := hblocked w
    rw [hpc, PoolWorkerPc.enabled, Bool.not_eq_false'] at hw
    have hnone : ∀ u, (s.worker u).holding = 0 := fun u => by
      have hu := hblocked u
      cases hu' : s.worker u with
      | test | broadcast | unlock =>
        rw [hu'] at hu
        cases hu
      | _ => rfl
    rw [total_eq_zero.mpr hnone, hw] at hlocked
    cases hlocked
  | wait =>
    -- There is a token for it.
    have howing := le_total (fun u => (s.worker u).owing) w
    rw [hpc] at howing
    have hpos : 0 < s.semaphores .high := lt_of_lt_of_le Nat.zero_lt_one (howing.trans htokens)
    have hw := hblocked w
    rw [hpc, PoolWorkerPc.enabled, vlSemaphoreWaitReturns_of_pos backend hpos] at hw
    cases hw
  | _ =>
    have hw := hblocked w
    rw [hpc] at hw
    cases hw

omit [Fintype C] in
/-- What the workers have left is bounded by their number and by the tasks that wait. -/
theorem rest_le : s.rest ≤ 14 * Fintype.card W + 6 * ∑ p, (s.workQueues p).length := by
  have hle := Finset.sum_le_card_nsmul Finset.univ (fun w => (s.worker w).rest) 14 fun w _ => by
    cases s.worker w with
    | scan p | tryWait p => cases p <;> decide
    | _ => simp [PoolWorkerPc.rest]
  rw [smul_eq_mul, Finset.card_univ, mul_comm] at hle
  exact Nat.add_le_add_right hle _

end ThreadPool

variable [Fintype W] [Fintype C] [DecidableEq W] [DecidableEq C]

/-- **The workers exit.** Once the shutdown has returned and nobody uses the pool, the workers take at most
a bounded number of steps, in whatever order, and as long as one of them has not exited, there is one that
is not blocked: so the joins of `vlThreadPoolDelete` return. -/
theorem vlThreadPoolShutdown_exits {backend : ThreadsBackend} {os : List (PoolOp W C)} {ws : List W}
    {s s' : ThreadPool W C} (hrun : (threadPoolMachine backend W C).Run .init os s)
    (hdown : s.phase = .shuttingDown) (hidle : ∀ c, s.client c = .idle)
    (hworkers : (threadPoolMachine backend W C).Run s (ws.map .worker) s') :
    ws.length ≤ 14 * Fintype.card W + 6 * ∑ p, (s.workQueues p).length ∧
      ((∀ w, s'.worker w = .exited) ∨ ∃ w, (s'.worker w).enabled backend s' = true) := by
  have horderly : s.Orderly := by
    refine hrun.invariant (I := ThreadPool.Orderly) ?_ ThreadPool.orderly_init
    intro s o s' h hguard hstep
    obtain rfl := Except.ok.inj hstep
    exact h.step hguard
  have hend : (s'.Orderly ∧ s'.phase = .shuttingDown ∧ ∀ c, s'.client c = .idle) ∧
      (ws.map (PoolOp.worker (C := C))).length + s'.rest ≤ s.rest := by
    refine hworkers.ranked (I := fun s => s.Orderly ∧ s.phase = .shuttingDown ∧ ∀ c, s.client c = .idle)
      (P := fun o => ∃ w, o = .worker w) ?_ (fun o ho => ?_) ⟨horderly, hdown, hidle⟩
    · intro s o s' h ho hguard hstep
      obtain ⟨w, rfl⟩ := ho
      obtain rfl := Except.ok.inj hstep
      obtain ⟨horderly, hdown, hidle⟩ := h
      obtain ⟨hphase, hclient⟩ := ThreadPool.vlThreadPoolWorker_quiet w hidle
      exact ⟨⟨horderly.step hguard, hphase.trans hdown, hclient⟩,
        ThreadPool.vlThreadPoolWorker_rest hdown hguard⟩
    · obtain ⟨w, _, rfl⟩ := List.mem_map.mp ho
      exact ⟨w, rfl⟩
  obtain ⟨⟨horderly', hdown', hidle'⟩, hlength⟩ := hend
  rw [List.length_map] at hlength
  refine ⟨(Nat.le_of_add_right_le hlength).trans ThreadPool.rest_le, ?_⟩
  by_cases hexited : ∀ w, s'.worker w = .exited
  · exact .inl hexited
  · obtain ⟨w, hw⟩ := not_forall.mp hexited
    exact .inr (horderly'.progress backend hdown' hidle' hw)

/-- The only worker goes to sleep, and the pool is shut down. -/
def shutdownAsleep : List (PoolOp Unit Unit) :=
  [List.replicate 12 (.worker ()), [.shutdown ()], List.replicate 5 (.client ())].flatten

/-- The worker wakes up, and exits. -/
theorem vlThreadPoolShutdown_exits_asleep : ∃ s s' : ThreadPool Unit Unit,
    (threadPoolMachine .win32 Unit Unit).Run .init shutdownAsleep s ∧
      (threadPoolMachine .win32 Unit Unit).Run s ([(), (), (), (), (), ()].map .worker) s' ∧
        s.worker () = .wait ∧ s'.worker () = .exited := by
  obtain ⟨s, hrun, hs⟩ := Machine.exists_run_of_exec (M := threadPoolMachine .win32 Unit Unit) (s := .init)
    (p := fun s => decide (s.phase = .shuttingDown ∧ s.worker () = .wait) && (s.client ()).isIdle &&
      ((threadPoolMachine .win32 Unit Unit).exec s ([(), (), (), (), (), ()].map .worker)).any
        fun s' => decide ((s'.worker ()).enabled .win32 s' = false))
    (show ((threadPoolMachine .win32 Unit Unit).exec _ shutdownAsleep).any _ = true by decide +kernel)
  obtain ⟨hs, hexec⟩ := Bool.and_eq_true _ _ ▸ hs
  obtain ⟨hs, hidle⟩ := Bool.and_eq_true _ _ ▸ hs
  obtain ⟨hdown, hwait⟩ := of_decide_eq_true hs
  obtain ⟨s', hworkers, hs'⟩ := Machine.exists_run_of_exec hexec
  have hclient : ∀ c, s.client c = .idle := fun c => by
    cases hpc : s.client c with
    | idle => rfl
    | _ =>
      rw [hpc] at hidle
      cases hidle
  refine ⟨s, s', hrun, hworkers, hwait, ?_⟩
  rcases (vlThreadPoolShutdown_exits hrun hdown hclient hworkers).2 with hexited | ⟨w, hw⟩
  · exact hexited ()
  · rw [of_decide_eq_true hs'] at hw
    cases hw

end VeritableLasagna
