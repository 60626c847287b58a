import VeritableLasagna.Lib.Machine
import VeritableLasagna.Sync.Semaphore

/-!
# The thread pool

`vl_thread_pool`: three work queues with a semaphore each, worker threads that scan the queues from
HIGH to LOW, and clients that enqueue, wait for the pool to become idle, or shut it down. Every pop,
push, semaphore operation, lock operation and atomic access is a step of its own, and any thread may
take the next one. A work queue is a FIFO queue with a separate size counter, which a push raises
after it has linked its node and a pop lowers after it has unlinked one.

A task stands for one push: it is named by the number of tasks pushed before it. Three components of
the state only record history: `done` lists the tasks whose procedures have returned, `returned`
those whose enqueue calls have returned, and a wait that has reached its decision remembers where
the workers stood at that moment.
-/

namespace VeritableLasagna

/-- `vl_thread_pool_priority`. -/
inductive PoolPriority
  | high
  | medium
  | low
  deriving DecidableEq

namespace PoolPriority

/-- The next round of a loop over the priorities, if there is one. -/
def next : PoolPriority → Option PoolPriority
  | .high => some .medium
  | .medium => some .low
  | .low => none

/-- The position in the order of such a loop. -/
def index : PoolPriority → ℕ
  | .high => 0
  | .medium => 1
  | .low => 2

/-- What is left of a loop after one of its rounds. -/
theorem index_next {p p' q : PoolPriority} (hnext : p.next = some p') (hq : q ≠ p) :
    p'.index ≤ q.index ↔ p.index ≤ q.index := by
  cases p <;> cases q <;> simp_all [next, index] <;> simp [← hnext]

/-- Nothing is left after the last round. -/
theorem index_le_of_next_eq_none {p q : PoolPriority} (hnext : p.next = none)
    (hq : p.index ≤ q.index) : q = p := by
  cases p <;> cases q <;> simp_all [next, index]

end PoolPriority

/-- `vl_thread_pool_state`; no code stores `VL_THREAD_POOL_SHUT_DOWN`. -/
inductive PoolPhase
  | running
  | shuttingDown
  deriving DecidableEq

/-- Where a worker stands in `vl_thread_pool_worker_proc`. -/
inductive PoolWorkerPc
  /-- before the pop from a queue -/
  | scan (p : PoolPriority)
  /-- in the pop, before the decrement of the size counter -/
  | popped (p : PoolPriority) (task : ℕ)
  /-- in the procedure of a task -/
  | run (task : ℕ)
  /-- before the increment of `tasksCompleted` -/
  | count
  /-- before the load of `state` -/
  | state
  /-- before the decrement of `active_workers` -/
  | retire
  /-- before taking `idle_lock` -/
  | lock
  /-- before the load of `active_workers` -/
  | test
  /-- before the broadcast of `all_idle` -/
  | broadcast
  /-- before releasing `idle_lock` -/
  | unlock
  /-- before `vlSemaphoreTryWait` on a semaphore -/
  | tryWait (p : PoolPriority)
  /-- before, or blocked in, `vlSemaphoreWait` on the HIGH semaphore -/
  | wait
  /-- before the increment of `active_workers` -/
  | wake
  | exited
  deriving DecidableEq

/-- Where a client stands: in an enqueue call (`load` to `post`), in `vlThreadPoolWait` (`obtain` to
`release`), which remembers the tasks returned before it was called, or in `vlThreadPoolShutdown`
(`exchange`, `posts`). -/
inductive PoolClientPc (W : Type)
  | idle
  /-- before the load of `state`, with the number of tasks to enqueue -/
  | load (p : PoolPriority) (count : ℕ)
  /-- before the push of a task, with the number left and the tasks pushed so far -/
  | push (p : PoolPriority) (left : ℕ) (pushed : List ℕ)
  /-- in the push, before the increment of the size counter -/
  | grow (p : PoolPriority) (left : ℕ) (pushed : List ℕ)
  /-- before the post of the semaphore -/
  | post (p : PoolPriority) (left : ℕ) (pushed : List ℕ)
  /-- before taking `idle_lock` -/
  | obtain (before : List ℕ) (timed : Bool)
  /-- before the load of `active_workers` -/
  | active (before : List ℕ) (timed : Bool)
  /-- before the load of a queue's size -/
  | size (p : PoolPriority) (before : List ℕ) (timed : Bool)
  /-- before the wait for `all_idle` -/
  | sleep (before : List ℕ) (timed : Bool)
  /-- in the wait for `all_idle` -/
  | asleep (before : List ℕ) (timed : Bool)
  /-- at the end of that wait, before taking `idle_lock` again -/
  | awake (before : List ℕ) (timed : Bool) (timedOut : Bool)
  /-- decided, before releasing `idle_lock` -/
  | release (result : Bool) (before : List ℕ) (workers : W → PoolWorkerPc)
  /-- before the exchange of `state` -/
  | exchange
  /-- before the posts that are left -/
  | posts (left : List PoolPriority)

/-- A pool with its workers and clients. -/
structure ThreadPool (W C : Type) where
  workQueues : PoolPriority → List ℕ
  sizes : PoolPriority → ℕ
  semaphores : PoolPriority → ℕ
  phase : PoolPhase
  activeWorkers : ℕ
  tasksCompleted : ℕ
  idleLock : Bool
  worker : W → PoolWorkerPc
  client : C → PoolClientPc W
  pushed : ℕ
  done : List ℕ
  returned : List ℕ

/-- The calls, the next access of a client or of a worker, and the two ways in which a wait for
`all_idle` ends without a broadcast. `enqueue` with count 1 is `vlThreadPoolEnqueuePriority`, with
any count `vlThreadPoolEnqueueBatchPriority`. -/
inductive PoolOp (W C : Type)
  | enqueue (c : C) (p : PoolPriority) (count : ℕ)
  | waitCall (c : C) (timed : Bool)
  | shutdown (c : C)
  | client (c : C)
  | worker (w : W)
  | spurious (c : C)
  | timeout (c : C)

variable {W C : Type} [DecidableEq W] [DecidableEq C]

namespace ThreadPool

/-- The pool after `vlThreadPoolNew`. -/
def init [Fintype W] : ThreadPool W C where
  workQueues := fun _ => []
  sizes := fun _ => 0
  semaphores := fun _ => 0
  phase := .running
  activeWorkers := Fintype.card W
  tasksCompleted := 0
  idleLock := false
  worker := fun _ => .scan .high
  client := fun _ => .idle
  pushed := 0
  done := []
  returned := []

def setWorker (s : ThreadPool W C) (w : W) (pc : PoolWorkerPc) : ThreadPool W C :=
  { s with worker := Function.update s.worker w pc }

def setClient (s : ThreadPool W C) (c : C) (pc : PoolClientPc W) : ThreadPool W C :=
  { s with client := Function.update s.client c pc }

omit [DecidableEq C] in
@[simp] theorem setWorker_worker_self (s : ThreadPool W C) (w : W) (pc : PoolWorkerPc) :
    (s.setWorker w pc).worker w = pc := Function.update_self ..

omit [DecidableEq C] in
theorem setWorker_worker_of_ne {u w : W} (h : u ≠ w) (s : ThreadPool W C) (pc : PoolWorkerPc) :
    (s.setWorker w pc).worker u = s.worker u := Function.update_of_ne h ..

omit [DecidableEq W] in
@[simp] theorem setClient_client_self (s : ThreadPool W C) (c : C) (pc : PoolClientPc W) :
    (s.setClient c pc).client c = pc := Function.update_self ..

omit [DecidableEq W] in
theorem setClient_client_of_ne {c d : C} (h : d ≠ c) (s : ThreadPool W C) (pc : PoolClientPc W) :
    (s.setClient c pc).client d = s.client d := Function.update_of_ne h ..

/-- `vlConditionBroadcast`: whoever waits for `all_idle` goes on to take the lock. -/
def wakeWaiters (s : ThreadPool W C) : ThreadPool W C :=
  { s with client := fun c =>
      match s.client c with
      | .asleep before timed => .awake before timed false
      | pc => pc }

end ThreadPool

/-- The next access of a worker. -/
def vlThreadPoolWorker (s : ThreadPool W C) (w : W) : ThreadPool W C :=
  match s.worker w with
  | .scan p =>
    match s.workQueues p with
    | task :: queue =>
      { s.setWorker w (.popped p task) with
        workQueues := Function.update s.workQueues p queue }
    | [] =>
      match p.next with
      | some p => s.setWorker w (.scan p)
      | none => s.setWorker w .state
  | .popped p task =>
    { s.setWorker w (.run task) with
      sizes := Function.update s.sizes p ((s.sizes p + (2 ^ 32 - 1)) % 2 ^ 32) }
  | .run task => { s.setWorker w .count with done := s.done ++ [task] }
  | .count => { s.setWorker w (.scan .high) with tasksCompleted := (s.tasksCompleted + 1) % 2 ^ 64 }
  | .state => s.setWorker w (if s.phase = .running then .retire else .exited)
  | .retire =>
    { s.setWorker w .lock with activeWorkers := (s.activeWorkers + (2 ^ 32 - 1)) % 2 ^ 32 }
  | .lock => { s.setWorker w .test with idleLock := true }
  | .test => s.setWorker w (if s.activeWorkers = 0 then .broadcast else .unlock)
  | .broadcast => (s.setWorker w .unlock).wakeWaiters
  | .unlock => { s.setWorker w (.tryWait .high) with idleLock := false }
  | .tryWait p =>
    if 0 < s.semaphores p then
      { s.setWorker w .wake with
        semaphores := Function.update s.semaphores p (s.semaphores p - 1) }
    else
      match p.next with
      | some p => s.setWorker w (.tryWait p)
      | none => s.setWorker w .wait
  | .wait =>
    { s.setWorker w .wake with
      semaphores := Function.update s.semaphores .high (vlSemaphoreWait (s.semaphores .high)) }
  | .wake => { s.setWorker w (.scan .high) with activeWorkers := (s.activeWorkers + 1) % 2 ^ 32 }
  | .exited => s

/-- The next access of a client. -/
def vlThreadPoolClient [Fintype W] (s : ThreadPool W C) (c : C) : ThreadPool W C :=
  match s.client c with
  | .idle => s
  | .load p count =>
    if s.phase = .running ∧ 0 < count then s.setClient c (.push p count []) else s.setClient c .idle
  | .push p left pushed =>
    { s.setClient c (.grow p left (pushed ++ [s.pushed])) with
      workQueues := Function.update s.workQueues p (s.workQueues p ++ [s.pushed])
      pushed := s.pushed + 1 }
  | .grow p left pushed =>
    { s.setClient c (.post p left pushed) with
      sizes := Function.update s.sizes p ((s.sizes p + 1) % 2 ^ 32) }
  | .post p left pushed =>
    let s := { s with semaphores := Function.update s.semaphores p (s.semaphores p + 1) }
    if left ≤ 1 then { s.setClient c .idle with returned := s.returned ++ pushed }
    else s.setClient c (.push p (left - 1) pushed)
  | .obtain before timed => { s.setClient c (.active before timed) with idleLock := true }
  | .active before timed =>
    if s.activeWorkers = 0 then s.setClient c (.size .high before timed)
    else s.setClient c (.sleep before timed)
  | .size p before timed =>
    if s.sizes p = 0 then
      match p.next with
      | some p => s.setClient c (.size p before timed)
      | none => s.setClient c (.release true before s.worker)
    else s.setClient c (.sleep before timed)
  | .sleep before timed => { s.setClient c (.asleep before timed) with idleLock := false }
  | .asleep _ _ => s
  | .awake before timed timedOut =>
    let s := { s with idleLock := true }
    if timedOut then s.setClient c (.release false before s.worker)
    else s.setClient c (.active before timed)
  | .release _ _ _ => { s.setClient c .idle with idleLock := false }
  | .exchange =>
    let left := if s.phase = .running then
      (List.replicate (Fintype.card W) [PoolPriority.high, .medium, .low]).flatten else []
    { s.setClient c (.posts left) with phase := .shuttingDown }
  | .posts [] => s.setClient c .idle
  | .posts (p :: left) =>
    { s.setClient c (.posts left) with
      semaphores := Function.update s.semaphores p (s.semaphores p + 1) }

/-- A wait for `all_idle` ends without a broadcast. -/
def ThreadPool.endWait (s : ThreadPool W C) (c : C) (timedOut : Bool) : ThreadPool W C :=
  match s.client c with
  | .asleep before timed => s.setClient c (.awake before timed timedOut)
  | _ => s

/-- One step. -/
def threadPoolStep [Fintype W] (s : ThreadPool W C) : PoolOp W C → ThreadPool W C
  | .enqueue c p count => s.setClient c (.load p count)
  | .waitCall c timed => s.setClient c (.obtain s.returned timed)
  | .shutdown c => s.setClient c .exchange
  | .client c => vlThreadPoolClient s c
  | .worker w => vlThreadPoolWorker s w
  | .spurious c => s.endWait c false
  | .timeout c => s.endWait c true

namespace PoolClientPc

def isIdle : PoolClientPc W → Bool
  | .idle => true
  | _ => false

def isAsleep : PoolClientPc W → Bool
  | .asleep _ _ => true
  | _ => false

/-- Asleep with a timeout that is not zero. -/
def canTimeOut : PoolClientPc W → Bool
  | .asleep _ timed => timed
  | _ => false

/-- Whether a client can take its next step. -/
def enabled (s : ThreadPool W C) : PoolClientPc W → Bool
  | .idle | .asleep _ _ => false
  | .obtain _ _ | .awake _ _ _ => !s.idleLock
  | _ => true

end PoolClientPc

/-- Whether a worker can take its next step. -/
def PoolWorkerPc.enabled (backend : ThreadsBackend) (s : ThreadPool W C) : PoolWorkerPc → Bool
  | .lock => !s.idleLock
  | .wait => vlSemaphoreWaitReturns backend (s.semaphores .high)
  | .exited => false
  | _ => true

/-- The pool under any interleaving: a client calls when it is idle, and nobody takes a step it is
blocked in. -/
def threadPoolMachine (backend : ThreadsBackend) (W C : Type) [DecidableEq W] [DecidableEq C]
    [Fintype W] : Machine (ThreadPool W C) (PoolOp W C) where
  guard s
    | .enqueue c _ _ | .waitCall c _ | .shutdown c => (s.client c).isIdle
    | .client c => (s.client c).enabled s
    | .worker w => (s.worker w).enabled backend s
    | .spurious c => (s.client c).isAsleep
    | .timeout c => (s.client c).canTimeOut
  step s o := .ok (threadPoolStep s o)

instance [Fintype W] (backend : ThreadsBackend) (s : ThreadPool W C) :
    ∀ o, Decidable ((threadPoolMachine backend W C).guard s o)
  | .enqueue c _ _ | .waitCall c _ | .shutdown c =>
    inferInstanceAs (Decidable ((s.client c).isIdle = true))
  | .client c => inferInstanceAs (Decidable ((s.client c).enabled s = true))
  | .worker w => inferInstanceAs (Decidable ((s.worker w).enabled backend s = true))
  | .spurious c => inferInstanceAs (Decidable ((s.client c).isAsleep = true))
  | .timeout c => inferInstanceAs (Decidable ((s.client c).canTimeOut = true))

end VeritableLasagna
