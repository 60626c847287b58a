import VeritableLasagna.Lib.Machine
import VeritableLasagna.Sync.Semaphore

/-!
# The asynchronous logger

`vl_log` in its asynchronous mode. A logging call draws a sequence number, pushes a record onto the
queue and posts `sem_items`; the worker pops records, writes each to every sink under the
configuration lock and publishes the record's number in `processed_seq`; a flush reads how many
numbers were drawn and waits until `processed_seq` has reached that many. Every access to shared
state is a step of its own and any thread may take the next one. The record queue is a FIFO queue
whose operations are single steps.

Two components of the state are not in the source, they only record history: a record carries the
sinks that were registered when its number was drawn, and `returned` lists the records whose logging
calls have returned.
-/

namespace VeritableLasagna

/-- `vl_log_record`, with the sinks registered when `seq` was drawn. -/
structure LogRecord (S : Type) where
  seq : ℕ
  text : List UInt8
  sinks : List S
  deriving DecidableEq

/-- Where a client stands: in a logging call (`draw`, `push`, `post`) or in `vlLoggerFlush`, which
remembers the records whose calls had returned before it was called. -/
inductive ClientPc (S : Type)
  | idle
  /-- before the draw of a sequence number -/
  | draw (text : List UInt8)
  /-- before the push of the record -/
  | push (record : LogRecord S)
  /-- before the post of `sem_items`; the call returns with it -/
  | post (record : LogRecord S)
  /-- before the load of `enqueued_seq` -/
  | target (before : List (LogRecord S))
  /-- before the first load of `processed_seq` -/
  | check (before : List (LogRecord S)) (target : ℕ)
  /-- before the post of `sem_items` -/
  | wake (before : List (LogRecord S)) (target : ℕ)
  /-- before a load of `processed_seq` in the loop -/
  | loop (before : List (LogRecord S)) (target : ℕ)
  /-- before the wait for `sem_flushed` -/
  | wait (before : List (LogRecord S)) (target : ℕ)
  /-- before the flush of the sinks -/
  | flushSinks (before : List (LogRecord S))
  /-- the flush returns -/
  | flushed (before : List (LogRecord S))
  deriving DecidableEq

/-- Where the worker stands in `vlLogWorkerProc`. -/
inductive LogWorkerPc (S : Type)
  /-- before the wait for `sem_items` -/
  | wait
  /-- before a pop -/
  | pop
  /-- before taking the configuration lock -/
  | lock (record : LogRecord S)
  /-- before the writes to the sinks that are left -/
  | write (record : LogRecord S) (left : List S)
  /-- before releasing the configuration lock -/
  | unlock (record : LogRecord S)
  /-- before the store of `processed_seq` -/
  | store (record : LogRecord S)
  /-- before the post of `sem_flushed` -/
  | post
  /-- before the test of `running` and of the size of the queue -/
  | check
  /-- before the last post of `sem_flushed` -/
  | leave
  | exited
  deriving DecidableEq

/-- A logger, its clients and its worker. `written` lists what the sinks were given, in order. -/
structure LoggerState (T S : Type) where
  enqueuedSeq : ℕ
  processedSeq : ℕ
  queue : List (LogRecord S)
  sinks : List S
  locked : Bool
  semItems : ℕ
  semFlushed : ℕ
  running : Bool
  pc : T → ClientPc S
  worker : LogWorkerPc S
  written : List (S × LogRecord S)
  returned : List (LogRecord S)

/-- The calls, the next access of a client in its call, and the next access of the worker. `stop` is
what `vlLoggerDelete` does after its flush. -/
inductive LoggerOp (T S : Type)
  | message (t : T) (text : List UInt8)
  | flush (t : T)
  | addSink (t : T) (sink : S)
  | stop
  | client (t : T)
  | worker
  deriving DecidableEq

variable {T S : Type} [DecidableEq T]

namespace LoggerState

/-- The state after `vlLoggerNew` in asynchronous mode. -/
def init : LoggerState T S where
  enqueuedSeq := 0
  processedSeq := 0
  queue := []
  sinks := []
  locked := false
  semItems := 0
  semFlushed := 0
  running := true
  pc := fun _ => .idle
  worker := .wait
  written := []
  returned := []

def setPc (s : LoggerState T S) (t : T) (pc : ClientPc S) : LoggerState T S :=
  { s with pc := Function.update s.pc t pc }

end LoggerState

/-- The next access of a client: `vlLogEnqueueOwned` or `vlLoggerFlush`. -/
def vlLoggerClient (s : LoggerState T S) (t : T) : LoggerState T S :=
  match s.pc t with
  | .idle => s
  | .draw text =>
    let seq := (s.enqueuedSeq + 1) % 2 ^ 64
    { s.setPc t (.push ⟨seq, text, s.sinks⟩) with enqueuedSeq := seq }
  | .push record => { s.setPc t (.post record) with queue := s.queue ++ [record] }
  | .post record =>
    { s.setPc t .idle with semItems := s.semItems + 1, returned := s.returned ++ [record] }
  | .target before => s.setPc t (.check before s.enqueuedSeq)
  | .check before target =>
    if s.processedSeq ≥ target then s.setPc t (.flushSinks before)
    else s.setPc t (.wake before target)
  | .wake before target => { s.setPc t (.loop before target) with semItems := s.semItems + 1 }
  | .loop before target =>
    if s.processedSeq < target then s.setPc t (.wait before target)
    else s.setPc t (.flushSinks before)
  | .wait before target => { s.setPc t (.loop before target) with semFlushed := vlSemaphoreWait s.semFlushed }
  | .flushSinks before => s.setPc t (.flushed before)
  | .flushed _ => s.setPc t .idle

/-- The next access of the worker. -/
def vlLogWorker (s : LoggerState T S) : LoggerState T S :=
  match s.worker with
  | .wait => { s with worker := .pop, semItems := vlSemaphoreWait s.semItems }
  | .pop =>
    match s.queue with
    | [] => { s with worker := .check }
    | record :: queue => { s with worker := .lock record, queue := queue }
  | .lock record => { s with worker := .write record s.sinks, locked := true }
  | .write record (sink :: left) =>
    { s with worker := .write record left, written := s.written ++ [(sink, record)] }
  | .write record [] => { s with worker := .unlock record }
  | .unlock record => { s with worker := .store record, locked := false }
  | .store record => { s with worker := .post, processedSeq := record.seq }
  | .post => { s with worker := .pop, semFlushed := s.semFlushed + 1 }
  | .check => { s with worker := if !s.running && s.queue.isEmpty then .leave else .wait }
  | .leave => { s with worker := .exited, semFlushed := s.semFlushed + 1 }
  | .exited => s

/-- One step. -/
def loggerStep (s : LoggerState T S) : LoggerOp T S → LoggerState T S
  | .message t text => s.setPc t (.draw text)
  | .flush t => s.setPc t (.target s.returned)
  | .addSink _ sink => { s with sinks := sink :: s.sinks }
  | .stop => { s with running := false, semItems := s.semItems + 1 }
  | .client t => vlLoggerClient s t
  | .worker => vlLogWorker s

def ClientPc.isIdle : ClientPc S → Bool
  | .idle => true
  | _ => false

/-- Whether a client can take its next step: it is in a call and not blocked. -/
def ClientPc.enabled (backend : ThreadsBackend) (s : LoggerState T S) : ClientPc S → Bool
  | .idle => false
  | .wait _ _ => vlSemaphoreWaitReturns backend s.semFlushed
  | .flushSinks _ => !s.locked
  | _ => true

/-- Whether the worker can take its next step. -/
def LogWorkerPc.enabled (backend : ThreadsBackend) (s : LoggerState T S) : LogWorkerPc S → Bool
  | .wait => vlSemaphoreWaitReturns backend s.semItems
  | .lock _ => !s.locked
  | .exited => false
  | _ => true

/-- The logger under any interleaving: a client calls when it is idle, `vlLoggerAddSink` runs while
it has the configuration lock, and nobody takes a step it is blocked in. -/
def loggerMachine (backend : ThreadsBackend) (T S : Type) [DecidableEq T] :
    Machine (LoggerState T S) (LoggerOp T S) where
  guard s
    | .message t _ | .flush t => (s.pc t).isIdle
    | .addSink t _ => (s.pc t).isIdle = true ∧ s.locked = false
    | .stop => s.running
    | .client t => (s.pc t).enabled backend s
    | .worker => s.worker.enabled backend s
  step s o := .ok (loggerStep s o)

instance (backend : ThreadsBackend) (s : LoggerState T S) :
    ∀ o, Decidable ((loggerMachine backend T S).guard s o)
  | .message t _ | .flush t => inferInstanceAs (Decidable ((s.pc t).isIdle = true))
  | .addSink t _ => inferInstanceAs (Decidable ((s.pc t).isIdle = true ∧ s.locked = false))
  | .stop => inferInstanceAs (Decidable (s.running = true))
  | .client t => inferInstanceAs (Decidable ((s.pc t).enabled backend s = true))
  | .worker => inferInstanceAs (Decidable (s.worker.enabled backend s = true))

end VeritableLasagna
