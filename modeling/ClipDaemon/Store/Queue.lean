import ClipDaemon.Store.Service
import ClipDaemon.Lib.Threads

/-!
# The storage queue

`Store.Service` takes a call through the queue in a few steps.  Here the queue is as its
threads run it (`history_store/mod.rs`): a caller reserves bytes and sends its job under the
lock of the submission, and drops the reservation of a rejected job after it has released
that lock; the worker runs a job, drops its reservation and only then answers; and a shutdown
holds the lock of the worker while it closes the queue and joins.

Callers and shutdowns are threads.  The worker is a state machine, and each of its steps is a
call of its own.
-/

namespace ClipDaemon

/-- A job, by the thread that waits for its answer.  It holds a reservation. -/
structure QueuedJob where
  thread : Nat
  call : Call

/-- The bytes that a job reserves. -/
def QueuedJob.bytes (job : QueuedJob) : Nat := job.call.request.inputBytes

/-- Where the worker stands. -/
inductive WorkerState
  /-- It receives from the queue. -/
  | idle
  | running (job : QueuedJob)
  /-- The job has its result; its reservation is dropped next. -/
  | releasing (job : QueuedJob) (answer : Answer)
  /-- The result is sent next. -/
  | answering (job : QueuedJob) (answer : Answer)
  /-- The queue is closed and empty. -/
  | closing
  | ended (result : BackendResult Unit)

/-- What happens in the queue. -/
inductive QueueEffect
  /-- A job is sent; it may be rejected. -/
  | sent (job : QueuedJob) (accepted : Bool)
  | ran (job : QueuedJob) (answer : Answer)
  /-- The worker has shut the database down. -/
  | stopped (result : BackendResult Unit)

/-- The state behind the submission and the worker. -/
structure Inner where
  db : Database
  /-- The submission has its sender. -/
  sender : Bool
  /-- The bytes that the submission accounts for. -/
  bytes : Nat
  /-- The reservations that were not dropped yet. -/
  live : List QueuedJob
  queue : List QueuedJob
  worker : WorkerState
  /-- The handle of the worker was not taken yet. -/
  handle : Bool
  /-- The shutdown that holds the lock of the worker. -/
  holder : Option Nat
  shutdownError : Option BackendError
  /-- The answers that the worker has sent. -/
  answers : Nat → Option (BackendResult Reply)
  /-- What happened, oldest first, with the thread that did it. -/
  log : List (Nat × QueueEffect)

namespace Inner

/-- A store that was just opened. -/
def opened (durable : Tables) : Inner where
  db := Database.recovered durable
  sender := true
  bytes := 0
  live := []
  queue := []
  worker := .idle
  handle := true
  holder := none
  shutdownError := none
  answers := fun _ => none
  log := []

/-- What thread `i` did is logged. -/
def record (i : Nat) (effect : QueueEffect) (s : Inner) : Inner :=
    { s with log := s.log ++ [(i, effect)] }

/-- The choices of the surroundings. -/
inductive Chance
  | none
  /-- The failures that a job meets. -/
  | job (faults : Faults)
  /-- The failures that the last shutdown of the database meets. -/
  | shutdown (checkpoint : Bool) (faults : Faults)

/-- A program on the queue. -/
abbrev Work (α : Type) := Thread Inner Chance α

/-! ## Calls -/

/-- The bytes of the input are reserved. -/
def reserve (job : QueuedJob) : Work (BackendResult Unit) :=
  Thread.modify fun s =>
    if !s.sender then (.error (.unavailable "History storage is closed"), s)
    else if job.bytes > QUEUE_BYTE_BUDGET - s.bytes then
      (.error (.unavailable "History input byte budget exhausted"), s)
    else (.ok (), { s with bytes := s.bytes + job.bytes, live := s.live ++ [job] })

/-- A subtraction of machine words. -/
def subtract (a b : Nat) : Nat := if b ≤ a then a - b else 2 ^ 64 + a - b

/-- The reservation of a job is dropped. -/
def drop (job : QueuedJob) (s : Inner) : Inner :=
  { s with
    bytes := subtract s.bytes job.bytes
    live := s.live.filter fun other => other.thread ≠ job.thread }

/-- The job is put into the queue, if there is room. -/
def trySend (i : Nat) (job : QueuedJob) : Work Bool :=
  Thread.modify fun s =>
    if s.sender && decide (s.queue.length < QUEUE_CAPACITY) then
      (true, record i (.sent job true) { s with queue := s.queue ++ [job] })
    else (false, record i (.sent job false) s)

/-- Wait for the answer of the worker. -/
def receive (i : Nat) : Work (BackendResult Reply) :=
  Thread.atomic fun _ s => (s.answers i).map (·, s)

/-- The job is sent, and its answer is awaited. -/
def submit (i : Nat) (job : QueuedJob) : Work (BackendResult Reply) := do
  let accepted ← trySend i job
  if accepted then receive i
  else
    Thread.modify fun s => ((), drop job s)
    return .error (.unavailable "History queue is full or closed")

def call (i : Nat) (call : Call) : Work (BackendResult Reply) :=
  match call.request.validate with
  | .error error => return .error error
  | .ok _ => do
      match ← reserve ⟨i, call⟩ with
      | .error error => return .error error
      | .ok _ => submit i ⟨i, call⟩

/-! ## The worker -/

/-- One step of the worker. -/
def stepWorker (P : Platform) (i : Nat) : Work Unit :=
  Thread.atomic fun chance s =>
    match s.worker, chance with
    | .idle, _ =>
        match s.queue with
        | job :: queue => some ((), { s with queue := queue, worker := .running job })
        | [] => if s.sender then none else some ((), { s with worker := .closing })
    | .running job, .job faults =>
        let ran := HistoryStore.answer P faults job.call s.db
        some ((), record i (.ran job ran.1) { s with db := ran.2, worker := .releasing job ran.1 })
    | .releasing job answer, _ => some ((), { drop job s with worker := .answering job answer })
    | .answering job answer, _ =>
        some ((), { s with
          answers := Function.update s.answers job.thread (some answer.result)
          worker := .idle })
    | .closing, .shutdown checkpoint faults =>
        let stopped := s.db.shutdown checkpoint faults
        some ((), record i (.stopped stopped.1)
          { s with db := stopped.2, worker := .ended stopped.1 })
    | _, _ => none

/-! ## Shutdown -/

/-- The lock of the worker's handle. -/
def lockWorker (i : Nat) : Work Unit :=
  Thread.atomic fun _ s =>
    match s.holder with
    | none => some ((), { s with holder := some i })
    | some _ => none

def unlockWorker : Work Unit := Thread.modify fun s => ((), { s with holder := none })

/-- Wait until the worker has ended. -/
def join : Work (BackendResult Unit) :=
  Thread.atomic fun _ s =>
    match s.worker with
    | .ended result => some (result, s)
    | _ => none

/-- An error of the worker is left to the next shutdown, and the lock is released. -/
def finish (result : BackendResult Unit) : Work (BackendResult Unit) :=
  match result with
  | .error error => do
      Thread.modify fun s => ((), { s with shutdownError := some error })
      unlockWorker
      return .error error
  | .ok _ => do
      unlockWorker
      return .ok ()

/-- Every caller waits for the checkpoint. -/
def shutdown (i : Nat) : Work (BackendResult Unit) := do
  lockWorker i
  Thread.modify fun s => ((), { s with sender := false })
  match ← Thread.modify fun s => (s.shutdownError, s) with
  | some error =>
      unlockWorker
      return .error error
  | none =>
      if ← Thread.modify fun s => (s.handle, { s with handle := false }) then finish (← join)
      else finish (.ok ())

/-! ## Runs -/

/-- What is called on the queue. -/
inductive Client
  | call (call : Call)
  | shutdown
  /-- The worker makes a step. -/
  | work

/-- What it returns. -/
inductive Outcome
  | called (result : BackendResult Reply)
  | shutDown (result : BackendResult Unit)
  | worked

/-- The thread of a client. -/
def program (P : Platform) (i : Nat) : Client → Work Outcome
  | .call request => do return .called (← call i request)
  | .shutdown => do return .shutDown (← shutdown i)
  | .work => do
      stepWorker P i
      return .worked

/-- The pool of clients on a store that was just opened. -/
def service (durable : Tables) : Pool Inner Chance Client Outcome := Pool.start (opened durable)

end Inner

end ClipDaemon
