import ClipDaemon.Api.Session
import ClipDaemon.Backend
import ClipDaemon.Lib.Retention
import ClipDaemon.Lib.Threads

/-!
# Image operations

An image editor or an interactive screenshot runs in a task of its own
(`history/operation.rs`).  Its record moves from the active map, through the cancelling map
when someone cancels it, to a bounded queue of results, all under one lock; whether the work
may still commit is decided outside of it, by an atomic phase.

The callers are threads whose statements are the critical sections.  The two tasks that the
runtime polls for an operation, its work and the cleanup of its cancellation, are state
machines: `TaskState` for `complete`, `CleanupState` for `finish_cancel`.  A closure that the
work has handed to the blocking pool cannot be aborted, and may outlive its task.
-/

namespace ClipDaemon

/-- What a client is told of an operation. -/
structure OperationResult where
  id : Uuid
  action : String
  status : String
  message : String
  path : Option String
  warning : Option String
deriving DecidableEq

/-- The result of an operation that was given an id. -/
def OperationResult.withId (id : Uuid) (action status message : String) : OperationResult where
  id := id
  action := action
  status := status
  message := message
  path := none
  warning := none

/-- A freshly generated identity. -/
def OperationResult.completed (id : Uuid) (action message : String) : OperationResult :=
  withId id action "completed" message

/-- The statuses that work returns. -/
inductive CompletionStatus
  | completed
  | cancelled
deriving DecidableEq

def CompletionStatus.name : CompletionStatus → String
  | .completed => "completed"
  | .cancelled => "cancelled"

/-- How the work of an operation has ended. -/
structure OperationCompletion where
  status : CompletionStatus
  message : String
  warning : Option String
deriving DecidableEq

/-- The phases of an `OperationControl`. -/
inductive Phase
  | editing
  | committing
  | cancelled
  | finished
deriving DecidableEq

/-- An operation that was registered. -/
structure OperationTask where
  initial : OperationResult
  action : String
  files : List String
deriving DecidableEq

/-- Where the spawned `complete` stands. -/
inductive TaskState
  | none
  /-- It waits for the start barrier. -/
  | ready (action : String)
  | working (action : String)
  /-- The work waits for a closure on the blocking pool (`run_blocking`). -/
  | blocking (action : String)
  /-- The work has returned; the critical section is next. -/
  | ended (action : String) (result : BackendResult OperationCompletion)
  /-- The lock is released; the control is finished next. -/
  | finishing (event : Option OperationResult)
  /-- The continuation runs. -/
  | after
  | over

/-- Where the spawned `finish_cancel` stands. -/
inductive CleanupState
  | none
  | aborting (task : OperationTask)
  /-- It waits for the aborted task to end. -/
  | joining (task : OperationTask)
  /-- The files are removed; the critical section is next. -/
  | dropped (action : String)
  | done

/-- What happens to an operation. -/
inductive OperationEffect
  | registered (operation : OperationResult)
  /-- The started event is sent. -/
  | started
  /-- `begin_commit` returns true. -/
  | began
  /-- The work returns. -/
  | worked (result : BackendResult OperationCompletion)
  /-- A cancellation takes the operation. -/
  | claimed
  /-- The terminal event is retained and sent. -/
  | ended (time : Nat) (event : OperationResult)
  /-- The staged files are removed. -/
  | removed (files : List String)

/-- The operations of the backend. -/
structure Operations where
  now : Nat
  active : Uuid → Option OperationTask
  cancelling : Uuid → Option OperationResult
  terminal : List (Nat × OperationResult)
  /-- The keys that were ever inserted into the maps. -/
  ids : List Uuid
  /-- A control that nobody has used is `editing`, as a new one is. -/
  control : Uuid → Phase
  task : Uuid → TaskState
  /-- A closure of the work runs on the blocking pool. -/
  closure : Uuid → Bool
  /-- The task is aborted at its next await. -/
  aborted : Uuid → Bool
  /-- The start barrier is sent. -/
  started : Uuid → Bool
  cleanup : Uuid → CleanupState
  /-- What happened, oldest first. -/
  log : List (Uuid × OperationEffect)

namespace Operations

/-- No operation is there. -/
def initial (now : Nat) : Operations where
  now := now
  active := fun _ => none
  cancelling := fun _ => none
  terminal := []
  ids := []
  control := fun _ => .editing
  task := fun _ => .none
  closure := fun _ => false
  aborted := fun _ => false
  started := fun _ => false
  cleanup := fun _ => .none
  log := []

/-- What happened to the operation is logged. -/
def record (id : Uuid) (effect : OperationEffect) (s : Operations) : Operations :=
  { s with log := s.log ++ [(id, effect)] }

/-! ## Results -/

def MAX_TERMINAL : Nat := 256

/-- Milliseconds. -/
def TERMINAL_AGE : Nat := 300000

/-- Results are kept for a while, and not too many. -/
def prune (s : Operations) : Operations :=
  { s with terminal := Retention.prune TERMINAL_AGE s.now s.terminal }

/-- Retain a terminal result, and send it. -/
def retain (id : Uuid) (result : OperationResult) (s : Operations) : Operations :=
  record id (.ended s.now result)
    { s with terminal := Retention.retain MAX_TERMINAL TERMINAL_AGE s.now s.terminal result }

/-- What is known of the operation. -/
def status (id : Uuid) (s : Operations) : Option OperationResult × Operations :=
  let s := s.prune
  (((s.active id).map (·.initial)).orElse fun _ =>
    (s.cancelling id).orElse fun _ =>
      (s.terminal.find? fun entry => entry.2.id = id).map (·.2), s)

/-- The ids in both maps. -/
def activeIds (s : Operations) : List Uuid :=
  s.ids.filter fun id => (s.active id).isSome || (s.cancelling id).isSome

/-- An operation of this kind is active. -/
def contains (action : String) (s : Operations) : Bool :=
  s.ids.any fun id =>
    (s.active id).any (·.action = action) || (s.cancelling id).any (·.action = action)

/-! ## The control -/

/-- The phase of the operation. -/
def setControl (id : Uuid) (phase : Phase) (s : Operations) : Operations :=
  { s with control := Function.update s.control id phase }

/-- The state of its task. -/
def setTask (id : Uuid) (state : TaskState) (s : Operations) : Operations :=
  { s with task := Function.update s.task id state }

/-- Does the closure of its task run? -/
def setClosure (id : Uuid) (runs : Bool) (s : Operations) : Operations :=
  { s with closure := Function.update s.closure id runs }

/-- The state of its cleanup. -/
def setCleanup (id : Uuid) (state : CleanupState) (s : Operations) : Operations :=
  { s with cleanup := Function.update s.cleanup id state }

/-- From here on a cancellation comes too late. -/
def beginCommit (id : Uuid) (s : Operations) : Bool × Operations :=
  match s.control id with
  | .editing => (true, record id .began (s.setControl id .committing))
  | _ => (false, s)

/-! ## The work of an operation -/

/-- The terminal event of work that has returned. -/
def report (id : Uuid) (action : String) : BackendResult OperationCompletion → OperationResult
  | .ok completion =>
      { OperationResult.withId id action completion.status.name completion.message with
        warning := completion.warning }
  | .error error => .withId id action "failed" error.message

/-- The critical section of `complete`.  A cancellation may have taken the operation. -/
def complete (id : Uuid) (action : String) (result : BackendResult OperationCompletion)
    (s : Operations) : Operations :=
  match s.active id with
  | some task =>
      let event := report id action result
      let s := record id (.removed task.files)
        { s with active := Function.update s.active id none }
      (s.retain id event).setTask id (.finishing (some event))
  | none => s.setTask id (.finishing none)

/-- The closure returns, and its task goes on if it still waits. -/
def leavePool (id : Uuid) (s : Operations) : Operations :=
  match s.task id with
  | .blocking action => (s.setClosure id false).setTask id (.working action)
  | _ => s.setClosure id false

/-- What the task of an operation does next. -/
inductive TaskMove
  /-- The start barrier opens. -/
  | begin
  /-- The work calls `begin_commit`. -/
  | commit
  /-- The work hands a closure to the blocking pool. -/
  | block
  /-- The closure returns. -/
  | unblock
  /-- The work returns. -/
  | finish (result : BackendResult OperationCompletion)
  /-- What follows the work. -/
  | next
  /-- The abortion strikes at an await. -/
  | abort

/-- One step of the task of an operation. -/
def pollTask (id : Uuid) (move : TaskMove) (s : Operations) : Option Operations :=
  match move, s.task id with
  | .begin, .ready action => if s.started id then some (s.setTask id (.working action)) else none
  | .commit, .working _ => some (s.beginCommit id).2
  | .block, .working action => some ((s.setClosure id true).setTask id (.blocking action))
  | .unblock, _ => if s.closure id then some (s.leavePool id) else none
  | .finish result, .working action =>
      some (record id (.worked result) (s.setTask id (.ended action result)))
  | .next, .ended action result => some (s.complete id action result)
  | .next, .finishing event =>
      some ((s.setControl id .finished).setTask id (if event.isSome then .after else .over))
  | .next, .after => some (s.setTask id .over)
  -- the closure of a task that waits for it goes on
  | .abort, .ready _ | .abort, .working _ | .abort, .blocking _ | .abort, .after =>
      if s.aborted id then some (s.setTask id .over) else none
  | _, _ => none

/-! ## The cleanup of a cancellation -/

/-- The critical section of `finish_cancel`. -/
def publishCancelled (id : Uuid) (action : String) (s : Operations) : Operations :=
  let event := OperationResult.withId id action "cancelled" "Image operation cancelled"
  let s := { s with cancelling := Function.update s.cancelling id none }
  ((s.retain id event).setControl id .finished).setCleanup id .done

/-- One step of the cleanup after a cancellation. -/
def pollCleanup (id : Uuid) (s : Operations) : Option Operations :=
  match s.cleanup id with
  | .aborting task =>
      some ({ s with aborted := Function.update s.aborted id true }.setCleanup id (.joining task))
  | .joining task =>
      match s.task id with
      | .over => some (record id (.removed task.files) (s.setCleanup id (.dropped task.action)))
      | _ => none
  | .dropped action => some (s.publishCancelled id action)
  | _ => none

/-! ## Callers -/

/-- What the schedule and the surroundings choose for one statement. -/
inductive Chance
  /-- A generated identity. -/
  | uuid (id : Uuid)
  /-- The order in which a hash map is traversed. -/
  | order (ids : List Uuid)
  | task (id : Uuid) (move : TaskMove)
  | cleanup (id : Uuid)
  | none

/-- Threads over the operations. -/
abbrev Work (α : Type) := Thread Operations Chance α

/-- Insert an operation under an identity that was not used before, and spawn its task. -/
def register (action message : String) (files : List String) : Work OperationResult :=
  Thread.atomic fun chance s =>
    match chance with
    | .uuid id =>
        if id ∈ s.ids then none
        else
          let operation := { OperationResult.completed id action message with status := "started" }
          let s := record id (.registered operation)
            { s with active := Function.update s.active id (some ⟨operation, action, files⟩) }
          some (operation, { s with ids := s.ids ++ [id] }.setTask id (.ready action))
    | _ => none

/-- The start barrier.  Its receiver is gone when the task was aborted. -/
def start (id : Uuid) : Work (BackendResult Unit) :=
  Thread.modify fun s =>
    match s.task id with
    | .over => (.error (operationError "Clipboard operation could not start"), s)
    | _ => (.ok (), { s with started := Function.update s.started id true })

/-- An operation is registered, and its task is spawned. -/
def launch (action message : String) (files : List String) :
    Work (BackendResult OperationResult) := do
  let operation ← register action message files
  Thread.modify fun s => ((), record operation.id .started s)
  match ← start operation.id with
  | .ok _ => return .ok operation
  | .error error => return .error error

/-- Committing operations keep their record and report their real outcome. -/
def claim (id : Uuid) : Work Bool :=
  Thread.modify fun s =>
    match s.active id, s.control id with
    | some task, .editing =>
        let s := record id .claimed { s.setControl id .cancelled with
          active := Function.update s.active id none
          cancelling := Function.update s.cancelling id (some task.initial) }
        (true, s.setCleanup id (.aborting task))
    | _, _ => (false, s)

/-- Wait for the cleanup, which goes on without its waiter. -/
def cleaned (id : Uuid) : Work Unit :=
  Thread.atomic fun _ s =>
    match s.cleanup id with
    | .done => some ((), s)
    | _ => none

/-- The record is taken, and the task is aborted. -/
def cancel (id : Uuid) : Work Bool := do
  let claimed ← claim id
  if claimed then
    cleaned id
    return true
  else return false

/-- `OperationControl::wait`. -/
def wait (id : Uuid) : Work Unit :=
  Thread.atomic fun _ s =>
    match s.control id with
    | .finished => some ((), s)
    | _ => none

/-- One after the other. -/
def drain : List Uuid → Work Unit
  | [] => return ()
  | id :: ids => do
      let cancelled ← cancel id
      if cancelled then drain ids
      else
        wait id
        drain ids

/-- The ids in both maps, in the order of the traversal. -/
def snapshot : Work (List Uuid) :=
  Thread.atomic fun chance s =>
    match chance with
    | .order ids => if ids.Perm s.activeIds then some (ids, s) else none
    | _ => none

/-- All operations are cancelled. -/
def stop : Work Unit := do
  let ids ← snapshot
  drain ids

/-- A step of a spawned task. -/
def poll : Work Unit :=
  Thread.atomic fun chance s =>
    match chance with
    | .task id move => (s.pollTask id move).map ((), ·)
    | .cleanup id => (s.pollCleanup id).map ((), ·)
    | _ => none

/-- The calls on operations. -/
inductive Call
  | launch (action message : String) (files : List String)
  | cancel (id : Uuid)
  | stop
  | status (id : Uuid)
  | activeIds
  | contains (action : String)
  | poll
  /-- Time passes. -/
  | elapse (time : Nat)

/-- Their answers. -/
inductive Answer
  | launched (result : BackendResult OperationResult)
  | cancelled (cancelled : Bool)
  | status (result : Option OperationResult)
  | ids (ids : List Uuid)
  | contains (found : Bool)
  | done

/-- The thread that executes a call. -/
def program (_ : Nat) : Call → Work Answer
  | .launch action message files => do return .launched (← launch action message files)
  | .cancel id => do return .cancelled (← cancel id)
  | .stop => do
      stop
      return .done
  | .status id => do return .status (← Thread.modify (status id))
  | .activeIds => do return .ids (← Thread.modify fun s => (s.activeIds, s))
  | .contains action => do return .contains (← Thread.modify fun s => (s.contains action, s))
  | .poll => do
      poll
      return .done
  | .elapse time => do
      Thread.modify fun s => ((), { s with now := s.now + time })
      return .done

/-- The operations before the first call. -/
def service (now : Nat) : Pool Operations Chance Call Answer := Pool.start (initial now)

end Operations

end ClipDaemon
