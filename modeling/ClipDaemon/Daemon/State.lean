import ClipDaemon.Api.Authority
import ClipDaemon.Api.Receipts
import ClipDaemon.Api.Watermarks
import ClipDaemon.History.Mutation
import ClipDaemon.Settings

/-!
# The daemon as a whole

`ApiService` (`api.rs`) over everything that it uses: the authority of its callers, the book of
their operations, the backend with its store and its files, and the settings with the capture
owner.  `Authority`, `Jobs` and `Artifacts` have a model of their own; here they are parts of
one state, and their programs run on it as they are.

Requests are threads.  A statement of theirs is a statement of one part, the taking or giving
back of a lock, or a step of the annotation that an operation carries out.  The state keeps
what the statements have changed in the store, with the request or the operation that did it,
the leases that were handed out, when captures began, who has changed the settings, and what was
dropped of callers that had left.  No statement reads these.
-/

namespace ClipDaemon

open Thread (attempt outcome result)

namespace Daemon

/-- What a caller holds. -/
abbrev Held := Authority.Held

/-- Who changes the store. -/
inductive Source
  | request (thread : Nat)
  | operation (id : Uuid)
  /-- A captured selection. -/
  | capture (thread : Nat)
  /-- The capture owner lets the store admit selections, or not. -/
  | admission
deriving DecidableEq

/-- What one statement has changed in the store. -/
structure Commit where
  source : Source
  before : Tables
  after : Tables

end Daemon

/-- The state of the whole daemon. -/
structure Daemon (F : Type) where
  authority : Authority
  jobs : Jobs
  backend : Artifacts.Backend F
  /-- The thread that holds the operation gate of the backend. -/
  gate : Option Nat
  /-- The thread that holds the lock of the settings. -/
  settings : Option Nat
  preferences : ClipboardSettings
  /-- The observation clock, and the thread that holds its lock. -/
  history : Clock
  reading : Option Nat
  /-- The time at which the history search was opened. -/
  started : Nat
  /-- Threads of the capture owner may be at work. -/
  capturing : Bool
  /-- The threads of the capture owner that are about to change the policy of the store. -/
  admitting : List Nat
  /-- How often capture was stopped. -/
  session : Nat
  /-- The threads that hand a selection over to the store. -/
  ingesting : List Nat
  /-- The annotations that operations carry out. -/
  stages : Uuid → Option AnnotationStage
  /-- The edit leases that were handed out, each with the thread that did it. -/
  leases : List (Nat × EditLease)
  /-- The thread that does the work of an operation. -/
  workers : Uuid → Option Nat
  /-- The transport has marked the owner as gone. -/
  departed : String → Bool
  /-- What was dropped of an owner that was marked before. -/
  swept : Daemon.Held → String → Bool
  /-- What was changed in the store, oldest first. -/
  commits : List Daemon.Commit
  /-- The session in which the transfer of a selection began, and how many commits there were. -/
  captures : Nat → Option (Nat × Nat)
  /-- How many commits there were after the statements that have found capture stopped. -/
  quiesced : List Nat
  /-- The threads that have taken the lock of the settings, in this order. -/
  governors : List Nat

namespace Daemon

variable {F : Type}

/-- A daemon that has just opened its store. -/
def initial (store : Store) (files : F) (clock now : Nat) (preferences : ClipboardSettings) :
    Daemon F where
  authority := .initial now
  jobs := .initial now
  backend := ⟨store, none, files, clock, none, false, []⟩
  gate := none
  settings := none
  preferences := preferences
  history := ⟨none, 0⟩
  reading := none
  started := now
  capturing := false
  admitting := []
  session := 0
  ingesting := []
  stages := fun _ => none
  leases := []
  workers := fun _ => none
  departed := fun _ => false
  swept := fun _ _ => false
  commits := []
  captures := fun _ => none
  quiesced := []
  governors := []

/-- What the store has committed. -/
def committed (s : Daemon F) : Tables := s.backend.committed

/-- The outcome of a transaction is not known, and nothing is done any more. -/
def fenced (s : Daemon F) : Bool := s.backend.store.db.blocked

/-- Capture was stopped, and its threads have ended. -/
def captureFenced (s : Daemon F) : Bool := !s.capturing && s.ingesting.isEmpty

/-- The backend after a statement, and what it has changed. -/
def setBackend (source : Source) (s : Daemon F) (backend : Artifacts.Backend F) : Daemon F :=
  let commits :=
    if backend.committed = s.backend.committed then s.commits
    else s.commits ++ [⟨source, s.backend.committed, backend.committed⟩]
  { s with
    backend
    commits
    quiesced := if s.captureFenced then s.quiesced ++ [commits.length] else s.quiesced }

/-- What the surroundings choose for one statement. -/
structure Chance where
  authority : Authority.Chance
  jobs : Jobs.Chance
  backend : Artifacts.Chance

/-! ## Programs of the parts -/

/-- A program of the daemon. -/
abbrev Work (F α : Type) := Thread (Daemon F) Chance α

/-- A program of a request, with the errors of the API. -/
abbrev Act (F : Type) := ExceptT ApiError (Thread (Daemon F) Chance)

/-- The layer of the backend, with errors of its own. -/
abbrev BackendAct (F : Type) := ExceptT BackendError (Thread (Daemon F) Chance)

/-- A program of the authority runs on that part of the state. -/
def onAuthority {α : Type} (m : Authority.Act α) : Act F α :=
  ExceptT.mk (m.run.zoom Daemon.authority (fun s authority => { s with authority }) (·.authority))

/-- A program of the operations runs on that part of the state. -/
def onJobs {α : Type} (m : Jobs.Work α) : Work F α :=
  m.zoom Daemon.jobs (fun s jobs => { s with jobs }) (·.jobs)

/-- A program of the backend runs on that part of the state, and its commits are noted. -/
def onBackend {α : Type} (source : Source) (m : Artifacts.Act F α) : BackendAct F α :=
  ExceptT.mk (m.run.zoom Daemon.backend (setBackend source) (·.backend))

/-- `?` on a result of the backend. -/
def fromBackend {α : Type} (m : BackendAct F α) : Act F α :=
  ExceptT.mk do
    let r ← m.run
    pure (r.mapError ApiError.ofBackend)

/-! ## Locks -/

def lockGate (i : Nat) : BackendAct F Unit :=
  attempt fun _ s => if s.gate = none then some (.ok (), { s with gate := some i }) else none

def unlockGate : BackendAct F Unit := attempt fun _ s => some (.ok (), { s with gate := none })

/-- The gate is held from here to the end. -/
def gated {α : Type} (i : Nat) (m : BackendAct F α) : BackendAct F α := do
  lockGate i
  let r ← outcome m
  unlockGate
  result r

def lockTransaction (i : Nat) : BackendAct F Unit :=
  attempt fun _ s =>
    if s.backend.transaction = none then
      some (.ok (), { s with backend := { s.backend with transaction := some i } })
    else none

def unlockTransaction : BackendAct F Unit :=
  attempt fun _ s => some (.ok (), { s with backend := { s.backend with transaction := none } })

/-- The transaction lock is held from here to the end. -/
def locked {α : Type} (i : Nat) (m : BackendAct F α) : BackendAct F α := do
  lockTransaction i
  let r ← outcome m
  unlockTransaction
  result r

/-- A backend that is shut down refuses. -/
def ensureRunning : BackendAct F Unit :=
  attempt fun chance s =>
    some (match chance.authority.fails with
      | some _ => .error (.unavailable "Clipboard backend is shut down")
      | none => .ok (), s)

/-- `run_backend!`. -/
def transacted {α : Type} (i : Nat) (source : Source) (m : Artifacts.Act F α) : BackendAct F α :=
  locked i do
    ensureRunning
    onBackend source m

def lockSettings (i : Nat) : Act F Unit :=
  attempt fun _ s =>
    if s.settings = none then
      some (.ok (), { s with settings := some i, governors := s.governors ++ [i] })
    else none

def unlockSettings : Act F Unit := attempt fun _ s => some (.ok (), { s with settings := none })

def lockHistory (i : Nat) : Act F Unit :=
  attempt fun _ s => if s.reading = none then some (.ok (), { s with reading := some i }) else none

def unlockHistory : Act F Unit := attempt fun _ s => some (.ok (), { s with reading := none })

/-- The lock of the observation clock is held from here to the end. -/
def observing {α : Type} (i : Nat) (m : Act F α) : Act F α := do
  lockHistory i
  let r ← outcome m
  unlockHistory
  result r

/-! ## Settings

What a transition of the settings does to capture and to the store; the manager itself is in
`ClipDaemon.Settings`. -/

/-- A call to something that is not part of the state. -/
def elsewhere : Act F Unit :=
  attempt fun chance s =>
    some (match chance.authority.fails with | some error => .error error | none => .ok (), s)

/-- The preferences cannot be read while the daemon stops. -/
def readPreferences : Act F ClipboardSettings :=
  attempt fun chance s =>
    some (match chance.authority.fails with
      | some error => .error (settingsError error.message)
      | none => .ok s.preferences, s)

/-- `HistoryStore::policy` and `HistoryStore::apply_policy`, whose errors are texts here. -/
def storeRequest {α : Type} (P : Platform) (H : Machine F) (source : Source) (request : Request)
    (pick : Reply → Option α) : Act F α := do
  let replied ← outcome (fromBackend (onBackend source (Artifacts.ask P H.toHost request pick)))
  result (replied.mapError fun error => settingsError error.message)

def readPolicy (P : Platform) (H : Machine F) (source : Source) : Act F StorePolicy :=
  storeRequest P H source .policy fun | .policy policy => some policy | _ => none

def applyPolicy (P : Platform) (H : Machine F) (source : Source) (policy : StorePolicy) :
    Act F Unit :=
  storeRequest P H source (.applyPolicy policy) fun _ => some ()

/-- Capture is started, or stopped: then its threads have ended and its session is over, unless
it fails. -/
def captureSetPaused (paused : Bool) : Act F Unit :=
  attempt fun chance s =>
    match chance.authority.fails with
    | some error =>
        some (.error (settingsError error.message),
          { s with capturing := s.capturing || chance.authority.flag })
    | none =>
        if paused then
          if s.admitting.isEmpty && s.ingesting.isEmpty then
            some (.ok (), { s with capturing := false, session := s.session + 1 })
          else none
        else some (.ok (), { s with capturing := true })

/-- The store admits no selection any more. -/
def closeAdmission (P : Platform) (H : Machine F) (source : Source) : Act F Unit := do
  let policy ← readPolicy P H source
  applyPolicy P H source { policy with admission := false }

/-- Capture is stopped, and then the store is closed for it. -/
def quiesceLocked (P : Platform) (H : Machine F) (source : Source) : Act F Unit := do
  captureSetPaused true
  closeAdmission P H source

/-- The store runs under the limits that are preferred. -/
def retentionMatches (P : Platform) (H : Machine F) (source : Source)
    (desired : ClipboardSettings) : Act F Bool := do
  match ← outcome (readPolicy P H source) with
  | .ok limits => pure (limitsMatch limits desired)
  | .error _ => pure false

/-- Capture is switched as it is preferred, and its state is noted. -/
def switchCapture (P : Platform) (H : Machine F) (source : Source) (updated : ClipboardSettings) :
    Act F Unit := do
  captureSetPaused updated.capturePaused
  if updated.capturePaused then
    closeAdmission P H source
    elsewhere
  else elsewhere

/-- Capture may not start under other limits. -/
def synchronized (P : Platform) (H : Machine F) (source : Source) (updated : ClipboardSettings) :
    Act F Bool :=
  if updated.capturePaused then pure true else retentionMatches P H source updated

/-- Capture follows the settings, if the store has their limits. -/
def applyCapture (P : Platform) (H : Machine F) (source : Source) (updated : ClipboardSettings) :
    Act F Unit := do
  if ← synchronized P H source updated then switchCapture P H source updated
  else
    quiesceLocked P H source
    throw (settingsError "Capture is disabled until store retention/limits are synchronized")

/-! ## Operations -/

/-- `HistoryBackend::operations.stop`. -/
def stopOperations (i : Nat) : BackendAct F Unit :=
  ExceptT.lift (onJobs (Jobs.onBackend i Operations.stop))

/-- The task that is about to be spawned. -/
def stage (i : Nat) (staged : AnnotationStage) : BackendAct F Unit :=
  attempt fun _ s => some (.ok (), { s with stages := Function.update s.stages i (some staged) })

/-- The editor is started as an operation. -/
def Annotate.launch (i : Nat) (staged : AnnotationStage) : BackendAct F OperationResult := do
  stage i staged
  let launched ← ExceptT.lift (onJobs (Jobs.onBackend i (Operations.launch "annotate"
    "Image editor started" ([staged.input, staged.output].filterMap fromUtf8))))
  result launched

/-- A step of the task of an operation. -/
def pollTask (id : Uuid) (move : Operations.TaskMove) : Work F Unit :=
  Thread.atomic fun _ s =>
    (s.jobs.backend.pollTask id move).map fun backend =>
      ((), { s with jobs := { s.jobs with backend } })

end Daemon

end ClipDaemon
