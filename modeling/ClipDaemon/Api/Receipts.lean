import ClipDaemon.Api.Session
import ClipDaemon.History.Operation

/-!
# Owned operations

The API keeps a book of the operations that its callers have started (`api.rs`,
`api/operations.rs`): a record for each, which its owner reads and which follows the
backend, and a reservation for each request that may start one.  The backend is the truth;
its events only say that a record may be out of date.

Every request is a thread.  Its statements are the critical sections of the book, the calls
to the backend, and the awaits at which a caller may abandon the request.  The operation
that a request launches has the number of its thread for an identity.
-/

namespace ClipDaemon

/-! ## Parameters -/

/-- A JSON value. -/
inductive Value
  | null
  | bool (b : Bool)
  | number (n : Int)
  | float
  | string (s : String)
  | array (items : List Value)
  | object (fields : List (String × Value))

namespace Value

/-- The value of a field. -/
def field (fields : List (String × Value)) (key : String) : Option Value :=
  (fields.find? fun entry => entry.1 = key).map (·.2)

/-- Indexing by a key: what has no such field yields `null`. -/
def get (key : String) : Value → Value
  | .object fields => (field fields key).getD .null
  | _ => .null

def isString (text : String) : Value → Bool
  | .string s => s = text
  | _ => false

def asString : Value → Option String
  | .string s => some s
  | _ => none

def asNat (bound : Nat) : Value → Option Nat
  | .number n => if 0 ≤ n ∧ n < bound then some n.toNat else none
  | _ => none

/-- An optional value, which may be `null`. -/
def asOption {α : Type} (read : Value → Option α) : Value → Option (Option α)
  | .null => some none
  | value => (read value).map some

end Value

/-- The parameters of an action, as they are decoded. -/
structure ActionParams where
  entryId : String
  revision : Nat
  action : String
  sessionId : Option String
  fileIndex : Option Nat

/-- The derived deserializer: from an object, where the optional fields may be missing, or
from an array of all fields in their order. -/
def ActionParams.ofValue : Value → Option ActionParams
  | .object fields => do
      let entryId ← (Value.field fields "entry_id").bind Value.asString
      let revision ← (Value.field fields "revision").bind (Value.asNat (2 ^ 64))
      let action ← (Value.field fields "action").bind Value.asString
      let sessionId ← Value.asOption Value.asString ((Value.field fields "session_id").getD .null)
      let fileIndex ←
        Value.asOption (Value.asNat (2 ^ 64)) ((Value.field fields "file_index").getD .null)
      return ⟨entryId, revision, action, sessionId, fileIndex⟩
  | .array [entryId, revision, action, sessionId, fileIndex] => do
      let entryId ← entryId.asString
      let revision ← revision.asNat (2 ^ 64)
      let action ← action.asString
      let sessionId ← sessionId.asOption Value.asString
      let fileIndex ← fileIndex.asOption (Value.asNat (2 ^ 64))
      return ⟨entryId, revision, action, sessionId, fileIndex⟩
  | _ => none

/-- The requests that reserve before they are dispatched. -/
def mayStart (method : String) (params : Value) : Bool :=
  method = "clipboard.capture.interactive" ||
    (method = "clipboard.entry.action" && (params.get "action").isString "annotate")

/-! ## The book -/

/-- Milliseconds. -/
def RETENTION : Nat := 300000
def MAX_ACTIVE : Nat := 64
def MAX_OWNER_ACTIVE : Nat := 16
def MAX_RECORDS : Nat := 256

/-- What the book knows of an operation. -/
structure Record where
  /-- The key of the record. -/
  id : Uuid
  owner : Owner
  operation : OperationResult
  revision : Nat
  updated : Nat
deriving DecidableEq

/-- The operation has not ended. -/
def Record.active (record : Record) : Bool := record.operation.status = "started"

/-- The record with a newer operation. -/
def Record.next (operation : OperationResult) (now : Nat) (record : Record) : Record :=
  { record with
    operation := operation
    revision := record.revision + 1
    updated := now }

/-- The operations that clients may ask for, and the room that is reserved. -/
structure Book where
  records : List Record
  /-- The reservations, by the threads that hold them. -/
  pending : List (Nat × Owner)

namespace Book

/-- The record of the operation. -/
def find (book : Book) (id : Uuid) : Option Record := book.records.find? fun record =>
    record.id = id

/-- Records that have ended are kept for a while. -/
def prune (now : Nat) (book : Book) : Book :=
  { book with
    records := book.records.filter fun record => record.active || now - record.updated < RETENTION }

/-- Room for one operation, in all and for the owner. -/
def reserve (i : Nat) (owner : Owner) (now : Nat) (book : Book) : ApiResult Unit × Book :=
  let book := book.prune now
  let active := book.pending.length + book.records.countP (·.active)
  let own := book.pending.countP (·.2 = owner) +
    book.records.countP fun record => record.active && record.owner = owner
  if MAX_ACTIVE ≤ active ∨ MAX_OWNER_ACTIVE ≤ own then
    (.error (.new "busy" "Too many active clipboard operations"), book)
  else (.ok (), { book with pending := book.pending ++ [(i, owner)] })

/-- The reservation is dropped. -/
def release (i : Nat) (book : Book) : Book :=
  { book with pending := book.pending.filter fun entry => entry.1 ≠ i }

/-- The ended records that were updated first. -/
def oldest (book : Book) : List Uuid :=
  (book.records.filter fun record => !record.active &&
    book.records.all fun other => other.active || record.updated ≤ other.updated).map (·.id)

/-- The record takes the place of an older one. -/
def insert (record : Record) (book : Book) : Book :=
  { book with records := (book.records.filter fun other => other.id ≠ record.id) ++ [record] }

/-- Register an operation; a full book evicts the ended record that was updated first.  Of
several, `victim` is the one. -/
def register (victim : Option Uuid) (operation : OperationResult) (owner : Owner) (now : Nat)
    (book : Book) : Option (Option Uuid × Book) :=
  let book := book.prune now
  let record : Record := ⟨operation.id, owner, operation, 1, now⟩
  if MAX_RECORDS ≤ book.records.length ∧ book.oldest ≠ [] then
    match victim with
    | some id =>
        if id ∈ book.oldest then
          some (some id, insert record
            { book with records := book.records.filter fun record => record.id ≠ id })
        else none
    | none => none
  else some (none, book.insert record)

/-- A record is replaced by a newer version of itself. -/
def update (record : Record) (book : Book) : Book :=
  { book with records := book.records.map fun other => if other.id = record.id then record
    else other }

end Book

/-! ## State -/

/-- What the requests do that others can see. -/
inductive JobEffect
  | reserved (owner : Owner)
  /-- The operation of the thread is entered into the book. -/
  | registered (owner : Owner)
  /-- A full book drops a record. -/
  | evicted (id : Uuid)
  /-- A lifecycle event, for the owner alone. -/
  | emitted (owner : Owner) (revision : Nat) (operation : OperationResult)
  /-- A response, for the owner alone. -/
  | read (owner : Owner) (revision : Nat) (operation : OperationResult)

/-- The backend's operations and the book of the API. -/
structure Jobs where
  backend : Operations
  book : Book
  /-- What happened, oldest first, with the thread that did it. -/
  log : List (Nat × JobEffect)

namespace Jobs

/-- No operation is known. -/
def initial (now : Nat) : Jobs where
  backend := .initial now
  book := ⟨[], []⟩
  log := []

def now (s : Jobs) : Nat := s.backend.now

/-- What thread `i` did is logged. -/
def record (i : Nat) (effect : JobEffect) (s : Jobs) : Jobs :=
    { s with log := s.log ++ [(i, effect)] }

/-- `operation.changed` is sent to the owner. -/
def emit (i : Nat) (entry : Record) (s : Jobs) : Jobs :=
  record i (.emitted entry.owner entry.revision entry.operation) s

/-- What the backend says of an operation whose record is active; `none` when it does not
say.  An operation that is in no map of the backend stays so, and the second look, at the
active ones, sees no less than the first. -/
def current (id : Uuid) (entry : Record) (s : Jobs) : Option OperationResult × Jobs :=
  let read := s.backend.status id
  let s := { s with backend := read.2 }
  match read.1 with
  | some operation => (some operation, s)
  | none =>
      if id ∈ s.backend.activeIds then (none, s)
      else (some (.withId id entry.operation.action "unknown"
        "Operation outcome is unavailable; do not replay"), s)

/-- Bring a record up to date with the backend. -/
def refresh (i : Nat) (id : Uuid) (s : Jobs) : Jobs :=
  match s.book.find id with
  | none => s
  | some entry =>
      if entry.active then
        let read := s.current id entry
        match read.1 with
        | none => read.2
        | some operation =>
            if entry.operation = operation then read.2
            else
              let entry := entry.next operation s.now
              emit i entry { read.2 with book := read.2.book.update entry }
      else s

/-- Enter an operation into the book, as the backend shows it by now. -/
def track (i : Nat) (initial : OperationResult) (owner : Owner) (victim : Option Uuid) (s : Jobs) :
    Option Jobs :=
  let read := s.backend.status initial.id
  let current := read.1.getD initial
  (s.book.register victim current owner s.now).map fun registered =>
    let s := { s with backend := read.2, book := registered.2 }
    let s := match registered.1 with
      | some id => record i (.evicted id) s
      | none => s
    emit i ⟨current.id, owner, current, 1, s.now⟩ (record i (.registered owner) s)

/-- Drop the ended records that are too old. -/
def prune (s : Jobs) : Jobs := { s with book := s.book.prune s.now }

/-- Read the record of an operation for its owner. -/
def readRecord (i : Nat) (id : Uuid) (owner : Owner) (s : Jobs) :
    ApiResult (OperationResult × Nat) × Jobs :=
  let s := s.prune
  match s.book.find id with
  | some entry =>
      if entry.owner = owner then
        (.ok (entry.operation, entry.revision),
          record i (.read entry.owner entry.revision entry.operation) s)
      else (.error (.new "operation-unknown"
        "Operation outcome is unknown or expired; do not replay"), s)
  | none => (.error (.new "operation-unknown"
      "Operation outcome is unknown or expired; do not replay"), s)

/-! ## Threads -/

/-- What the schedule and the surroundings choose for one statement. -/
inductive Chance
  | none
  /-- The order in which a hash map is traversed. -/
  | order (ids : List Uuid)
  /-- The record that a full book evicts. -/
  | victim (id : Option Uuid)
  /-- A call outside of this state fails. -/
  | fails (error : ApiError)
  /-- The caller drops the request. -/
  | abandon
  | backend (chance : Operations.Chance)

/-- Why a request ends early. -/
inductive Halt
  | failed (error : ApiError)
  | abandoned

/-- A program on the operations and the book. -/
abbrev Work (α : Type) := Thread Jobs Chance α

/-- A program that may halt before its answer. -/
abbrev Act (α : Type) := ExceptT Halt (Thread Jobs Chance) α

/-- What a program of the backend is told; a launch by thread `i` draws the number of the
thread. -/
def pick (i : Nat) : Chance → Operations.Chance
  | .backend (.uuid _) => .uuid i
  | .backend chance => chance
  | .order ids => .order ids
  | _ => .uuid i

/-- A program of the operations runs on that part of the state. -/
def onBackend {α : Type} (i : Nat) (m : Operations.Work α) : Work α :=
  m.zoom Jobs.backend (fun s backend => { s with backend := backend }) (pick i)

/-- A part of a request that does not touch this state: it may fail, or be abandoned. -/
def elsewhere : Act Unit :=
  Thread.attempt fun chance s =>
    match chance with
    | .fails error => some (.error (.failed error), s)
    | .abandon => some (.error .abandoned, s)
    | _ => some (.ok (), s)

/-- The record follows the operation. -/
def refreshOperation (i : Nat) (id : Uuid) : Work Unit := Thread.modify fun s =>
    ((), s.refresh i id)

/-- The records of these operations. -/
def refreshAll (i : Nat) : List Uuid → Work Unit
  | [] => return ()
  | id :: ids => do
      refreshOperation i id
      refreshAll i ids

/-- The ids of the records with a property, in the order of the traversal. -/
def records (p : Record → Bool) : Work (List Uuid) :=
  Thread.atomic fun chance s =>
    match chance with
    | .order ids => if ids.Perm ((s.book.records.filter p).map (·.id)) then some (ids, s) else none
    | _ => none

/-- All records follow their operations, and the book is pruned. -/
def refreshOperations (i : Nat) : Work Unit := do
  let ids ← records fun _ => true
  refreshAll i ids
  Thread.modify fun s => ((), s.prune)

/-- An operation that was started is entered into the book. -/
def trackOperation (i : Nat) (initial : OperationResult) (owner : Owner) : Work Unit :=
  Thread.atomic fun chance s =>
    match chance with
    | .victim victim => (s.track i initial owner victim).map ((), ·)
    | _ => none

/-- What the book says of the operation, to its owner. -/
def operationStatus (i : Nat) (id : Uuid) (owner : Owner) :
    Work (ApiResult (OperationResult × Nat)) := do
  refreshOperation i id
  Thread.modify (readRecord i id owner)

def failing {α : Type} : ApiResult α → Except Halt α
  | .ok a => .ok a
  | .error error => .error (.failed error)

/-- Launch an operation of the backend. -/
def launch (i : Nat) (action message : String) (files : List String) : Act OperationResult := do
  let launched ← ExceptT.lift (onBackend i (Operations.launch action message files))
  Thread.result (failing (launched.mapError ApiError.ofBackend))

/-- An entry action; annotations are launched. -/
def entryAction (i : Nat) (params : Value) : Act (Option OperationResult) := do
  elsewhere
  match ActionParams.ofValue params with
  | none => throw (.failed (.validation "invalid parameters"))
  | some params =>
      elsewhere
      if params.action = "annotate" then
        let operation ← launch i "annotate" "Image editor started" []
        return some { operation with action := params.action }
      else return none

/-- A screenshot by the user, of which one may be in progress. -/
def interactiveScreenshot (i : Nat) : Act (Option OperationResult) := do
  elsewhere
  let running ← ExceptT.lift (onBackend i (Thread.modify fun s => (s.contains "screenshot", s)))
  if running then
    throw (.failed (.ofBackend (operationError "A screenshot is already in progress")))
  else
    let operation ← launch i "screenshot" "Screenshot started" []
    return some operation

/-- The operation in the data of a method, if it is one that goes on. -/
def dispatchMethod (i : Nat) (method : String) (params : Value) : Act (Option OperationResult) :=
  if method = "clipboard.capture.interactive" then interactiveScreenshot i
  else if method = "clipboard.entry.action" then entryAction i params
  else do
    elsewhere
    return none

/-- The part of a request for which its reservation is held. -/
def dispatchReserved (i : Nat) (method : String) (params : Value) (owner : Owner) :
    Act (Option (OperationResult × Nat)) := do
  let data ← dispatchMethod i method params
  elsewhere
  match data with
  | some operation =>
      ExceptT.lift (trackOperation i operation owner)
      let status ← ExceptT.lift (operationStatus i operation.id owner)
      return some (← Thread.result (failing status))
  | none => return none

/-- Admission of a request that may start an operation. -/
def reserve (i : Nat) (owner : Owner) : Work (ApiResult Unit) :=
  Thread.modify fun s =>
    let reserved := s.book.reserve i owner s.now
    let s := { s with book := reserved.2 }
    match reserved.1 with
    | .ok _ => (.ok (), record i (.reserved owner) s)
    | .error error => (.error error, s)

/-- The reservation is given back. -/
def release (i : Nat) : Work Unit :=
  Thread.modify fun s => ((), { s with book := s.book.release i })

/-- What a call returns. -/
inductive Answer
  /-- The operation of the response and its revision, if it has one that was started. -/
  | dispatched (result : Except Halt (Option (OperationResult × Nat)))
  | status (result : ApiResult (OperationResult × Nat))
  | cancelled (cancelled : Bool)
  | done

/-- A request.  `clipboard.operation.status` is a call of its own, with the identity that it
decodes. -/
def dispatch (i : Nat) (method : String) (params : Value) (owner : Owner) : Work Answer := do
  refreshOperations i
  if mayStart method params then
    match ← reserve i owner with
    | .error error => return .dispatched (.error (.failed error))
    | .ok _ =>
        let result ← (dispatchReserved i method params owner).run
        release i
        return .dispatched result
  else
    let result ← (dispatchReserved i method params owner).run
    return .dispatched result

/-- `clipboard.operation.status`. -/
def status (i : Nat) (id : Uuid) (owner : Owner) : Work Answer := do
  refreshOperations i
  let result ← operationStatus i id owner
  return .status result

/-- The caller may cancel what it owns and what is active. -/
def owned (id : Uuid) (owner : Owner) : Work Bool :=
  Thread.modify fun s =>
    ((s.book.find id).any fun entry => entry.owner = owner && entry.active, s)

/-- `clipboard.operation.cancel`: only the owner may. -/
def cancel (i : Nat) (id : Uuid) (owner : Owner) : Work Answer := do
  refreshOperations i
  let found ← owned id owner
  if found then
    let cancelled ← onBackend i (Operations.cancel id)
    refreshOperation i id
    return .cancelled cancelled
  else return .cancelled false

/-- The operations of an owner that has left. -/
def cancelAll (i : Nat) : List Uuid → Work Unit
  | [] => return ()
  | id :: ids => do
      let _ ← onBackend i (Operations.cancel id)
      refreshOperation i id
      cancelAll i ids

/-- The caller has left the bus. -/
def releaseOwner (i : Nat) (owner : String) : Work Answer := do
  let ids ← records fun entry => entry.active && entry.owner = some owner
  cancelAll i ids
  return .done

/-- The requests about operations, and what goes on beside them. -/
inductive Call
  | dispatch (method : String) (params : Value) (owner : Owner)
  | status (id : Uuid) (owner : Owner)
  | cancel (id : Uuid) (owner : Owner)
  | releaseOwner (owner : String)
  /-- An event of the backend arrives. -/
  | observed (id : Uuid)
  /-- Events of the backend were lost. -/
  | lagged
  /-- A step of the tasks of the backend. -/
  | poll
  /-- The backend stops its operations. -/
  | stop
  /-- Time passes. -/
  | elapse (time : Nat)

/-- The thread that executes a call. -/
def program (i : Nat) : Call → Work Answer
  | .dispatch method params owner => dispatch i method params owner
  | .status id owner => status i id owner
  | .cancel id owner => cancel i id owner
  | .releaseOwner owner => releaseOwner i owner
  | .observed id => do
      refreshOperation i id
      return .done
  | .lagged => do
      refreshOperations i
      return .done
  | .poll => do
      onBackend i Operations.poll
      return .done
  | .stop => do
      onBackend i Operations.stop
      return .done
  | .elapse time => do
      onBackend i (Thread.modify fun s => ((), { s with now := s.now + time }))
      return .done

/-- The daemon before the first call. -/
def service (now : Nat) : Pool Jobs Chance Call Answer := Pool.start (initial now)

end Jobs

end ClipDaemon
