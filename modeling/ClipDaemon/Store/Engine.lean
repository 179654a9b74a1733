import ClipDaemon.Store.Database

/-!
# Transactions, failures and reopening

The requests of the store, the transaction each runs in, and the state of the database
between them.  The engine may fail at any point: `BEGIN`, any statement, `COMMIT`,
`ROLLBACK` and the check of the sidecar files after a commit.  A failed `COMMIT` may or
may not have become durable, and what is not committed is gone when the database is
opened again (`history_store/database.rs`).
-/

namespace ClipDaemon

/-! ## Requests -/

/-- The requests to the store. -/
inductive Request
  | applyPolicy (policy : StorePolicy)
  | insert (mime : String) (bytes : Bytes)
  | replace (id : String) (expected : Nat) (mime : String) (bytes : Bytes)
  | favorite (id : String) (expected : Nat) (value : Bool)
  | removeMany (targets : List EntryTarget)
  | wipe
  | registerArtifact (record : ArtifactRecord)
  | forgetArtifact (path : FilePath)
  | registerInlineEcho (record : InlineEchoRecord)
  | clearInlineEchoes
  | query (query : HistoryQuery)
  | get (id : String) (expected : Option Nat)
  | entryRevision (id : String)
  | revision
  | policy
  | artifactGet (path : FilePath)
deriving DecidableEq

/-- Their answers. -/
inductive Reply
  | unit
  | entry (summary : EntrySummary)
  | page (page : HistoryPage)
  | stored (entry : Database.StoredEntry)
  | revision (revision : Nat)
  | policy (policy : StorePolicy)
  | artifact (record : Option ArtifactRecord)
deriving DecidableEq

/-- What the worker runs for a request. -/
inductive Job
  /-- Statements outside a transaction; they only read. -/
  | direct (body : Sql Reply)
  /-- A transaction. -/
  | transaction (body : Sql Reply)

namespace Request

/-- A transaction without a result. -/
def unit (body : Sql Unit) : Job := .transaction do
  body
  pure .unit

/-- A transaction that returns an entry. -/
def entry (body : Sql EntrySummary) : Job := .transaction do
  let summary ← body
  pure (.entry summary)

/-- A read. -/
def read {α : Type} (reply : α → Reply) (body : Sql α) : Job := .direct do
  let a ← body
  pure (reply a)

/-- A request that is refused before it reaches the database. -/
def refused (error : BackendError) : Job := .direct (throw error)

/-- What a request does to the tables. -/
def job (P : Platform) (env : Env) : Request → Job
  | applyPolicy next =>
      if Database.validPolicy next then unit (Database.applyPolicy next)
      else refused (invalidData "Invalid history retention policy")
  | insert mime bytes => entry (Database.insert P env mime bytes)
  | replace id expected mime bytes => entry (Database.replace P env id expected mime bytes)
  | favorite id expected value => unit (Database.favorite id expected value)
  | removeMany targets =>
      if targets = [] then .direct (pure .unit) else unit (Database.removeMany targets)
  | wipe => unit Database.wipe
  | registerArtifact record =>
      match Database.validArtifact record with
      | .error e => refused e
      | .ok () => unit (Database.registerArtifact record)
  | forgetArtifact path =>
      match toStr path with
      | none => refused (invalidData "Artifact path must be UTF-8")
      | some path => unit (Database.forgetArtifact path)
  | registerInlineEcho record =>
      if Database.validInlineEcho record then unit (Database.registerInlineEcho record)
      else refused (invalidData "Invalid inline echo metadata")
  | clearInlineEchoes => unit Database.clearInlineEchoes
  | query q => read .page (Database.query P q)
  | get id expected => read .stored (Database.get id expected)
  | entryRevision id => read (fun s => .revision s.revision) (Database.summary id none)
  | revision => read .revision Database.revision
  | policy => read .policy Database.policy
  | artifactGet path => read .artifact (Database.artifactGet path)

end Request

/-- The result of a job on committed tables when nothing fails: a read leaves them as
they are. -/
def Job.eval : Job → Tables → BackendResult (Reply × Tables)
  | .direct body, t => (body.eval t).map fun r => (r.1, t)
  | .transaction body, t => body.eval t

/-- What a request does to committed tables when nothing fails. -/
def Request.effect (P : Platform) (env : Env) (request : Request) (t : Tables) :
    BackendResult (Reply × Tables) :=
  (request.job P env).eval t

/-! ## The open database -/

/-- Which steps of one transaction fail. -/
structure Faults where
  /-- `BEGIN` fails. -/
  begins : Bool
  /-- The statements that fail, with their errors. -/
  statements : List (Option BackendError)
  /-- `COMMIT` fails; it became durable if `true`. -/
  commit : Option Bool
  /-- The sidecar check after the commit fails. -/
  sidecar : Bool
  /-- `ROLLBACK` fails. -/
  rollback : Bool
deriving DecidableEq

/-- Nothing fails. -/
def Faults.none : Faults := ⟨false, [], Option.none, false, false⟩

/-- The connection to the database. -/
structure Database where
  /-- What is committed. -/
  durable : Tables
  /-- The transaction the connection is in. -/
  pending : Option Tables
  /-- Set when the outcome of a transaction is not known. -/
  blocked : Bool
deriving DecidableEq

namespace Database

/-- A database as it is found when it is opened: only what is committed. -/
def recovered (durable : Tables) : Database := ⟨durable, none, false⟩

/-- The body and its commit, or a rollback; what is uncertain fences the store. -/
def transaction {α : Type} (faults : Faults) (body : Sql α) (db : Database) :
    BackendResult α × Database :=
  if db.blocked then (.error (.unavailable "History storage is fenced"), db)
  else if faults.begins || db.pending.isSome then
    (.error (operationError "BEGIN IMMEDIATE failed"), db)
  else
    match body.exec faults.statements db.durable with
    | (.ok value, written) =>
        match faults.commit with
        | some landed =>
            (.error (.unavailable "History commit outcome is uncertain; restart required"),
              if landed then ⟨written, none, true⟩ else ⟨db.durable, some written, true⟩)
        | none =>
            if faults.sidecar then
              (.error (.unavailable "History sidecar protection failed; restart required"),
                ⟨written, none, true⟩)
            else (.ok value, ⟨written, none, db.blocked⟩)
    | (.error error, written) =>
        if faults.rollback then
          (.error (.unavailable "History rollback failed; restart required"),
            ⟨db.durable, some written, true⟩)
        else (.error error, db)

/-- Run a job. -/
def execute (faults : Faults) (job : Job) (db : Database) : BackendResult Reply × Database :=
  match job with
  | .direct body => ((body.exec faults.statements (db.pending.getD db.durable)).1, db)
  | .transaction body => db.transaction faults body

/-- `UPDATE effective_policy SET admission=0`. -/
def closeAdmission : Sql Unit := exec fun t => .ok t.closeAdmission

/-- Open an existing database: identity and settings are checked, admission is closed,
and the rest is checked.  The two checks may fail. -/
def openExisting (before after : Bool) (faults : Faults) (durable : Tables) :
    BackendResult Unit × Database :=
  if before then (.error (operationError "history could not be opened"), recovered durable)
  else
    match (recovered durable).transaction faults closeAdmission with
    | (.error error, db) => (.error error, db)
    | (.ok (), db) =>
        if after then (.error (operationError "history could not be opened"), db) else (.ok (), db)

/-- Close admission and truncate the log, which may fail. -/
def shutdown (checkpoint : Bool) (faults : Faults) (db : Database) :
    BackendResult Unit × Database :=
  if db.blocked then
    (.error (.unavailable "Fenced history storage cannot confirm clean shutdown"), db)
  else
    match db.transaction faults closeAdmission with
    | (.error error, db) => (.error error, db)
    | (.ok (), db) =>
        if checkpoint then (.ok (), db)
        else (.error (.unavailable "History checkpoint was incomplete"), db)

end Database

/-! ## Runs of the database -/

/-- One operation, with what it takes from outside and the failures it meets. -/
inductive DatabaseOp
  | request (request : Request) (env : Env) (faults : Faults)
  | reopen (before after : Bool) (faults : Faults)
  | shutdown (checkpoint : Bool) (faults : Faults)

/-- The database and whether a connection to it is open. -/
structure Store where
  db : Database
  isOpen : Bool
deriving DecidableEq

namespace Store

/-- A database that was just created. -/
def fresh : Store := ⟨Database.recovered Tables.fresh, true⟩

/-- What is committed. -/
def committed (s : Store) : Tables := s.db.durable

/-- One operation.  Without a connection only opening does something. -/
def step (P : Platform) (s : Store) : DatabaseOp → Store
  | .request request env faults =>
      if s.isOpen then ⟨(s.db.execute faults (request.job P env)).2, true⟩ else s
  | .reopen before after faults =>
      let (result, db) := Database.openExisting before after faults s.db.durable
      ⟨db, match result with | .ok _ => true | .error _ => false⟩
  | .shutdown checkpoint faults =>
      if s.isOpen then ⟨(s.db.shutdown checkpoint faults).2, false⟩ else s

/-- The state after a sequence of operations. -/
def after (P : Platform) (ops : List DatabaseOp) (s : Store) : Store := ops.foldl (step P) s

end Store
end ClipDaemon
