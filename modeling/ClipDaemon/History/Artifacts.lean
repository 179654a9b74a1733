import ClipDaemon.Capture.Ingest
import ClipDaemon.Store.Service
import ClipDaemon.Lib.Threads

/-!
# Generated files

An image that is copied as a file is written below a private directory, and a record in the
database says that the daemon owns the file (`history/artifacts.rs`).  A cleanup unlinks the
files of records that nothing refers to any more.

The file system belongs to others too.  `Host` says how it answers; its states are a
parameter.  Requests are threads that hold the `transaction` lock of the backend, and every
call to the file system or to the store is one statement of its thread.  The log is not part of
the program: it records what was asked for and what was unlinked, with the state at that
moment.
-/

namespace ClipDaemon

open Thread (attempt outcome result)
open Capture (captureMime)

/-! ## Paths -/

/-- `Path::components`, without the root of an absolute path. -/
def pathComponents (path : FilePath) : List Bytes :=
  let segments := path.splitOn 0x2F
  (if segments.head? = some [0x2E] then [[0x2E]] else []) ++
    segments.filter fun c => c ≠ [] ∧ c ≠ [0x2E]

/-- The path begins with a slash. -/
def isAbsolute (path : FilePath) : Bool := path.head? = some 0x2F

/-- `==` of two paths: a doubled slash, say, makes no difference. -/
def samePath (a b : FilePath) : Bool :=
  isAbsolute a == isAbsolute b && pathComponents a == pathComponents b

/-- `path.parent() == Some(root)`. -/
def hasParent (path root : FilePath) : Bool :=
  pathComponents path ≠ [] && isAbsolute path == isAbsolute root &&
    (pathComponents path).dropLast == pathComponents root

/-- `PathBuf::join` with a relative path. -/
def joinPath (directory name : FilePath) : FilePath :=
  if directory = [] ∨ directory.getLast? = some 0x2F then directory ++ name
  else directory ++ 0x2F :: name

example : samePath (asBytes "/a//b/./c/") (asBytes "/a/b/c") = true := by decide
example : hasParent (asBytes "/a/b") (asBytes "/a") = true := by decide

/-- The paths of the file URIs on the lines of a text. -/
def filePaths (P : Platform) (bytes : Bytes) : List FilePath :=
  match fromUtf8 bytes with
  | none => []
  | some text => (lines text).filterMap fun line => (P.parseUrl (trim line)).bind P.toFilePath

/-- `Database::artifact_candidates` in the order of its rows. -/
def candidateOrder (a b : ArtifactRecord) : Prop :=
  a.createdAt < b.createdAt ∨ (a.createdAt = b.createdAt ∧ a.path ≤ b.path)

instance : DecidableRel candidateOrder := fun _ _ => inferInstanceAs (Decidable (_ ∨ _))

/-- Is the record as old, and does no entry refer to it? -/
def Tables.unreferenced (t : Tables) (before : Nat) (a : ArtifactRecord) : Bool :=
  a.createdAt ≤ min before I64_MAX && !t.hasEntry a.sourceEntryId &&
    !t.entryArtifacts.any fun row => row.path = a.path

/-- Registrations that no entry needs any more, oldest first. -/
def Database.artifactCandidates (before limit : Nat) : Sql (List ArtifactRecord) :=
  rows fun t =>
    ((t.artifacts.filter (t.unreferenced before)).insertionSort candidateOrder).take
      (min limit 4096)

namespace Artifacts

/-! ## The file system -/

/-- What `symlink_metadata` reports. -/
structure Metadata extends FileMetadata where
  isDir : Bool
  nlink : Nat
  mode : Nat
deriving DecidableEq

/-- The errors of the file system that are told apart. -/
inductive IoError
  | notFound
  | other
deriving DecidableEq

def ioError (error : IoError) : BackendError :=
  operationError (if error = .notFound then "No such file or directory" else "I/O error")

/-- The machine the daemon runs on.  `F` is the type of the states of its file system. -/
structure Host (F : Type) where
  /-- `$HOME`. -/
  home : Option FilePath
  euid : Nat
  /-- `Uuid::parse_str` accepts the text. -/
  isUuid : String → Bool
  /-- What the resolution of a content reads. -/
  world : F → World
  canonicalize : F → FilePath → Option FilePath
  symlinkMetadata : F → FilePath → Except IoError Metadata
  /-- Create a directory and its parents, and make it private. -/
  privateDirectory : F → FilePath → Except IoError F
  /-- Create a file, which must not exist, and write it. -/
  writePrivate : F → FilePath → Bytes → Except IoError Unit × F
  removeFile : F → FilePath → Except IoError F
  /-- Clear the thumbnail cache and the runtime directory. -/
  clearCaches : F → Except IoError Unit × F

variable {F : Type}

/-- The directory of generated files. -/
def Host.root (H : Host F) : Option FilePath :=
  H.home.map fun home => joinPath home (asBytes "Pictures/Screenshots/clipboard-history")

def extensions : List String := ["png", "jpg", "webp", "gif", "bmp", "tiff", "svg"]

/-- `clipboard-<uuid>.<extension>`. -/
def Host.generatedName (H : Host F) (name : String) : Bool :=
  "clipboard-".toList.isPrefixOf name.toList &&
    (rsplitOnce '.' (String.ofList (name.toList.drop 10))).any fun (id, extension) =>
      H.isUuid id && extensions.contains extension

/-- The file has a generated name. -/
def Host.generatedFile (H : Host F) (path : FilePath) : Bool :=
  ((fileName path).bind fromUtf8).any H.generatedName

/-! ## The backend -/

/-- Which cleanup unlinks a file. -/
inductive Cleanup
  /-- `reconcile`, with the time it began. -/
  | reconcile (now : Nat)
  | clearAll
  /-- A publication that failed. -/
  | rollback
deriving DecidableEq

/-- What decides whether a file is unlinked. -/
structure Moment (F : Type) where
  tables : Tables
  active : Option FilePath
  files : F

/-- What the backend has done with payloads and files. -/
inductive Event (F : Type)
  /-- The store was asked to store a payload. -/
  | stored (bytes : Bytes)
  /-- `reconcile` has read the clock. -/
  | began (now : Nat)
  /-- The store was asked to register a file. -/
  | registered (path : FilePath)
  /-- A record was found replaced or no longer provable. -/
  | found (path : FilePath)
  /-- The store has forgotten a record that was found so. -/
  | forgotten (path : FilePath)
  /-- The store has refused to forget it. -/
  | refused (path : FilePath)
  | unlinked (cleanup : Cleanup) (record : ArtifactRecord) (moment : Moment F)
  /-- The daemon was killed within a request. -/
  | killed

/-- The backend: its store, its files and its locks. -/
structure Backend (F : Type) where
  store : Store
  /-- The generated file that is on the clipboard. -/
  active : Option FilePath
  files : F
  /-- The seconds that the clock reads. -/
  clock : Nat
  /-- The thread that holds the lock. -/
  transaction : Option Nat
  /-- `reconcile` or `clear_all` is at work. -/
  pass : Bool
  log : List (Event F)

/-- What the surroundings decide about one statement. -/
structure Chance where
  /-- The error with which a request does not reach the database, if it does not. -/
  refused : Option BackendError
  faults : Faults
  /-- The next random UUID. -/
  uuid : String
  /-- The answer of the compositor. -/
  published : BackendResult Unit

namespace Backend

/-- What the store has committed. -/
def committed (s : Backend F) : Tables := s.store.committed

/-- The state as far as an event notes it. -/
def moment (s : Backend F) : Moment F := ⟨s.committed, s.active, s.files⟩

/-- The event is noted. -/
def note (event : Event F) (s : Backend F) : Backend F := { s with log := s.log ++ [event] }

/-- `HistoryStore::submit`: a fenced database answers nothing. -/
def serve {α : Type} (run : BackendResult α × Database) (c : Chance) (s : Backend F) :
    BackendResult α × Backend F :=
  match c.refused with
  | some error => (.error error, s)
  | none =>
      if !s.store.isOpen then (.error (.unavailable "History storage is closed"), s)
      else if s.store.db.blocked then
        (.error (.unavailable "History storage is fenced; restart required"), s)
      else (run.1, { s with store.db := run.2 })

end Backend

/-! ## Statements -/

/-- A program of the backend. -/
abbrev Act (F : Type) := ExceptT BackendError (Thread (Backend F) Chance)

/-- A statement that only looks. -/
def read {α : Type} (f : Backend F → α) : Act F α := attempt fun _ s => some (.ok (f s), s)

/-- A statement that cannot fail. -/
def write (f : Backend F → Backend F) : Act F Unit := attempt fun _ s => some (.ok (), f s)

/-- The event is noted. -/
def note (event : Event F) : Act F Unit := write (·.note event)

section Program

variable (P : Platform) (H : Host F)

/-- A request to the store. -/
def request (r : Request) : Act F Reply :=
  attempt fun c s =>
    match r.validate with
    | .error error => some (.error error, s)
    | .ok () =>
        some (s.serve (s.store.db.execute c.faults (r.job P ⟨H.world s.files, c.uuid⟩)) c)

/-- The part of a reply that the caller takes. -/
def ask {α : Type} (r : Request) (pick : Reply → Option α) : Act F α := do
  match pick (← request P H r) with
  | some a => pure a
  | none => throw (operationError "Unexpected reply")

/-- The policy of the store. -/
def policy : Act F StorePolicy :=
  ask P H .policy fun | .policy policy => some policy | _ => none

/-- The store is asked for candidates. -/
def candidates (before limit : Nat) : Act F (List ArtifactRecord) :=
  attempt fun c s =>
    let body := Database.artifactCandidates before limit
    let db := s.store.db
    some (s.serve ((body.exec c.faults.statements (db.pending.getD db.durable)).1, db) c)

/-! ## The registry -/

/-- The file is still the one that was registered. -/
def ownedPath (path : FilePath) : Act F Bool := do
  match H.root with
  | none => pure false
  | some root =>
      if !hasParent path root then pure false
      else
        let real ← read fun s => H.canonicalize s.files root
        if !real.any (samePath · root) then pure false
        else
          match ← read fun s => H.symlinkMetadata s.files root with
          | .error _ => pure false
          | .ok metadata =>
              if !metadata.isDir || metadata.uid ≠ H.euid || metadata.mode &&& 0o022 ≠ 0 then
                pure false
              else pure (H.generatedFile path)

/-- A generated file is registered before it is published. -/
def register (path : FilePath) (source mime : String) (bytes : Bytes) : Act F Unit := do
  if !(← ownedPath H path) then throw (operationError "Generated file is outside daemon ownership")
  match ← read fun s => H.symlinkMetadata s.files path with
  | .error error => throw (ioError error)
  | .ok metadata =>
      if !metadata.isFile || metadata.uid ≠ H.euid || metadata.nlink ≠ 1 then
        throw (operationError "Generated file ownership is invalid")
      let createdAt ← read (·.clock)
      note (.registered path)
      let _ ← request P H (.registerArtifact {
        path
        sourceEntryId := source
        imageIdentity := imageIdentity P mime bytes
        createdAt
        device := metadata.dev
        inode := metadata.ino
        owner := metadata.uid })

/-- The record of a path, which must be UTF-8. -/
def recordOf (path : FilePath) : Act F (Option ArtifactRecord) := do
  match toStr path with
  | none => throw (operationError "Generated path is not UTF-8")
  | some path => ask P H (.artifactGet path) fun | .artifact record => some record | _ => none

/-- A file that is published becomes the active one. -/
def activateIfGenerated (path : FilePath) : Act F Unit := do
  let record ← recordOf P H path
  write fun s => { s with active := record.map fun _ => path }

/-- The active file stays active while what was selected has a line that names it. -/
def stillActive (active : Option FilePath) (bytes : Bytes) : Option FilePath :=
  active.filter fun path => (filePaths P bytes).any (samePath · path)

/-- Another selection makes no file active. -/
def observeSelection (bytes : Bytes) : Act F Unit :=
  write fun s => { s with active := stillActive P s.active bytes }

/-- No file is active. -/
def clearActiveSelection : Act F Unit := write fun s => { s with active := none }

/-- Ownership is no longer provable: the record is forgotten, and the file stays. -/
def disown (path : FilePath) : Act F Bool := do
  note (.found path)
  match ← outcome (request P H (.forgetArtifact path)) with
  | .ok _ => do
      note (.forgotten path)
      pure false
  | .error error => do
      note (.refused path)
      throw error

/-- `fs::remove_file`. -/
def unlink (cleanup : Cleanup) (record : ArtifactRecord) : Act F Unit :=
  attempt fun _ s =>
    match H.removeFile s.files record.path with
    | .error error => some (.error (ioError error), s)
    | .ok files => some (.ok (), { s.note (.unlinked cleanup record s.moment) with files })

/-- Is the file another one than the record was made for? -/
def replaced (record : ArtifactRecord) (metadata : Metadata) : Bool :=
  !metadata.isFile || metadata.nlink ≠ 1 || metadata.dev ≠ record.device ||
    metadata.ino ≠ record.inode || metadata.uid ≠ record.owner || record.owner ≠ H.euid

/-- The file of a registration is removed, if it is still that file. -/
def remove (cleanup : Cleanup) (record : ArtifactRecord) : Act F Bool := do
  if !(← ownedPath H record.path) then disown P H record.path
  else
    match ← read fun s => H.symlinkMetadata s.files record.path with
    | .error .notFound => disown P H record.path
    | .error error => throw (ioError error)
    | .ok metadata =>
        if replaced H record metadata then disown P H record.path
        else do
          unlink H cleanup record
          let _ ← request P H (.forgetArtifact record.path)
          pure true

/-- A registered file is removed, and then its registration is forgotten. -/
def removeRegistered (path : FilePath) : Act F Unit := do
  match ← recordOf P H path with
  | none => pure ()
  | some record => let _ ← remove P H .rollback record
  write fun s => { s with active := s.active.filter fun active => !samePath active path }

/-- The loop of `prune`. -/
def removeEach (cleanup : Cleanup) (active : Option FilePath) : List ArtifactRecord → Act F Nat
  | [] => pure 0
  | record :: records => do
      if active.any (samePath · record.path) then removeEach cleanup active records
      else do
        let removed ← remove P H cleanup record
        let more ← removeEach cleanup active records
        pure (removed.toNat + more)

/-- Candidates are removed that nothing protects. -/
def prune (cleanup : Cleanup) (before : Nat) : Act F Nat := do
  let active ← read (·.active)
  let records ← candidates before 128
  removeEach P H cleanup active records

/-- The marks of the begin and the end of a pass. -/
def passing {α : Type} (m : Act F α) : Act F α := do
  write fun s => { s with pass := true }
  let r ← outcome m
  write fun s => { s with pass := false }
  result r

/-- The clock, and that it was read. -/
def begin : Act F Nat := attempt fun _ s => some (.ok s.clock, s.note (.began s.clock))

/-- Files that are old enough and not needed are removed. -/
def reconcile : Act F Nat := passing do
  let now ← begin
  prune P H (.reconcile now) (now - 60)

/-- All files that are not needed are removed. -/
def clearAll : Act F Nat := do
  clearActiveSelection
  passing (prune P H .clearAll (2 ^ 64 - 1))

/-! ## Requests of the backend -/

/-- The compositor takes the selection, or refuses it. -/
def publish : Act F Unit := attempt fun c s => some (c.published, s)

/-- A page, and then the cache is reconciled. -/
def querySync (query : HistoryQuery) : Act F HistoryPage := do
  let page ← ask P H (.query query) fun | .page page => some page | _ => none
  let _ ← outcome (reconcile P H)
  pure page

/-- A captured selection is stored. -/
def ingest (mime : String) (bytes : Bytes) : Act F Unit := do
  let limits ← policy P H
  if !limits.admission then pure ()
  else if bytes.length = 0 ∨ bytes.length > limits.maxEntryBytes then pure ()
  else do
    note (.stored bytes)
    match ← outcome (request P H (.insert (captureMime mime) bytes)) with
    | .ok _ => observeSelection P bytes
    | .error error =>
        let later ← policy P H
        if later.admission then throw error else pure ()

/-- A change of the history by a client. -/
inductive Edit
  | replace (id : String) (expected : Nat) (mime : String) (bytes : Bytes)
  | favorite (id : String) (expected : Nat) (value : Bool)
  | removeMany (targets : List EntryTarget)

/-- A replacement is published; whether that succeeds is no error. -/
def edit : Edit → Act F Unit
  | .replace id expected mime bytes => do
      note (.stored bytes)
      let _ ← request P H (.replace id expected mime bytes)
      match ← outcome publish with
      | .ok () => clearActiveSelection
      | .error _ => pure ()
  | .favorite id expected value => do
      let _ ← request P H (.favorite id expected value)
  | .removeMany targets => do
      let _ ← request P H (.removeMany targets)

/-- Any other selection is published. -/
def publishSelection : Act F Unit := do
  publish
  clearActiveSelection

/-- The extension of a type of images. -/
def imageExtension (mime : String) : String :=
  match mimeEssence mime with
  | "image/jpeg" => "jpg"
  | "image/webp" => "webp"
  | "image/gif" => "gif"
  | "image/bmp" => "bmp"
  | "image/tiff" => "tiff"
  | "image/svg+xml" => "svg"
  | _ => "png"

/-- The directory of generated files, which is private. -/
def imageDirectory : Act F FilePath :=
  attempt fun _ s =>
    match H.root with
    | none => some (.error (operationError "HOME is unavailable"), s)
    | some root =>
        match H.privateDirectory s.files root with
        | .error error => some (.error (ioError error), s)
        | .ok files => some (.ok root, { s with files })

/-- A path with a new name. -/
def uniquePath (directory : FilePath) (extension : String) : Act F FilePath :=
  attempt fun c s =>
    some (.ok (joinPath directory (asBytes ("clipboard-" ++ c.uuid ++ "." ++ extension))), s)

/-- The file is written for the owner only. -/
def writePrivate (path : FilePath) (bytes : Bytes) : Act F Unit :=
  attempt fun _ s =>
    let (written, files) := H.writePrivate s.files path bytes
    some (written.mapError ioError, { s with files })

/-- A file is removed, if it can be. -/
def discard (path : FilePath) : Act F Unit :=
  write fun s => { s with files := (H.removeFile s.files path).toOption.getD s.files }

/-- `prepare_image_file` for an inline image, and `track_image_file`. -/
def createImageFile (source mime : String) (bytes : Bytes) : Act F FilePath := do
  let directory ← imageDirectory H
  let path ← uniquePath directory (imageExtension mime)
  writePrivate H path bytes
  match ← outcome (register P H path source mime bytes) with
  | .ok () => pure path
  | .error error => do
      discard H path
      throw error

/-- The file is registered, or removed again. -/
def saveImageFile (id : String) (expected : Option Nat) (maxBytes : Nat) : Act F FilePath := do
  let stored ← ask P H (.get id expected) fun | .stored entry => some entry | _ => none
  result (validateSize stored.bytes.length maxBytes)
  if stored.summary.kind ≠ .image then
    throw (invalidData "Only image entries support this action")
  let content ← read fun s =>
    ResolvedContent.resolve P (H.world s.files) stored.mime stored.bytes (effectiveLimit maxBytes)
  match content.image with
  | none => throw (invalidData "Only image entries support this action")
  | some (.localFile source) => do
      publish
      activateIfGenerated P H source.path
      pure source.path
  | some (.inline mime _) => do
      let path ← createImageFile P H stored.summary.id mime stored.bytes
      match ← outcome publish with
      | .ok () => do
          activateIfGenerated P H path
          pure path
      | .error error => do
          removeRegistered P H path
          throw error

/-- The caches are cleared, and the files that are not needed go. -/
def cleanupBackend : Act F Nat := do
  attempt fun _ s =>
    let (cleared, files) := H.clearCaches s.files
    some (cleared.mapError ioError, { s with files })
  reconcile P H

/-- All entries go, and then what is cached of them. -/
def wipeEntries : Act F Unit := do
  let _ ← request P H .wipe
  let _ ← outcome do
    let _ ← cleanupBackend P H
    clearAll P H

end Program

/-! ## The daemon -/

/-- What threads do with the backend. -/
inductive Task
  | query (query : HistoryQuery)
  | ingest (mime : String) (bytes : Bytes)
  | edit (edit : Edit)
  | publish
  | imageAsFile (id : String) (expected : Option Nat) (maxBytes : Nat)
  | cleanup
  | wipe

/-- The lock is taken at the start of a request and given back when it returns. -/
def transacted {α : Type} (i : Nat) (m : Act F α) :
    Thread (Backend F) Chance (BackendResult Unit) := do
  Thread.atomic fun _ s =>
    if s.transaction = none then some ((), { s with transaction := some i }) else none
  let r ← m.run
  Thread.modify fun s => ((), { s with transaction := none })
  return r.map fun _ => ()

/-- The thread that executes a task. -/
def program (P : Platform) (H : Host F) (i : Nat) :
    Task → Thread (Backend F) Chance (BackendResult Unit)
  | .query query => transacted i (querySync P H query)
  | .ingest mime bytes => transacted i (ingest P H mime bytes)
  | .edit change => transacted i (edit P H change)
  | .publish => transacted i publishSelection
  | .imageAsFile id expected maxBytes => transacted i (saveImageFile P H id expected maxBytes)
  | .cleanup => transacted i (cleanupBackend P H)
  | .wipe => transacted i (wipeEntries P H)

/-- The operations on the database that take no lock of the backend. -/
def unlocked : DatabaseOp → Bool
  | .request (.applyPolicy _) _ _ => true
  | .shutdown _ _ => true
  | _ => false

/-- The turns of the threads and of others. -/
inductive Turn (F : Type)
  | thread (move : Pool.Move Task Chance)
  /-- Others change the file system, between two passes. -/
  | files (files : F)
  /-- The clock moves, or is set. -/
  | clock (now : Nat)
  | database (op : DatabaseOp)
  /-- The daemon ends, and starts again. -/
  | restart (before after : Bool) (faults : Faults)

/-- The threads that run on a backend. -/
abbrev Daemon (F : Type) := Pool (Backend F) Chance Task (BackendResult Unit)

/-- A daemon that starts for the first time. -/
def start (files : F) (clock : Nat) : Daemon F :=
  Pool.start ⟨Store.fresh, none, files, clock, none, false, []⟩

/-- What a new process finds. -/
def Backend.restarted (P : Platform) (before after : Bool) (faults : Faults) (s : Backend F) :
    Backend F :=
  { s with
    store := s.store.step P (.reopen before after faults)
    active := none, transaction := none, pass := false
    log := if s.transaction = none then s.log else s.log ++ [.killed] }

def Daemon.step (P : Platform) (H : Host F) (p : Daemon F) : Turn F → Daemon F
  | .thread move => Pool.step (program P H) p move
  | .files files => if p.shared.pass then p else { p with shared := { p.shared with files } }
  | .clock clock => { p with shared := { p.shared with clock } }
  | .database op =>
      if unlocked op then
        { p with shared := { p.shared with store := p.shared.store.step P op } }
      else p
  | .restart before after faults => Pool.start (p.shared.restarted P before after faults)

/-- The threads after these turns. -/
def Daemon.after (P : Platform) (H : Host F) (turns : List (Turn F)) (p : Daemon F) : Daemon F :=
  turns.foldl (Daemon.step P H) p

end Artifacts
end ClipDaemon
