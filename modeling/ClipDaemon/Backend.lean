import ClipDaemon.Text

/-!
# The shared data model

The errors a backend call returns, the limits every layer shares, and the records that
cross the boundary between the store and its callers (`backend.rs`, `model.rs`).
-/

namespace ClipDaemon

/-! ## Errors -/

/-- The kinds of backend failure. -/
inductive BackendErrorKind
  | unavailable
  | notFound
  | stale
  | invalidData
  | operationFailed
deriving DecidableEq, Repr

/-- The code a kind is reported under. -/
def BackendErrorKind.code : BackendErrorKind → String
  | .unavailable => "backend-unavailable"
  | .notFound => "entry-not-found"
  | .stale => "stale-action"
  | .invalidData => "invalid-entry"
  | .operationFailed => "operation-failed"

/-- Only an unavailable backend is worth another try. -/
def BackendErrorKind.retryable : BackendErrorKind → Bool
  | .unavailable => true
  | _ => false

/-- An error of the backend. -/
structure BackendError where
  kind : BackendErrorKind
  message : String
deriving DecidableEq, Repr

namespace BackendError

def unavailable (message : String) : BackendError := ⟨.unavailable, message⟩

def notFound (message : String) : BackendError := ⟨.notFound, message⟩

def stale (message : String) : BackendError := ⟨.stale, message⟩

end BackendError

def invalidData (message : String) : BackendError := ⟨.invalidData, message⟩

/-- An error of the engine or of the operating system. -/
def operationError (message : String) : BackendError := ⟨.operationFailed, message⟩

/-- What the backend returns. -/
abbrev BackendResult (α : Type) := Except BackendError α

/-- An error of the API. -/
structure ApiError where
  code : String
  message : String
  retryable : Bool
deriving DecidableEq, Repr

namespace ApiError

def new (code message : String) : ApiError := ⟨code, message, false⟩

def validation (message : String) : ApiError := new "validation-error" message

/-- A failure of the backend keeps its code and its message. -/
def ofBackend (error : BackendError) : ApiError :=
  ⟨error.kind.code, error.message, error.kind.retryable⟩

end ApiError

/-- What the API returns. -/
abbrev ApiResult (α : Type) := Except ApiError α

/-! ## Limits -/

def MAX_QUERY_LIMIT : Nat := 200
def MAX_QUERY_BYTES : Nat := 4096
def MAX_FILES : Nat := 100
def MAX_WAYLAND_SELECTION_BYTES : Nat := 64 * 1024 * 1024
def MAX_ENTRY_BYTES : Nat := 64 * 1024 * 1024

/-- The greatest `i64`. -/
def I64_MAX : Nat := 2 ^ 63 - 1

/-! ## Entries -/

/-- What an entry is shown as. -/
inductive EntryKind
  | text
  | link
  | image
  | files
  | html
  | json
  | color
  | binary
deriving DecidableEq, Repr

/-- One row of a history listing. -/
structure EntrySummary where
  id : String
  revision : Nat
  kind : EntryKind
  mime : String
  byteSize : Nat
  favorite : Bool
  current : Bool
  preview : String
deriving DecidableEq

/-- An entry named together with the revision the caller saw. -/
structure EntryTarget where
  opaqueId : String
  expectedRevision : UInt64
deriving DecidableEq

/-- A query of the store. -/
structure HistoryQuery where
  query : String
  generation : Nat
  offset : Nat
  limit : Nat
  collapseSelfEchoes : Bool
deriving DecidableEq

/-- A page of the history. -/
structure HistoryPage where
  total : Nat
  revision : Nat
  generation : Nat
  current : Option EntrySummary
  entries : List EntrySummary
  hasMore : Bool
  nextOffset : Option Nat
deriving DecidableEq

/-- The dimensions of an image. -/
structure ImageMetadata where
  width : Nat
  height : Nat
deriving DecidableEq

/-- A file that an entry names. -/
structure FilePreview where
  displayName : String
  uri : String
  pathExists : Bool
  operation : String
deriving DecidableEq

end ClipDaemon
