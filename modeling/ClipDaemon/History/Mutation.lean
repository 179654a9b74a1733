import ClipDaemon.Api.Cursor
import ClipDaemon.History.Artifacts
import ClipDaemon.History.Files
import ClipDaemon.History.Operation
import ClipDaemon.History.Publish

/-!
# Changes of the history

What the backend does for its clients while it holds the `transaction` lock
(`history/mutation.rs`, `history.rs`): an entry is replaced, deleted, marked, copied, made a
file or annotated, or all of them are wiped.

Most of these change the store first and then publish, forget or clean up, each of which may
fail.  What fails after the store has committed is told in the result, and is no error.
-/

namespace ClipDaemon

open Thread (attempt outcome result)
open Artifacts (Act ask read request publish clearActiveSelection)

/-! ## Requests of the backend -/

/-- The mutations of an entry. -/
inductive BackendMutation
  | restore (maxBytes : Nat)
  | imageAsFile (maxBytes : Nat)
  | annotate (maxBytes : Nat)
  | remove
  | setFavorite (value : Bool)
  | wipe
  | cleanup
deriving DecidableEq

namespace BackendMutation

/-- The mutation that stages an annotation. -/
def Stages : BackendMutation → Prop
  | .annotate _ => True
  | _ => False

/-- The mutation of an action. -/
def forAction (action : String) (maxBytes : Nat) : Option BackendMutation :=
  match action with
  | "copy" | "paste" => some (.restore maxBytes)
  | "image-as-file" => some (.imageAsFile maxBytes)
  | "annotate" => some (.annotate maxBytes)
  | "delete" => some .remove
  | "favorite" | "pin-current" => some (.setFavorite true)
  | "unfavorite" => some (.setFavorite false)
  | "cleanup" => some .cleanup
  | _ => none

/-- The two that are about all entries. -/
def sweeps : BackendMutation → Bool
  | .wipe | .cleanup => true
  | _ => false

/-- Mutations of an entry need the revision that the client has seen. -/
def requireRevision (mutation : BackendMutation) (revision : Option Nat) : BackendResult Bool :=
  let targetsEntry := !mutation.sweeps
  if targetsEntry && revision.isNone then
    .error (.stale "An expected clipboard entry revision is required")
  else .ok targetsEntry

end BackendMutation

/-- The result of `ClipboardBackend::replace`. -/
structure ReplacementResult where
  entry : EntryDetails
  selectionPublished : Bool
  publicationMessage : String
deriving DecidableEq

/-- What an annotation works on: the files of the editor, and the entry it was started for. -/
structure AnnotationStage where
  input : FilePath
  output : FilePath
  opaqueId : String
  revision : Nat
  maxBytes : Nat
deriving DecidableEq

/-- A part of the screen. -/
structure ScreenshotRegion where
  x : Int
  y : Int
  width : Nat
  height : Nat
deriving DecidableEq

/-- The region is not empty and not too large. -/
def ScreenshotRegion.validDimensions (width height : Nat) : Bool :=
  (1 ≤ width && width ≤ 16384) && (1 ≤ height && height ≤ 16384) &&
    width * height ≤ 32 * 1024 * 1024

/-- A host with what changes of the history need of it. -/
structure Machine (F : Type) extends Artifacts.Host F where
  /-- `$XDG_RUNTIME_DIR`, or the directory for temporary files. -/
  runtime : FilePath
  /-- `Url::from_file_path`. -/
  fromFilePath : FilePath → Option Url
  /-- The image reader decodes the bytes within its limits. -/
  decodes : Bytes → Bool
  /-- The JSON reader and the key of the history search. -/
  codec : CursorCodec

namespace HistoryBackend

variable {F : Type} (P : Platform) (H : Machine F)

/-! ## Reading -/

/-- The entry at the revision that is expected. -/
def selected (id : String) (expected : Option Nat) : Act F Database.StoredEntry :=
  ask P H.toHost (.get id expected) fun | .stored entry => some entry | _ => none

/-- What is shown of an entry, of at most so many bytes. -/
def detailsSync (id : String) (maxTextBytes : Nat) : Act F EntryDetails := do
  let stored ← selected P H id none
  read fun s => entryDetails P (H.world s.files) stored maxTextBytes

/-- The revision of the store. -/
def changeTokenSync : Act F Nat :=
  ask P H.toHost .revision fun | .revision revision => some revision | _ => none

/-- The revision of an entry. -/
def revisionSync (id : String) : Act F Nat :=
  ask P H.toHost (.entryRevision id) fun | .revision revision => some revision | _ => none

/-- The kind, the captured type and the payload of an entry. -/
def selectedBytes (id : String) (expected : Option Nat) (maxBytes : Nat) :
    Act F Database.StoredEntry := do
  let stored ← selected P H id expected
  result (validateSize stored.bytes.length maxBytes)
  pure stored

/-- The entry, whose payload is not too large for an image. -/
def selectedImage (id : String) (expected : Option Nat) (maxBytes : Nat) :
    Act F Database.StoredEntry := do
  let stored ← selectedBytes P H id expected maxBytes
  if stored.summary.kind = .image then pure stored
  else throw (invalidData "Only image entries support this action")

/-! ## Publishing -/

/-- The entry is published again. -/
def restoreEntry (i : Uuid) (id : String) (expected : Option Nat) (maxBytes : Nat) :
    Act F OperationResult := do
  let stored ← selectedBytes P H id expected maxBytes
  let publication ← read fun s =>
    publishEntry P (H.world s.files) stored.summary.kind stored.mime stored.bytes maxBytes
  let _ ← result publication
  publish
  clearActiveSelection
  pure (.completed i "copy" "Entry published to the Wayland clipboard")

/-- `SelectionService::publish`. -/
def publishBytes (mime : String) (bytes : Bytes) (maxBytes : Nat) : Act F Unit := do
  let _ ← result (SelectionService.publish mime bytes maxBytes)
  publish

/-- The selection is published. -/
def publishSync (i : Uuid) (mime : String) (bytes : Bytes) (maxBytes : Nat) :
    Act F OperationResult := do
  if bytes = [] then throw (invalidData "Published clipboard content must not be empty")
  publishBytes mime bytes maxBytes
  clearActiveSelection
  pure (.completed i "publish" "Content published to the Wayland clipboard")

/-- Nothing is inserted or staged, and the active file stays active. -/
def publishSensitiveSync (i : Uuid) (text : String) (seconds : Nat) : Act F OperationResult := do
  result ((validateSensitive (asBytes text) seconds).mapError invalidData)
  publish
  pure (.completed i "publish-sensitive" "Sensitive content copied without history")

/-- The files are published. -/
def publishFilesSync (i : Uuid) (selection : FileSelection) (maxBytes : Nat) :
    Act F OperationResult := do
  let _ ← result (ClipDaemon.publishFilesSync H.fromFilePath selection maxBytes)
  publish
  clearActiveSelection
  let count := selection.paths.length
  pure (.completed i "publish-files"
    ("Mirrored " ++ toString count ++ (if count = 1 then " file" else " files") ++
      " to the clipboard"))

/-- The replacement has committed; its publication may fail. -/
def replaceSync (i : Uuid) (id : String) (expected : Nat) (mime : String) (bytes : Bytes) :
    Act F ReplacementResult := do
  let summary ← ask P H.toHost (.replace id expected mime bytes) fun
    | .entry summary => some summary
    | _ => none
  let details ← read fun s =>
    entryDetails P (H.world s.files) ⟨summary, mime, bytes⟩ MAX_DETAILS_BYTES
  let publication ← outcome
    (restoreEntry P H i summary.id (some summary.revision) MAX_DETAILS_BYTES)
  match publication with
  | .ok _ => pure ⟨details, true, "Replacement published to the clipboard"⟩
  | .error error =>
      pure ⟨details, false,
        "Replacement committed, but clipboard publication failed: " ++ error.message⟩

/-! ## Entries -/

/-- The entry is deleted. -/
def removeEntry (i : Uuid) (id : String) (expected : Option Nat) : Act F OperationResult := do
  let stored ← selected P H id expected
  let _ ← request P H.toHost (.removeMany [⟨id, UInt64.ofNat stored.summary.revision⟩])
  pure (.completed i "delete" "Clipboard entry deleted")

/-- The entries are deleted, all or none. -/
def removeEntries (i : Uuid) (targets : List EntryTarget) : Act F OperationResult := do
  let _ ← request P H.toHost (.removeMany targets)
  let count := targets.length
  pure (.completed i "delete-many"
    (toString count ++ " clipboard " ++ (if count = 1 then "entry" else "entries") ++ " deleted"))

/-- The entry becomes a favorite, or is none any more. -/
def moveEntry (i : Uuid) (id : String) (expected : Option Nat) (favorite : Bool) :
    Act F OperationResult := do
  let stored ← selected P H id expected
  let _ ← request P H.toHost (.favorite id stored.summary.revision favorite)
  pure (.completed i (if favorite then "favorite" else "unfavorite") "Favorite state updated")

/-- The image of an entry becomes a file, which is published. -/
def saveImageFile (i : Uuid) (id : String) (expected : Option Nat) (maxBytes : Nat) :
    Act F OperationResult := do
  let path ← Artifacts.saveImageFile P H.toHost id expected maxBytes
  -- the only caller puts a message of its own in the place of this one
  pure { OperationResult.completed i "image-as-file" "Image file copied" with
    path := fromUtf8 path }

/-- The caches are cleared at the request of a client. -/
def cleanupArtifacts (i : Uuid) : Act F OperationResult := do
  let removed ← Artifacts.cleanupBackend P H.toHost
  pure (.completed i "cleanup" ("Clipboard caches cleared; " ++ toString removed ++
    " unreferenced generated files removed"))

/-- The history is committed even if the cleanup fails. -/
def wipeEntries (i : Uuid) : Act F OperationResult := do
  Artifacts.wipeEntries P H.toHost
  pure (.completed i "wipe" "Clipboard history cleared")

/-- What each mutation does. -/
def mutateSync (i : Uuid) (id : String) (expected : Option Nat) (mutation : BackendMutation) :
    Act F OperationResult := do
  let _ ← result (mutation.requireRevision expected)
  match mutation with
  | .restore maxBytes => restoreEntry P H i id expected maxBytes
  | .imageAsFile maxBytes => saveImageFile P H i id expected maxBytes
  | .remove => removeEntry P H i id expected
  | .setFavorite value => moveEntry P H i id expected value
  | .wipe => wipeEntries P H i
  | .cleanup => cleanupArtifacts P H i
  | .annotate _ => throw (operationError "External editing must be started asynchronously")

/-! ## Images -/

/-- `runtime_directory`. -/
def runtimeDirectory (child : String) : Act F FilePath :=
  attempt fun _ s =>
    let directory := joinPath H.runtime (asBytes child)
    match H.privateDirectory s.files directory with
    | .error error => some (.error (Artifacts.ioError error), s)
    | .ok files => some (.ok directory, { s with files })

/-- The type and the bytes of the image that the editor is given. -/
def annotatedImage (stored : Database.StoredEntry) (limit : Nat) : Act F (String × Bytes) := do
  let content ← read fun s =>
    ResolvedContent.resolve P (H.world s.files) stored.mime stored.bytes (effectiveLimit limit)
  match content.image with
  | some (.inline mime _) => pure (mime, stored.bytes)
  | some (.localFile source) =>
      let bytes ← read fun s => readPath (H.world s.files) source.path limit
      pure (source.mime, ← result bytes)
  | none => throw (invalidData "Only image entries support this action")

/-- The picture is written to a file for the editor. -/
def Annotate.stage (id : String) (expected : Option Nat) (maxBytes : Nat) :
    Act F AnnotationStage := do
  let limit := min maxBytes MAX_THUMBNAIL_BYTES
  let stored ← selectedImage P H id expected limit
  let (mime, bytes) ← annotatedImage P H stored limit
  let directory ← runtimeDirectory H "clip-daemon/edits"
  let input ← Artifacts.uniquePath directory (Artifacts.imageExtension mime)
  let output ← Artifacts.uniquePath directory "png"
  Artifacts.writePrivate H.toHost input bytes
  pure ⟨input, output, id, stored.summary.revision, limit⟩

/-- What the editor has written: a regular, bounded image in PNG that fully decodes. -/
def readEditedImage (W : World) (path : FilePath) (maxBytes : Nat) : Option Bytes := do
  let limit := min maxBytes MAX_THUMBNAIL_BYTES
  let metadata ← W.symlinkMetadata path
  if metadata.isFile && metadata.len ≤ limit then
    let bytes ← (readPath W path limit).toOption
    if P.readerFormat bytes = some "image/png" && H.decodes bytes then some bytes else none
  else none

/-- The picture that was captured is published. -/
def publishCapture (path : FilePath) (maxBytes : Nat) : Act F Unit := do
  let captured ← read fun s => readEditedImage P H (H.world s.files) path maxBytes
  match captured with
  | none => throw (operationError "Screenshot is not a valid bounded PNG")
  | some bytes => do
      publishBytes "image/png" bytes (min maxBytes MAX_THUMBNAIL_BYTES)
      clearActiveSelection

/-- The file that a direct capture is written to. -/
def stageCapture : Act F FilePath := do
  let directory ← runtimeDirectory H "clip-daemon/screenshots"
  let path ← Artifacts.uniquePath directory "png"
  Artifacts.writePrivate H.toHost path []
  pure path

/-- The replacement has committed; its publication may fail. -/
def Annotate.apply (id : String) (revision : Nat) (output : FilePath) (maxBytes : Nat) :
    Act F OperationCompletion := do
  let edited ← read fun s => readEditedImage P H (H.world s.files) output maxBytes
  match edited with
  | none => throw (operationError "Annotation returned an invalid image")
  | some bytes =>
      let _ ← request P H.toHost (.replace id revision "image/png" bytes)
      let publication ← outcome do
        publishBytes "image/png" bytes maxBytes
        clearActiveSelection
      match publication with
      | .ok _ => pure ⟨.completed, "Image edit completed", none⟩
      | .error error =>
          pure ⟨.completed, "Image edit committed",
            some ("Clipboard publication failed: " ++ error.message)⟩

end HistoryBackend

end ClipDaemon
