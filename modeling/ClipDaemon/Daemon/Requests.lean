import ClipDaemon.Daemon.State

/-!
# The requests of the daemon

The programs of `ApiService`, `ClipboardService` and `HistoryBackend` (`api.rs`, `actions.rs`,
`history.rs`), with the two transports around them (`daemon.rs`, `daemon/owner.rs`), the work of
an annotation, and what goes on beside all requests.

A request comes with its parameters decoded.  Whether it reserves depends on the form that they
came in (`Jobs.mayStart`), so here it may reserve or not.
-/

namespace ClipDaemon.Daemon

open Thread (attempt outcome result)

/-! ## Requests -/

/-- The methods of the API, with their parameters decoded. -/
inductive Method
  | entryAction (params : Authority.ActionParams)
  | editBegin (params : EntryParams)
  | editCommit (params : EditCommitParams)
  | editCancel (id : Uuid)
  | details (params : EntryParams)
  | deleteEntries (targets : List EntryTarget)
  | sessionBegin
  | sessionHidden (id : Uuid)
  | sessionEnd (id : Uuid)
  /-- The caller waits for so many rounds at most. -/
  | sessionWait (id : Uuid) (rounds : Nat)
  | wipePrepare
  | wipeCommit (params : WipeParams)
  | operationStatus (id : Uuid)
  | query (params : QueryParams)
  | historyRevision
  | interactive
  | screenshot (region : ScreenshotRegion)
  | publishText (text : String)
  | publishSensitive (text : String) (expirySeconds : Nat)
  | publishFiles (selection : FileSelection)
  | setPaused (paused priv : Bool)
  | updateSettings (update : SettingsUpdate)
  /-- A method that reads other things. -/
  | other

/-- The methods that hand out a lease. -/
def Method.Leases : Method → Prop
  | .editBegin _ => True
  | _ => False

/-- The methods that use what callers hold. -/
def Method.Holds : Method → Prop
  | .entryAction _ | .editBegin _ | .editCommit _ | .editCancel _ => True
  | .sessionBegin | .sessionHidden _ | .sessionEnd _ | .sessionWait .. => True
  | .wipePrepare | .wipeCommit _ => True
  | _ => False

/-- The methods that may stage an annotation. -/
def Method.Stages : Method → Prop
  | .entryAction _ => True
  | _ => False

/-- The methods that may change the history. -/
def Method.Changes : Method → Prop
  | .entryAction _ | .editCommit _ | .deleteEntries _ => True
  | .wipeCommit _ | .setPaused .. | .updateSettings _ => True
  | _ => False

/-- The methods that may start or stop capture, and change the policy of the store. -/
def Method.Governs : Method → Prop
  | .wipeCommit _ | .setPaused .. | .updateSettings _ => True
  | _ => False

/-- The answers of the methods. -/
inductive Answer
  /-- An answer about sessions, leases or challenges. -/
  | authority (answer : Authority.Answer)
  | operation (operation : OperationResult)
  /-- The record of an operation, and its revision. -/
  | status (operation : OperationResult) (revision : Nat)
  | entry (entry : EntryDetails)
  /-- A replacement, and `paste.prepared` if a session was named. -/
  | replaced (replacement : ReplacementResult) (paste : Option Bool)
  | history (data : QueryData)
  /-- The token of the store, and the revision of the observation clock. -/
  | observed (token : UInt64) (revision : Nat)
  | settings (settings : ClipboardSettings)
  | none

/-- An answer or an error. -/
abbrev Reply := ApiResult Answer

section Programs

variable {F : Type} (P : Platform) (H : Machine F) (i : Nat)

/-! ## The backend -/

/-- What a mutation does behind the gate. -/
def mutateGated (id : String) (expected : Option Nat) (mutation : BackendMutation) :
    BackendAct F OperationResult :=
  match mutation with
  | .annotate maxBytes => do
      let staged ← transacted i (.request i)
        (HistoryBackend.Annotate.stage P H id expected maxBytes)
      Annotate.launch i staged
  | _ => transacted i (.request i) (HistoryBackend.mutateSync P H i id expected mutation)

/-- `HistoryBackend::mutate`. -/
def mutate (id : String) (expected : Option Nat) (mutation : BackendMutation) :
    BackendAct F OperationResult := do
  let _ ← result (mutation.requireRevision expected)
  gated i do
    if mutation.sweeps then
      stopOperations i
      mutateGated P H i id expected mutation
    else mutateGated P H i id expected mutation

/-- `screenshot::launch`; the file is created, and the operation owns both. -/
def interactiveScreenshot : BackendAct F OperationResult :=
  gated i do
    ensureRunning
    let running ← ExceptT.lift (onJobs (Jobs.onBackend i (Thread.modify fun s =>
      (s.contains "screenshot", s))))
    if running then throw (operationError "A screenshot is already in progress")
    else
      let input ← onBackend (.request i) (HistoryBackend.stageCapture H)
      let output ← onBackend (.request i)
        (Artifacts.uniquePath (joinPath H.runtime (asBytes "clip-daemon/screenshots")) "png")
      let launched ← ExceptT.lift (onJobs (Jobs.onBackend i
        (Operations.launch "screenshot" "Screenshot started" ([input, output].filterMap fromUtf8))))
      result launched

/-- A command that is not part of the state, as `grim` is. -/
def command : BackendAct F Unit :=
  attempt fun chance s =>
    some (match chance.authority.fails with
      | some error => .error (operationError error.message)
      | none => .ok (), s)

/-- `StagedCapture`: the file goes with the request. -/
def discarding {α : Type} (path : FilePath) (m : BackendAct F α) : BackendAct F α := do
  let r ← outcome m
  onBackend (.request i) (Artifacts.discard H.toHost path)
  result r

/-- `capture_region`. -/
def captureRegion (region : ScreenshotRegion) (maxBytes : Nat) : BackendAct F OperationResult := do
  if !ScreenshotRegion.validDimensions region.width region.height then
    throw (operationError "Invalid screenshot region")
  let path ← onBackend (.request i) (HistoryBackend.stageCapture H)
  discarding H i path do
    command
    locked i (onBackend (.request i) (HistoryBackend.publishCapture P H path maxBytes))
    pure (.completed i "screenshot" "Screenshot published to the Wayland clipboard")

/-- A region of the screen is captured, behind the gate. -/
def captureScreenshot (region : ScreenshotRegion) (maxBytes : Nat) :
    BackendAct F OperationResult :=
  gated i do
    ensureRunning
    captureRegion P H i region maxBytes

/-! ## Entries -/

/-- The entry as it is now, at the revision that the client expects. -/
def loadDetails (entryId : String) (revision : Option Nat) : Act F EntryDetails := do
  result (validateEntryId entryId)
  let details ← fromBackend (transacted i (.request i)
    (HistoryBackend.detailsSync P H entryId MAX_EDIT_BYTES))
  result (validateRevision revision details.entry.revision)
  pure details

/-- The mutation that an action stands for. -/
def requiredMutation (action : String) (maxBytes : Nat) : ApiResult BackendMutation :=
  match BackendMutation.forAction action maxBytes with
  | some mutation => .ok mutation
  | none => .error (.validation "unsupported entry action")

/-- The paste is armed once the publication has succeeded. -/
def armTarget (hasTarget : Bool) (session : Uuid) (owner : Owner) : Act F Bool :=
  if hasTarget then onAuthority (Authority.armPaste i session owner) else pure false

/-- The entry is published, and then the session is armed. -/
def paste (params : Authority.ActionParams) (maxBytes : Nat) (owner : Owner) : Act F Answer := do
  match params.sessionId with
  | none => throw (.validation "session_id is required for paste")
  | some session =>
      let hasTarget ← onAuthority (Authority.validatePaste session owner)
      let mutation ← result (requiredMutation params.action maxBytes)
      let operation ← fromBackend (mutate P H i params.entryId (some params.revision) mutation)
      let hasTarget ← armTarget i hasTarget session owner
      let (status, message) := pasteFeedback hasTarget params.action
      pure (.operation { operation with status, message, action := params.action })

/-- The scheme of a URL. -/
def scheme (url : Url) : String := String.ofList (url.serialization.toList.takeWhile (· ≠ ':'))

/-- The whole text, for an application that is launched. -/
def completeText (details : EntryDetails) : ApiResult String :=
  if details.previewTruncated then
    .error (.ofBackend (invalidData "Clipboard text is too large to launch safely"))
  else
    match details.text with
    | some text => .ok text
    | none => .error (.ofBackend (invalidData "Clipboard entry is not valid UTF-8 text"))

/-- The file that the action is about. -/
def selectedFile (details : EntryDetails) (index : Option Nat) : ApiResult FilePreview :=
  match details.files[index.getD 0]? with
  | some file => .ok file
  | none => .error (.validation "file_index does not identify a clipboard file")

def launchError (message : String) : ApiError := .ofBackend (operationError message)

/-- A call to the desktop. -/
def desktop (message : String) : Act F Unit :=
  attempt fun chance s =>
    some (if chance.authority.fails.isSome then .error (launchError message) else .ok (), s)

/-- A file that is there. -/
def existingLocalPath (file : FilePreview) : Act F FilePath := do
  match (P.parseUrl file.uri).bind P.toFilePath with
  | none => throw (.ofBackend (invalidData "Clipboard entry is not a local file"))
  | some path =>
      let found ← attempt fun _ s => some (.ok ((H.world s.backend.files).pathExists path), s)
      if found then pure path
      else throw (.ofBackend (.notFound "Clipboard file no longer exists"))

/-- Only web addresses are opened. -/
def openUrl (value : String) : Act F OperationResult := do
  match P.parseUrl (trim value) with
  | none => throw (.ofBackend (invalidData "URL is malformed"))
  | some url =>
      if scheme url = "http" ∨ scheme url = "https" then
        desktop "Application launch failed"
        pure (.completed i "open-url" "URL opened")
      else throw (.ofBackend (invalidData "Only HTTP and HTTPS URLs can be opened directly"))

/-- The file is opened by its application. -/
def openFile (file : FilePreview) : Act F OperationResult := do
  let _ ← existingLocalPath P H file
  desktop "Application launch failed"
  pure (.completed i "open-file" "File opened")

/-- The file is shown in the file manager. -/
def revealFile (file : FilePreview) : Act F OperationResult := do
  let path ← existingLocalPath P H file
  if (H.fromFilePath path).isNone then
    throw (.ofBackend (invalidData "Clipboard entry is not a local file"))
  desktop "Could not connect to the desktop file manager"
  desktop "Desktop file manager is unavailable"
  desktop "Desktop file manager could not reveal the file"
  pure (.completed i "reveal-file" "File revealed")

/-- An action that launches something. -/
def launchAction (params : Authority.ActionParams) (details : EntryDetails) :
    Act F OperationResult :=
  match params.action with
  | "open-url" => do openUrl P i (← result (completeText details))
  | "open-file" => do openFile P H i (← result (selectedFile details params.fileIndex))
  | "reveal-file" => do revealFile P H i (← result (selectedFile details params.fileIndex))
  | _ => throw (.validation "unsupported launch action")

/-- The action, after it was validated. -/
def executeAction (params : Authority.ActionParams) (details : EntryDetails) (maxBytes : Nat)
    (owner : Owner) : Act F Answer := do
  if params.action ∈ ["open-url", "open-file", "reveal-file"] then
    return .operation (← launchAction P H i params details)
  else if params.action ∈ ["paste", "image-as-file"] then paste P H i params maxBytes owner
  else
    let mutation ← result (requiredMutation params.action maxBytes)
    let operation ← fromBackend (mutate P H i params.entryId (some params.revision) mutation)
    pure (.operation { operation with action := params.action })

/-- `clipboard.entry.action`. -/
def action (params : Authority.ActionParams) (maxBytes : Nat) (owner : Owner) : Act F Answer := do
  let details ← loadDetails P H i params.entryId (some params.revision)
  result (validateAction details params.action)
  executeAction P H i params details maxBytes owner

def MAX_DELETE_ENTRIES : Nat := 5000

/-- Every target after those whose ids are known. -/
def validateTargets (uniqueIds : List String) : List EntryTarget → ApiResult Unit
  | [] => .ok ()
  | target :: targets => do
      validateEntryId target.opaqueId
      if uniqueIds.contains target.opaqueId then
        .error (.validation "entries must not contain duplicates")
      validateTargets (target.opaqueId :: uniqueIds) targets

/-- The targets of a deletion: not too many, and each once. -/
def validateDeleteTargets (targets : List EntryTarget) : ApiResult Unit := do
  if !(1 ≤ targets.length && targets.length ≤ MAX_DELETE_ENTRIES) then
    .error (.validation "entries must contain between 1 and 5000 clipboard entries")
  validateTargets [] targets

/-- `clipboard.entries.delete`. -/
def deleteEntries (targets : List EntryTarget) : Act F Answer := do
  result (validateDeleteTargets targets)
  let operation ← fromBackend (transacted i (.request i)
    (HistoryBackend.removeEntries P H i targets))
  pure (.operation operation)

/-! ## Selections -/

/-- `clipboard.capture.screenshot`. -/
def captureScreenshotAction (region : ScreenshotRegion) (maxBytes : Nat) : Act F Answer := do
  if !ScreenshotRegion.validDimensions region.width region.height then
    throw (.validation "screenshot dimensions exceed the 16384-pixel edge or 32-megapixel limit")
  return .operation (← fromBackend (captureScreenshot P H i region maxBytes))

/-- A selection is published as it is given. -/
def publish (mime : String) (bytes : Bytes) (maxBytes : Nat) : Act F Answer := do
  if bytes = [] then throw (.validation "clipboard content must not be empty")
  return .operation (← fromBackend (transacted i (.request i)
    (HistoryBackend.publishSync i mime bytes maxBytes)))

/-- `publish_selection_owned`. -/
def publishSelection (mime : String) (bytes : Bytes) : Act F Answer := do
  let maxBytes ← onAuthority Authority.maxEntryBytes
  publish i mime bytes maxBytes

/-- A secret is published for a while, and not kept. -/
def publishSensitive (text : String) (expirySeconds : Nat) : Act F Answer := do
  result ((validateSensitive (asBytes text) expirySeconds).mapError ApiError.validation)
  return .operation (← fromBackend (transacted i (.request i)
    (HistoryBackend.publishSensitiveSync i text expirySeconds)))

/-- Files are published. -/
def publishFiles (selection : FileSelection) (maxBytes : Nat) : Act F Answer := do
  result (selection.validate.mapError ApiError.validation)
  return .operation (← fromBackend (transacted i (.request i)
    (HistoryBackend.publishFilesSync H i selection maxBytes)))

/-! ## Edits -/

/-- The lease is handed out. -/
def issueLease (owner : Owner) (details : EntryDetails) (value : String) :
    Act F Authority.Answer :=
  attempt fun _ s =>
    let lease : EditLease :=
      { owner, entryId := details.entry.id, revision := details.entry.revision
        mime := details.entry.mime, expires := s.authority.now + EDIT_TTL }
    some (.ok (.edit i lease.entryId lease.revision lease.mime value),
      { s with
        authority := { s.authority with edits := s.authority.edits.insert i lease }.record i
          (.issued .edit owner lease.expires)
        leases := s.leases ++ [(i, lease)] })

/-- `clipboard.entry.edit.begin`. -/
def beginEdit (params : EntryParams) (owner : Owner) : Act F Answer := do
  let details ← loadDetails P H i params.entryId params.revision
  let value ← result (editableValue details)
  let answer ← issueLease i owner details value
  pure (.authority answer)

/-- `EditLease::replace`. -/
def replaceLeased (lease : EditLease) (value : String) (maxBytes : Nat) :
    Act F ReplacementResult := do
  let _ ← onAuthority (Authority.unexpired lease.expires (editError "Edit session expired"))
  if byteLen value > min MAX_EDIT_BYTES maxBytes then
    throw (editError "Edited text exceeds the configured limit")
  let revision ← fromBackend (transacted i (.request i)
    (HistoryBackend.revisionSync P H lease.entryId))
  result (validateRevision (some lease.revision) revision)
  fromBackend (transacted i (.request i)
    (HistoryBackend.replaceSync P H i lease.entryId lease.revision lease.mime (asBytes value)))

/-- `clipboard.entry.edit.commit`. -/
def commitEdit (params : EditCommitParams) (maxBytes : Nat) (owner : Owner) : Act F Answer := do
  let pasteTarget ← onAuthority (Authority.validateSession params.pasteSessionId owner)
  let lease ← onAuthority (Authority.redeemEdit i params.editId owner)
  let replacement ← replaceLeased P H i lease params.value maxBytes
  -- a saved edit is no evidence of a published selection
  let paste ← onAuthority (Authority.prepareSession i owner params.pasteSessionId
    (replacement.selectionPublished && pasteTarget))
  pure (.replaced replacement paste)

/-- `clipboard.entry.edit.cancel`. -/
def cancelEdit (id : Uuid) (owner : Owner) : Act F Answer := do
  let cancelled ← onAuthority (Authority.cancelLease owner id)
  pure (.authority cancelled)

/-! ## Settings -/

/-- The settings in use are others now. -/
def setPreferences (updated : ClipboardSettings) : Act F Unit :=
  attempt fun _ s => some (.ok (), { s with preferences := updated })

/-- The store runs under the limits that are wanted. -/
def applyRetention (desired : ClipboardSettings) : Act F Unit := do
  if ← retentionMatches P H (.request i) desired then pure ()
  else
    quiesceLocked P H (.request i)
    applyPolicy P H (.request i) (storePolicy desired)

/-- The lock of the settings is held from here to the end. -/
def settled {α : Type} (m : Act F α) : Act F α := do
  lockSettings i
  let r ← outcome m
  unlockSettings
  result r

/-- Capture is stopped before the limits change. -/
def fenceRetention (current updated : ClipboardSettings) : Act F Unit :=
  if retentionChanged current updated then quiesceLocked P H (.request i) else pure ()

/-- The file is written first. -/
def savePreferences (current updated : ClipboardSettings) : Act F Unit :=
  if updated = current then pure ()
  else do
    elsewhere
    setPreferences updated

/-- What `update_settings` does under the lock. -/
def updateLocked (update : SettingsUpdate) : Act F Answer := do
  let current ← readPreferences
  let updated ← result ((update.apply current).mapError settingsError)
  fenceRetention P H i current updated
  savePreferences current updated
  applyRetention P H i updated
  applyCapture P H (.request i) updated
  pure (.settings updated)

/-- `clipboard.settings.update`. -/
def updateSettings (update : SettingsUpdate) : Act F Answer := settled i (updateLocked P H i update)

/-- A pause that cannot be saved still stops the capture. -/
def pauseLocked (paused priv : Bool) : Act F Answer := do
  let current ← readPreferences
  let updated := { current with capturePaused := paused, privateMode := paused && priv }
  let saved ← outcome do
    elsewhere
    setPreferences updated
  match saved with
  | .ok () => do
      applyCapture P H (.request i) updated
      pure (.settings updated)
  | .error error =>
      if paused then
        let _ ← outcome (captureSetPaused true)
        let _ ← outcome (closeAdmission P H (.request i))
        throw error
      else throw error

/-- `clipboard.capture.pause`. -/
def setPaused (paused priv : Bool) : Act F Answer := settled i (pauseLocked P H i paused priv)

/-- Admission starts closed, so capture is not stopped for this. -/
def initializeRetention : Act F Unit := settled i do
  let preferences ← readPreferences
  applyPolicy P H (.request i) (storePolicy preferences)

/-- `CaptureGuard::resume`, and what `reconcile_capture` does under the lock. -/
def resume : Act F Unit := do
  let preferences ← readPreferences
  applyCapture P H (.request i) preferences

def reconcileCapture : Act F Unit := settled i (resume P H i)

def stopCapture : Act F Unit := settled i (quiesceLocked P H (.request i))

/-! ## Wipe -/

/-- The history is wiped while capture is stopped. -/
def wipeLocked : Act F Answer := do
  quiesceLocked P H (.request i)
  onAuthority Authority.clearEdits
  let operation ← fromBackend (mutate P H i "" none .wipe)
  match ← outcome (resume P H i) with
  | .ok () => pure (.operation operation)
  | .error error =>
      pure (.operation { operation with
        warning := some ("History was wiped; capture remains stopped: " ++ error.message) })

/-- `clipboard.wipe.commit`. -/
def commitWipe (params : WipeParams) (owner : Owner) : Act F Answer := do
  if params.response ≠ "WIPE" then throw (.validation "wipe confirmation must be WIPE")
  let challenge ← onAuthority (Authority.redeemWipe i params.challengeId owner)
  let _ ← onAuthority (Authority.unexpired challenge.expires
    (.new "stale-action" "wipe challenge expired"))
  settled i (wipeLocked P H i)

/-! ## History -/

/-- The token is the revision of the store. -/
def changeToken : Act F UInt64 := do
  let revision ← fromBackend (transacted i (.request i) (HistoryBackend.changeTokenSync P H))
  pure (UInt64.ofNat revision)

/-- The clock observes the token. -/
def observe (token : UInt64) : Act F Nat :=
  attempt fun _ s =>
    match s.history.observe token with
    | .ok (revision, history) => some (.ok revision, { s with history })
    | .error error => some (.error error, s)

def invalidate : Act F Unit :=
  attempt fun _ s => some (.ok (), { s with history := s.history.invalidate })

/-- A search starts, or there are too many. -/
def acquire : Act F Unit :=
  attempt fun chance s => some (if chance.authority.fails.isSome then .error busy else .ok (), s)

def elapsedSeconds : Act F UInt64 :=
  attempt fun _ s => some (.ok (UInt64.ofNat ((s.authority.now - s.started) / 1000)), s)

/-- A page of the store, through the backend. -/
def historyPage (query : HistoryQuery) : Act F HistoryPage :=
  fromBackend (transacted i (.request i) (Artifacts.querySync P H.toHost query))

/-- `HistorySearch::query`. -/
def searchHistory (params : QueryParams) (owner : Owner) (collapse : Bool) :
    Act F SearchHistory := do
  acquire
  let token ← changeToken P H i
  let elapsed ← elapsedSeconds
  let cursor ← result (HistorySearch.openCursor H.codec params owner collapse token elapsed)
  result (cursor.check token)
  let found ← historyPage P H i (params.historyQuery cursor.offset.toNat collapse)
  let token ← changeToken P H i
  result (cursor.check token)
  pure (HistorySearch.page H.codec found cursor params owner collapse)

/-- `ClipboardService::query`. -/
def queryPage (params : QueryParams) (owner : Owner) (collapse : Bool) : Act F History := do
  if byteLen params.query > MAX_QUERY_BYTES then
    throw (.validation "Search query exceeds 4096 bytes")
  else if params.limit < 1 ∨ MAX_QUERY_LIMIT < params.limit then
    throw (.validation "limit must be between 1 and 200")
  else if params.cursorMode then
    if params.offset ≠ 0 then
      throw (.validation "Use next_cursor, not offsets, in cursor mode")
    else do
      let found ← searchHistory P H i params owner collapse
      pure (.search found)
  else if params.cursor.isSome then throw (.validation "A cursor requires cursor mode")
  else do
    let found ← historyPage P H i (params.historyQuery params.offset collapse)
    pure (.page found)

/-- What `query_history` does under the lock of the clock. -/
def queryLocked (params : QueryParams) (owner : Owner) (collapse : Bool) : Act F Answer := do
  let before ← changeToken P H i
  let _ ← observe before
  let history ← queryPage P H i params owner collapse
  let after ← changeToken P H i
  let observed ← observe after
  if before ≠ after then throw staleHistory
  else pure (.history { history, snapshotRevision := after, observed })

/-- `clipboard.history.query`. -/
def queryHistory (params : QueryParams) (owner : Owner) : Act F Answer := do
  let preferences ← readPreferences
  observing i (queryLocked P H i params owner preferences.collapseSelfEchoes)

/-- A token that cannot be read invalidates the clock. -/
def historyRevision : Act F Answer :=
  observing i do
    match ← outcome (changeToken P H i) with
    | .ok token =>
        let revision ← observe token
        pure (.observed token revision)
    | .error error =>
        invalidate
        throw error

/-! ## Dispatch -/

/-- `dispatch_entry`, with the limit that is read before it. -/
def dispatchEntry (m : Nat → Act F Answer) : Act F Answer := do
  let maxBytes ← onAuthority Authority.maxEntryBytes
  onAuthority Authority.purgeEdits
  m maxBytes

/-- The answer about sessions. -/
def authorized (m : Authority.Act Authority.Answer) : Act F Answer := do
  let answer ← onAuthority m
  pure (.authority answer)

/-- `clipboard.operation.status`. -/
def operationStatus (id : Uuid) (owner : Owner) : Act F Answer := do
  let status ← ExceptT.lift (onJobs (Jobs.operationStatus i id owner))
  let (operation, revision) ← result status
  pure (.status operation revision)

/-- `dispatch_method`: the handler of each method. -/
def dispatchMethod (method : Method) (owner : Owner) : Act F Answer :=
  match method with
  | .entryAction params => dispatchEntry fun maxBytes => action P H i params maxBytes owner
  | .editBegin params => dispatchEntry fun _ => beginEdit P H i params owner
  | .editCommit params => dispatchEntry fun maxBytes => commitEdit P H i params maxBytes owner
  | .editCancel id => dispatchEntry fun _ => cancelEdit id owner
  | .details params => do return .entry (← loadDetails P H i params.entryId params.revision)
  | .deleteEntries targets => deleteEntries P H i targets
  | .sessionBegin => authorized (Authority.sessionBegin i owner)
  | .sessionHidden id => authorized (Authority.sessionHidden i owner id)
  | .sessionEnd id => authorized (Authority.sessionEnd owner id)
  | .sessionWait id rounds => authorized (Authority.sessionWait owner id rounds)
  | .wipePrepare => authorized (Authority.wipePrepare i owner)
  | .wipeCommit params => commitWipe P H i params owner
  | .operationStatus id => operationStatus i id owner
  | .query params => queryHistory P H i params owner
  | .historyRevision => historyRevision P H i
  | .interactive => do
      let _ ← onAuthority Authority.maxEntryBytes
      return .operation (← fromBackend (interactiveScreenshot H i))
  | .screenshot region => do
      let maxBytes ← onAuthority Authority.maxEntryBytes
      captureScreenshotAction P H i region maxBytes
  | .publishText text => do
      let maxBytes ← onAuthority Authority.maxEntryBytes
      publish i "text/plain;charset=utf-8" (asBytes text) maxBytes
  | .publishSensitive text expirySeconds => publishSensitive i text expirySeconds
  | .publishFiles selection => do
      let maxBytes ← onAuthority Authority.maxEntryBytes
      publishFiles H i selection maxBytes
  | .setPaused paused priv => setPaused P H i paused priv
  | .updateSettings update => updateSettings P H i update
  | .other => do
      elsewhere
      return .none

/-- An operation that was started is entered into the book, and answered from there. -/
def track (answer : Answer) (owner : Owner) : Act F Answer :=
  match answer with
  | .operation operation =>
      if operation.status = "started" then do
        ExceptT.lift (onJobs (Jobs.trackOperation i operation owner))
        operationStatus i operation.id owner
      else pure answer
  | _ => pure answer

/-- The method, and what it has started is tracked. -/
def dispatchReserved (method : Method) (owner : Owner) : Act F Answer := do
  let answer ← dispatchMethod P H i method owner
  track i answer owner

/-- `ApiService::dispatch_owned`. -/
def dispatchOwned (reserves : Bool) (method : Method) (owner : Owner) : Work F Reply := do
  onJobs (Jobs.refreshOperations i)
  if reserves then
    match ← onJobs (Jobs.reserve i owner) with
    | .error error => return .error error
    | .ok () =>
        let reply ← (dispatchReserved P H i method owner).run
        onJobs (Jobs.release i)
        return reply
  else (dispatchReserved P H i method owner).run

/-! ## Transports -/

/-- What was dropped is recorded, if the owner was marked as gone. -/
def sweep (held : Held) (owner : String) : Act F Unit :=
  attempt fun _ s => some (.ok (), { s with
    authority := s.authority.drop owner held
    swept := fun kind name =>
      s.swept kind name || (kind = held && name = owner && s.departed owner) })

/-- The operations of a caller that has left are cancelled, and what it holds is dropped. -/
def releaseOwner (owner : String) : Act F Unit := do
  sweep .sessions owner
  sweep .edits owner
  let _ ← ExceptT.lift (onJobs (Jobs.releaseOwner i owner))
  sweep .challenges owner

/-- How a caller is connected. -/
inductive Transport
  | dbus
  | socket
deriving DecidableEq

/-- Is the caller there?  The bus may fail to tell, and then it is not. -/
def alive (transport : Transport) (owner : String) : Work F Bool :=
  Thread.atomic fun chance s =>
    some (!s.departed owner && (transport = .socket || chance.authority.flag), s)

def ownerUnavailable : ApiError := .new "owner-unavailable" "Clipboard caller is unavailable"

/-- `Caller::dispatch`: what was registered after the cleanup is dropped by the request. -/
def callerDispatch (transport : Transport) (reserves : Bool) (method : Method) (owner : String) :
    Work F Reply := do
  if ← alive transport owner then
    let reply ← dispatchOwned P H i reserves method (some owner)
    if !(← alive transport owner) then
      let _ ← (releaseOwner i owner).run
    return reply
  else
    if transport = .dbus then
      let _ ← (releaseOwner i owner).run
    return .error ownerUnavailable

/-- The transport marks the owner as gone, and runs the cleanup. -/
def disconnect (owner : String) : Work F Reply := do
  Thread.modify fun s => ((), { s with departed := Function.update s.departed owner true })
  let _ ← (releaseOwner i owner).run
  return .ok .none

/-! ## Annotations -/

/-- The task of an operation begins its work, or is aborted before. -/
def startWork (id : Uuid) : Work F (Option AnnotationStage) :=
  Thread.atomic fun chance s =>
    match s.jobs.backend.task id, s.stages id with
    | .ready "annotate", some staged =>
        if chance.authority.flag then
          (s.jobs.backend.pollTask id .abort).map fun backend =>
            (none, { s with jobs := { s.jobs with backend } })
        else
          (s.jobs.backend.pollTask id .begin).map fun backend =>
            (some staged, { s with
              jobs := { s.jobs with backend }
              workers := Function.update s.workers id (some i) })
    | _, _ => none

/-- An await, at which the abortion may strike. -/
def aborted (id : Uuid) : Work F Bool :=
  Thread.atomic fun chance s =>
    if chance.authority.flag then
      (s.jobs.backend.pollTask id .abort).map fun backend =>
        (true, { s with jobs := { s.jobs with backend } })
    else some (false, s)

/-- The editor returns, and the output is there. -/
def edited : BackendAct F Unit :=
  attempt fun chance s =>
    some (match chance.authority.fails with
      | some error => .error (operationError error.message)
      | none => .ok (), s)

/-- From here on the operation cannot be cancelled. -/
def beginCommit (id : Uuid) : BackendAct F Bool :=
  attempt fun _ s =>
    match s.jobs.backend.task id with
    | .working _ =>
        let began := s.jobs.backend.beginCommit id
        some (.ok began.1, { s with jobs := { s.jobs with backend := began.2 } })
    | _ => none

/-- `run_annotation`, after its awaits. -/
def Annotate.run (id : Uuid) (staged : AnnotationStage) : BackendAct F OperationCompletion := do
  edited
  if ← beginCommit id then
    locked i (onBackend (.operation id)
      (HistoryBackend.Annotate.apply P H staged.opaqueId staged.revision staged.output
        staged.maxBytes))
  else throw (operationError "Image edit was cancelled before commit")

/-- `complete`, for an annotation. -/
def Annotate.complete (id : Uuid) : Work F Reply := do
  match ← startWork i id with
  | none => return .ok .none
  | some staged =>
      if ← aborted id then return .ok .none
      else
        let worked ← (Annotate.run P H i id staged).run
        pollTask id (.finish worked)
        pollTask id .next
        pollTask id .next
        pollTask id .next
        return .ok .none

/-! ## What goes on beside the requests -/

/-- A thread of the capture owner changes the policy of the store (`set_admission`). -/
def setAdmission (enabled : Bool) : Act F Unit := do
  attempt fun _ s =>
    if s.capturing then some (.ok (), { s with admitting := i :: s.admitting }) else none
  let changed ← outcome do
    let policy ← readPolicy P H .admission
    applyPolicy P H .admission { policy with admission := enabled }
  attempt fun _ s => some (.ok (), { s with admitting := s.admitting.filter (· ≠ i) })
  result changed

/-- `Admission::admit`: the transfer of a selection begins. -/
def admits : Work F (Option Nat) :=
  Thread.atomic fun _ s =>
    some (if s.capturing then
      (some s.session, { s with
        captures := Function.update s.captures i (some (s.session, s.commits.length)) })
    else (none, s))

/-- `Admission::submit`, up to its closure: a selection of another session is rejected. -/
def enters (session : Nat) : Work F Bool :=
  Thread.atomic fun _ s =>
    some (if s.capturing && s.session = session then
      (true, { s with ingesting := i :: s.ingesting })
    else (false, s))

/-- The closure has ended. -/
def leaves : Work F Unit :=
  Thread.modify fun s => ((), { s with ingesting := s.ingesting.filter (· ≠ i) })

/-- A selection is captured. -/
def capture (mime : String) (bytes : Bytes) : Work F Unit := do
  match ← admits i with
  | none => return ()
  | some session =>
      if ← enters i session then
        let _ ← (transacted i (.capture i) (Artifacts.ingest P H.toHost mime bytes)).run
        leaves i

/-- A step of a task that is no annotation, or of a cleanup. -/
def poll : Work F Unit :=
  Thread.atomic fun chance s =>
    match chance.jobs with
    | .backend (.task id move) =>
        match s.jobs.backend.task id with
        | .ready action | .working action | .blocking action | .ended action _ =>
            if action = "annotate" then none
            else (s.jobs.backend.pollTask id move).map fun backend =>
              ((), { s with jobs := { s.jobs with backend } })
        | .finishing _ | .after =>
            if s.workers id = none then
              (s.jobs.backend.pollTask id move).map fun backend =>
                ((), { s with jobs := { s.jobs with backend } })
            else none
        -- a closure may outlive its task
        | .over =>
            (s.jobs.backend.pollTask id move).map fun backend =>
              ((), { s with jobs := { s.jobs with backend } })
        | .none => none
    | .backend (.cleanup id) =>
        (s.jobs.backend.pollCleanup id).map fun backend =>
          ((), { s with jobs := { s.jobs with backend } })
    | _ => none

/-- Time passes. -/
def elapse (time : Nat) : Work F Unit :=
  Thread.modify fun s => ((), { s with
    authority := { s.authority with now := s.authority.now + time }
    jobs := { s.jobs with backend := { s.jobs.backend with now := s.jobs.backend.now + time } } })

end Programs

/-- What the daemon is called for. -/
inductive Call (F : Type)
  /-- A request of a client, which is in the process or behind a transport. -/
  | request (client : Option (Transport × String)) (reserves : Bool) (method : Method)
  /-- `Publish` of the bus, which takes bytes. -/
  | publish (mime : String) (bytes : Bytes)
  | cancel (id : Uuid) (owner : Owner)
  | disconnect (owner : String)
  /-- The daemon drops what a caller holds, as it does when it stops. -/
  | release (owner : String)
  /-- An event of the backend arrives. -/
  | observed (id : Uuid)
  /-- Events of the backend were lost. -/
  | lagged
  /-- The work of an annotation. -/
  | annotate (id : Uuid)
  /-- A step of another task of the backend. -/
  | poll
  /-- A selection was captured. -/
  | ingest (mime : String) (bytes : Bytes)
  | setAdmission (enabled : Bool)
  /-- The daemon starts. -/
  | startup
  /-- The daemon stops. -/
  | shutdown
  | files (files : F)
  | clock (now : Nat)
  | elapse (time : Nat)

/-- A call that is no request answers nothing. -/
def silent {F : Type} {α : Type} (m : Work F α) : Work F Reply := do
  let _ ← m
  return .ok .none

variable {F : Type}

/-- The thread that executes a call. -/
def program (P : Platform) (H : Machine F) (i : Nat) : Call F → Work F Reply
  | .request none reserves method => dispatchOwned P H i reserves method none
  | .request (some (transport, owner)) reserves method =>
      callerDispatch P H i transport reserves method owner
  | .publish mime bytes => (publishSelection i mime bytes).run
  | .cancel id owner => silent (onJobs (Jobs.cancel i id owner))
  | .disconnect owner => disconnect i owner
  | .release owner => silent (releaseOwner i owner).run
  | .observed id => silent (onJobs (Jobs.refreshOperation i id))
  | .lagged => silent (onJobs (Jobs.refreshOperations i))
  | Call.annotate id => Annotate.complete P H i id
  | .poll => silent poll
  | .ingest mime bytes => silent (capture P H i mime bytes)
  | .setAdmission enabled => silent (setAdmission P H i enabled).run
  | .startup => do
      let _ ← (initializeRetention P H i).run
      silent (reconcileCapture P H i).run
  | .shutdown => silent (stopCapture P H i).run
  | .files files =>
      silent (Thread.modify fun s => ((), { s with backend := { s.backend with files } }))
  | .clock clock =>
      silent (Thread.modify fun s => ((), { s with backend := { s.backend with clock } }))
  | .elapse time => silent (elapse time)

/-- The daemon before the first call. -/
def service (store : Store) (files : F) (clock now : Nat) (preferences : ClipboardSettings) :
    Pool (Daemon F) Chance (Call F) Reply :=
  .start (initial store files clock now preferences)

/-! ## A machine without files -/

/-- No file is there, and nothing fails. -/
def emptyMachine : Machine Unit where
  home := none
  euid := 0
  isUuid _ := false
  world _ := .empty
  canonicalize _ _ := none
  symlinkMetadata _ _ := .error .notFound
  privateDirectory files _ := .ok files
  writePrivate files _ _ := (.ok (), files)
  removeFile files _ := .ok files
  clearCaches files := (.ok (), files)
  runtime := []
  fromFilePath _ := none
  decodes _ := false
  codec := ⟨fun _ => none, fun _ _ => []⟩

/-- Nothing fails, and no operation is known. -/
def calm : Chance where
  authority :=
    { fails := none
      refuses := none
      number := 1024
      target := none
      details := ⟨⟨"", 0, .text, "", 0, false, false, ""⟩, none, [], none, false⟩
      flag := true }
  jobs := .order []
  backend := ⟨none, .none, "1", .ok ()⟩

/-- So many statements of a thread. -/
def steps (i n : Nat) : List (Pool.Move (Call Unit) Chance) := List.replicate n (.step i calm)

end ClipDaemon.Daemon
