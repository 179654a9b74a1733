import ClipDaemon.Lib.Threads
import ClipDaemon.Store.Schema

/-!
# Settings and the capture owner

`SettingsManager` (`settings.rs`) holds the saved preferences and drives two components:
the capture owner, which is really paused or running, and the policy of the history
store.  Every operation that changes anything holds the `transaction` lock from its start
to its return, and makes calls that can fail at every point in between.

Operations are threads.  Their outside calls take a `Chance`: whether the call fails, and
whether it took effect all the same.  The capture owner changes the store policy too, by
read-modify-write from its own threads while it is active; a successful
`set_paused(true, _)` waits for these.

Two results are about every interleaving.  `privacy_never_claimed_falsely` says that what
the manager reports about capture is true.  `capture_runs_under_saved_limits` says that
capture runs only under the saved limits, and is not resumed after `stop_capture`.
-/

namespace ClipDaemon

open Thread (attempt outcome result)

/-! ## Preferences -/

/-- What `From<StorePolicy>` keeps of a policy. -/
structure RetentionLimits where
  maxEntries : Nat
  maxFavorites : Nat
  maxEntryBytes : Nat
  maxTotalBytes : Nat
deriving DecidableEq

/-- The limits of a policy. -/
def RetentionLimits.ofPolicy (policy : StorePolicy) : RetentionLimits where
  maxEntries := policy.maxEntries
  maxFavorites := policy.maxFavorites
  maxEntryBytes := policy.maxEntryBytes
  maxTotalBytes := policy.maxTotalBytes

/-- The settings that are saved. -/
structure ClipboardSettings where
  maxEntries : Nat
  maxFavorites : Nat
  maxEntryBytes : Nat
  capturePaused : Bool
  privateMode : Bool
  collapseSelfEchoes : Bool
deriving DecidableEq

def ClipboardSettings.default : ClipboardSettings where
  maxEntries := 1000
  maxFavorites := 100
  maxEntryBytes := 16 * 1024 * 1024
  capturePaused := true
  privateMode := false
  collapseSelfEchoes := true

/-- The changes of a request; what is not given stays. -/
structure SettingsUpdate where
  maxEntries : Option Nat
  maxFavorites : Option Nat
  maxEntryBytes : Option Nat
  collapseSelfEchoes : Option Bool

/-- The value that is given, if it is in its range. -/
def validatedUpdate (update : Option Nat) (current low high : Nat) : Except String Nat :=
  if update.any fun value => value < low || high < value then
    .error "Clipboard setting is outside the supported range"
  else .ok (update.getD current)

/-- The settings with these changes. -/
def SettingsUpdate.apply (update : SettingsUpdate) (value : ClipboardSettings) :
    Except String ClipboardSettings := do
  let maxEntries ← validatedUpdate update.maxEntries value.maxEntries 1 100000
  let maxFavorites ← validatedUpdate update.maxFavorites value.maxFavorites 1 10000
  let maxEntryBytes ←
    validatedUpdate update.maxEntryBytes value.maxEntryBytes (64 * 1024) (64 * 1024 * 1024)
  return { value with
    maxEntries, maxFavorites, maxEntryBytes
    collapseSelfEchoes := update.collapseSelfEchoes.getD value.collapseSelfEchoes }

def SETTINGS_MAX_TOTAL_BYTES : Nat := 256 * 1024 * 1024

/-- The limits of the store are others. -/
def retentionChanged (a b : ClipboardSettings) : Bool :=
  (a.maxEntries, a.maxFavorites, a.maxEntryBytes) ≠ (b.maxEntries, b.maxFavorites, b.maxEntryBytes)

/-- The store has the limits of the settings. -/
def limitsMatch (limits : StorePolicy) (desired : ClipboardSettings) : Bool :=
  limits.maxEntries = desired.maxEntries && limits.maxFavorites = desired.maxFavorites &&
    limits.maxEntryBytes = desired.maxEntryBytes &&
    limits.maxTotalBytes = SETTINGS_MAX_TOTAL_BYTES

/-- The policy of the settings; admission is opened by capture. -/
def storePolicy (value : ClipboardSettings) : StorePolicy where
  admission := false
  maxEntries := value.maxEntries
  maxFavorites := value.maxFavorites
  maxEntryBytes := value.maxEntryBytes
  maxTotalBytes := SETTINGS_MAX_TOTAL_BYTES

/-- What was found at the settings path. -/
inductive SettingsFile
  /-- There is no path, or no file. -/
  | missing
  | unreadable
  /-- The file, and what `serde_json` makes of it. -/
  | contents (parsed : Option ClipboardSettings)

/-- What the file says is in range, and private mode is paused. -/
def validateLoadedSettings (value : ClipboardSettings) : Except String ClipboardSettings := do
  let _ ← SettingsUpdate.apply
    { maxEntries := some value.maxEntries
      maxFavorites := some value.maxFavorites
      maxEntryBytes := some value.maxEntryBytes
      collapseSelfEchoes := none } value
  if value.privateMode && !value.capturePaused then
    throw "Private mode requires a paused capture preference"
  return value

/-- What a missing file stands for is not what an unreadable one does. -/
def loadSettings : SettingsFile → Except String ClipboardSettings
  | .missing => .ok .default
  | .unreadable => .error "Clipboard settings could not be read"
  | .contents none => .error "Clipboard settings file is invalid; refusing to use defaults"
  | .contents (some value) => validateLoadedSettings value

/-- An update leaves the capture preference alone. -/
theorem SettingsUpdate.apply_capture {update : SettingsUpdate} {value updated : ClipboardSettings}
    (h : update.apply value = .ok updated) :
    updated.capturePaused = value.capturePaused ∧ updated.privateMode = value.privateMode := by
  simp only [apply, bind, Except.bind, pure, Except.pure] at h
  split at h
  · cases h
  split at h
  · cases h
  split at h
  · cases h
  cases h
  exact ⟨rfl, rfl⟩

/-- Loaded preferences are private only when they are paused. -/
theorem loadSettings_private {file : SettingsFile} {value : ClipboardSettings}
    (h : loadSettings file = .ok value) (hprivate : value.privateMode = true) :
    value.capturePaused = true := by
  cases file with
  | missing => cases h; rfl
  | unreadable => cases h
  | contents parsed =>
      cases parsed with
      | none => cases h
      | some loaded =>
          simp only [loadSettings, validateLoadedSettings, bind, Except.bind] at h
          split at h
          · cases h
          cases hpaused : loaded.capturePaused with
          | false =>
              cases hmode : loaded.privateMode with
              | false =>
                  simp [hmode, hpaused, pure, Except.pure] at h
                  rw [← h, hmode] at hprivate
                  cases hprivate
              | true =>
                  simp [hmode, hpaused, throw, throwThe, MonadExceptOf.throw] at h
          | true =>
              simp [hpaused, pure, Except.pure] at h
              rw [← h, hpaused]

theorem limitsMatch_iff {limits : StorePolicy} {desired : ClipboardSettings} :
    limitsMatch limits desired = true ↔
      RetentionLimits.ofPolicy limits = RetentionLimits.ofPolicy (storePolicy desired) := by
  simp [limitsMatch, RetentionLimits.ofPolicy, storePolicy, and_assoc]

theorem retentionChanged_false {a b : ClipboardSettings} (h : retentionChanged a b = false) :
    storePolicy b = storePolicy a := by
  simp only [retentionChanged, ne_eq, decide_not, Bool.not_eq_false', decide_eq_true_eq,
    Prod.mk.injEq] at h
  simp [storePolicy, h.1, h.2.1, h.2.2]

/-! ## The manager among its services -/

/-- The settings in use, and what is known of capture. -/
structure SettingsState where
  value : ClipboardSettings
  loadError : Option String
  captureVerified : Bool
  captureError : Option String

/-- `SettingsManager::default`. -/
def SettingsState.load (file : SettingsFile) : SettingsState :=
  match loadSettings file with
  | .ok value => ⟨value, none, false, some "Capture state has not been verified"⟩
  | .error error => ⟨.default, some error, false, some "Capture state has not been verified"⟩

/-- `SettingsManager::isolated`. -/
def SettingsState.isolated : SettingsState := ⟨.default, none, false, none⟩

/-- A call of `CaptureControl::set_paused`. -/
structure CaptureCall where
  paused : Bool
  maxBytes : Nat

/-- The owner of the capture threads. -/
structure CaptureOwner where
  paused : Bool
  /-- Its threads may be at work. -/
  active : Bool
  calls : List CaptureCall

/-- What the surroundings decide about one outside call. -/
structure Chance where
  /-- The error of the call, if it fails. -/
  fails : Option String
  /-- Whether the call takes effect although it fails, or before it returns. -/
  took : Bool

/-- The manager and what it governs. -/
structure SettingsManager where
  state : SettingsState
  stopping : Bool
  /-- The thread that holds the lock. -/
  transaction : Option Nat
  /-- The policy control is the store; otherwise it is `services::Unavailable`. -/
  attached : Bool
  policy : StorePolicy
  capture : CaptureOwner
  /-- The policies that threads of the capture owner have read and are about to change. -/
  admitting : List (Nat × StorePolicy)

namespace SettingsManager

/-- A manager before its first operation. -/
def initial (state : SettingsState) (attached : Bool) (policy : StorePolicy) (paused : Bool) :
    SettingsManager where
  state := state
  stopping := false
  transaction := none
  attached := attached
  policy := policy
  capture := { paused, active := !paused, calls := [] }
  admitting := []

/-! ### Reads -/

/-- `validated_state`, with the value of `stopping` that it loads before it locks the state. -/
def validatedState (stopping : Bool) (state : SettingsState) : Except String SettingsState :=
  if stopping then .error "Clipboard service is shutting down"
  else
    match state.loadError with
    | some error => .error error
    | none => .ok state

/-- Legacy booleans never assert privacy unless capture state is verified. -/
def get (stopping : Bool) (state : SettingsState) : Except String ClipboardSettings := do
  let state ← validatedState stopping state
  if state.captureVerified then return state.value
  else return { state.value with capturePaused := false, privateMode := false }

/-- What the settings say of capture. -/
structure CaptureState where
  desiredPaused : Bool
  desiredPrivateMode : Bool
  paused : Option Bool
  privateMode : Bool
  verified : Bool
  error : Option String

/-- What the settings say of capture. -/
def captureState (state : SettingsState) : CaptureState where
  desiredPaused := state.value.capturePaused
  desiredPrivateMode := state.value.privateMode
  paused := if state.captureVerified then some state.value.capturePaused else none
  privateMode := state.captureVerified && state.value.privateMode
  verified := state.captureVerified
  error := state.captureError

/-! ### Statements -/

/-- A program of the manager, whose errors are texts. -/
abbrev Act := ExceptT String (Thread SettingsManager Chance)

/-- The settings in use, unless the manager stops. -/
def preferences : Act ClipboardSettings :=
  attempt fun _ m => some ((validatedState m.stopping m.state).map (·.value), m)

/-- `clipboard.settings.get`. -/
def getSettings : Act ClipboardSettings :=
  attempt fun _ m => some (get m.stopping m.state, m)

/-- `result.as_ref().err().cloned()`. -/
def errorOf : Except String Unit → Option String
  | .ok () => none
  | .error error => some error

/-- What was found out of capture is noted. -/
def recordCapture (result : Except String Unit) : Act Unit :=
  attempt fun _ m =>
    some (result, { m with
      state := { m.state with captureVerified := result.isOk, captureError := errorOf result } })

/-- The write of the settings file: `persist`, or a failure of the blocking task. -/
def persist : Act Unit :=
  attempt fun chance m =>
    some (match chance.fails with | some error => .error error | none => .ok (), m)

/-- The settings are in use from here on. -/
def commit (value : ClipboardSettings) : Act ClipboardSettings :=
  attempt fun _ m =>
    let changed := m.state.value.capturePaused ≠ value.capturePaused ||
      m.state.value.privateMode ≠ value.privateMode
    some (.ok value, { m with
      state := { m.state with
        value
        loadError := none
        captureVerified := m.state.captureVerified && !changed } })

/-- `PolicyControl::policy`. -/
def readPolicy : Act StorePolicy :=
  attempt fun chance m =>
    some (match chance.fails with
      | some error => .error error
      | none => if m.attached then .ok m.policy else .error "History store is unavailable", m)

/-- `PolicyControl::apply`. -/
def applyPolicy (policy : StorePolicy) : Act Unit :=
  attempt fun chance m =>
    match chance.fails with
    | some error => some (.error error, if chance.took then { m with policy } else m)
    | none =>
        some (if m.attached then (.ok (), { m with policy })
          else (.error "History store is unavailable", m))

/-- Is a store attached? -/
def attachedStore : Act Bool := attempt fun _ m => some (.ok m.attached, m)

/-- `CaptureControl::set_paused` begins, and may take effect at once.  The result is the
old state. -/
def setPausedBegin (paused : Bool) (maxBytes : Nat) : Act Bool :=
  attempt fun chance m =>
    some (.ok m.capture.paused, { m with
      capture :=
        { paused := if chance.took then paused else m.capture.paused
          active := m.capture.active || !paused
          calls := m.capture.calls ++ [⟨paused, maxBytes⟩] } })

/-- `CaptureControl::set_paused` returns.  A failure leaves the old state or the requested
one; a pause that succeeds has waited for the threads of the owner. -/
def setPausedEnd (paused old : Bool) : Act Unit :=
  attempt fun chance m =>
    match chance.fails with
    | some error =>
        some (.error error, { m with
          capture := { m.capture with paused := if chance.took then paused else old } })
    | none =>
        if paused && !m.admitting.isEmpty then none
        else some (.ok (), { m with capture := { m.capture with paused, active := !paused } })

/-- The capture owner is asked to stop or to run. -/
def captureSetPaused (paused : Bool) (maxBytes : Nat) : Act Unit := do
  let old ← setPausedBegin paused maxBytes
  setPausedEnd paused old

/-- Is capture stopped, as its owner says? -/
def captureIsPaused : Act Bool :=
  attempt fun chance m =>
    some (match chance.fails with | some error => .error error | none => .ok m.capture.paused, m)

/-! ### Steps of the operations -/

/-- `PolicyControl::close`, with the override of `services::Unavailable`. -/
def closeAdmission : Act Unit := do
  if ← attachedStore then
    let policy ← readPolicy
    applyPolicy { policy with admission := false }

/-- Capture is stopped, and then the store is closed for it. -/
def quiesceLocked : Act Unit := do
  let _ ← outcome (recordCapture (.error "Capture is quiesced for a policy transition"))
  captureSetPaused true 0
  closeAdmission

/-- The store runs under the limits that are wanted. -/
def retentionMatches (desired : ClipboardSettings) : Act Bool := do
  match ← outcome readPolicy with
  | .ok limits => return limitsMatch limits desired
  | .error _ => return false

/-- The store gets the limits while capture is stopped. -/
def applyRetention (desired : ClipboardSettings) : Act Unit := do
  if ← retentionMatches desired then return ()
  quiesceLocked
  applyPolicy (storePolicy desired)

/-- The file first, and then what is in use. -/
def save (updated : ClipboardSettings) : Act ClipboardSettings := do
  persist
  commit updated

/-- Capture is as it is wanted. -/
def verifyCapture (desired : Bool) : Act Unit := do
  let actual ← captureIsPaused
  if actual = desired then return ()
  else throw "Capture service does not match the saved preference"

/-- The store admits captures only under limits that match. -/
def unsynchronized (updated : ClipboardSettings) : Act Bool := do
  if updated.capturePaused then return false
  else return !(← retentionMatches updated)

/-- The body of `apply_capture`. -/
def switchCapture (updated : ClipboardSettings) : Act Unit := do
  if ← unsynchronized updated then
    quiesceLocked
    throw "Capture is disabled until store retention/limits are synchronized"
  captureSetPaused updated.capturePaused updated.maxEntryBytes
  if updated.capturePaused then closeAdmission
  verifyCapture updated.capturePaused

/-- Capture is switched, and what came of it is noted. -/
def applyCapture (updated : ClipboardSettings) : Act Unit := do
  let _ ← outcome (recordCapture (.error "Capture transition is not yet verified"))
  let transition ← outcome (switchCapture updated)
  recordCapture transition

def SETTINGS_SAVED : String := "Clipboard settings were saved"

/-- `map_err(|error| format!("{SETTINGS_SAVED}, but {error}"))`. -/
def afterSaving (m : Act Unit) : Act Unit := do
  match ← outcome m with
  | .ok () => return ()
  | .error error => throw (SETTINGS_SAVED ++ ", but " ++ error)

/-! ### Operations -/

/-- The lock is taken at the start of an operation and given back when it returns. -/
def transacted {α : Type} (i : Nat) (m : Act α) :
    Thread SettingsManager Chance (Except String α) := do
  Thread.atomic fun _ m =>
    if m.transaction = none then some ((), { m with transaction := some i }) else none
  let result ← m.run
  Thread.modify fun m => ((), { m with transaction := none })
  return result

/-- `update`, under the lock. -/
def update (update : SettingsUpdate) : Act ClipboardSettings := do
  let current ← preferences
  let updated ← result (update.apply current)
  if retentionChanged current updated then quiesceLocked
  let updated ← if updated ≠ current then save updated else pure updated
  afterSaving (applyRetention updated)
  afterSaving (applyCapture updated)
  getSettings

/-- The store gets the limits when it is attached. -/
def initializeRetention : Act Unit := do
  applyPolicy (storePolicy (← preferences))

/-- `set_paused`, under the lock. -/
def setPaused (paused priv : Bool) : Act ClipboardSettings := do
  let updated ← preferences
  let updated := { updated with capturePaused := paused, privateMode := paused && priv }
  match ← outcome (save updated) with
  | .ok updated =>
      applyCapture updated
      getSettings
  | .error error =>
      if paused then
        -- Stop locally even if intent cannot be persisted.
        let _ ← outcome (captureSetPaused true 0)
        let _ ← outcome closeAdmission
        let _ ← outcome (recordCapture (.error error))
      throw error

/-- What the holder of a `CaptureGuard` does with it. -/
def guardResumes : Act Bool := attempt fun chance m => some (.ok chance.took, m)

/-- `quiesce`, and its guard resumed or dropped. -/
def quiesce : Act Unit := do
  quiesceLocked
  if ← guardResumes then applyCapture (← preferences)

/-- The manager stops, and capture for good. -/
def stopCapture : Act Unit := do
  attempt fun _ m => some (.ok (), { m with stopping := true })
  quiesceLocked

/-- Capture is made to follow the settings. -/
def reconcileCapture : Act Unit := do
  applyCapture (← preferences)

/-- Capture is looked at again. -/
def refreshCapture : Act Unit := do
  let desired ← preferences
  let verified ← outcome (verifyCapture desired.capturePaused)
  recordCapture verified

/-! ### The capture owner -/

/-- A thread of the capture owner reads the policy (`CaptureSink::set_admission`). -/
def admissionRead (i : Nat) : Act StorePolicy :=
  attempt fun chance m =>
    if m.capture.active then
      match chance.fails with
      | some error => some (.error error, m)
      | none => some (.ok m.policy, { m with admitting := (i, m.policy) :: m.admitting })
    else none

/-- The policy is written that was read before. -/
def admissionWrite (i : Nat) (policy : StorePolicy) : Act Unit :=
  attempt fun chance m =>
    let m := { m with admitting := m.admitting.filter fun entry => entry.1 ≠ i }
    match chance.fails with
    | some error => some (.error error, if chance.took then { m with policy } else m)
    | none => some (.ok (), { m with policy })

/-- A thread of the capture owner opens or closes the store. -/
def setAdmission (i : Nat) (enabled : Bool) : Act Unit := do
  let policy ← admissionRead i
  admissionWrite i { policy with admission := enabled }

/-! ### Calls -/

/-- The calls on the manager. -/
inductive Call
  | update (update : SettingsUpdate)
  | initializeRetention
  | setPaused (paused priv : Bool)
  | quiesce
  | stopCapture
  | reconcileCapture
  | refreshCapture
  /-- A thread of the capture owner. -/
  | setAdmission (enabled : Bool)

/-- Their answers. -/
inductive Reply
  | settings (value : ClipboardSettings)
  | unit

/-- The thread that executes a call. -/
def program (i : Nat) : Call → Thread SettingsManager Chance (Except String Reply)
  | .update u => transacted i do return .settings (← update u)
  | .initializeRetention => transacted i do initializeRetention; return .unit
  | .setPaused paused priv => transacted i do return .settings (← setPaused paused priv)
  | .quiesce => transacted i do quiesce; return .unit
  | .stopCapture => transacted i do stopCapture; return .unit
  | .reconcileCapture => transacted i do reconcileCapture; return .unit
  | .refreshCapture => transacted i do refreshCapture; return .unit
  | .setAdmission enabled => (do setAdmission i enabled; return .unit : Act Reply).run

/-! ## The discipline of the operations

Whoever holds the lock is the only one to change the preferences, the verification and the
capture owner's state.  Threads of the owner change the admission flag of the policy under
the lock holder's hands, but not its limits. -/

/-- Verified capture is in the state that was saved. -/
def Agreed (m : SettingsManager) : Prop :=
  m.state.captureVerified = true → m.capture.paused = m.state.value.capturePaused

/-- The invariant.  What it says about limits holds only if capture was not running under
other limits to begin with. -/
structure Valid (bounded : Prop) (m : SettingsManager) : Prop where
  honest : m.state.captureVerified = true → m.state.value.capturePaused = true →
    m.capture.paused = true
  priv : m.state.value.privateMode = true → m.state.value.capturePaused = true
  agreed : m.transaction = none → m.Agreed
  running : m.capture.paused = false → m.capture.active = true
  busy : m.admitting ≠ [] → m.capture.active = true
  admitting : bounded → ∀ entry ∈ m.admitting,
    RetentionLimits.ofPolicy entry.2 = RetentionLimits.ofPolicy m.policy
  limits : bounded → m.capture.active = true → limitsMatch m.policy m.state.value = true

/-- The lock holder finds its part of the state as it left it. -/
structure Unmoved (bounded : Prop) (m t : SettingsManager) : Prop where
  state : t.state = m.state
  capture : t.capture = m.capture
  limits : bounded → RetentionLimits.ofPolicy t.policy = RetentionLimits.ofPolicy m.policy

/-- What thread `i` relies on. -/
structure Undisturbed (bounded : Prop) (i : Nat) (m t : SettingsManager) : Prop where
  held : m.transaction = some i →
    t.transaction = some i ∧ t.stopping = m.stopping ∧ Unmoved bounded m t
  admitting : ∀ policy, (i, policy) ∈ m.admitting → (i, policy) ∈ t.admitting
  stopping : m.stopping = true → t.stopping = true

/-- Once the manager is stopping, capture is only ever paused. -/
structure Progress (m t : SettingsManager) : Prop where
  stopping : m.stopping = true → t.stopping = true
  calls : ∃ later, t.capture.calls = m.capture.calls ++ later ∧
    (m.stopping = true → ∀ call ∈ later, call.paused = true)

theorem Progress.of_calls {m t : SettingsManager} (hstop : m.stopping = true → t.stopping = true)
    (hcalls : t.capture.calls = m.capture.calls) : Progress m t :=
  ⟨hstop, [], by rw [hcalls, List.append_nil], by simp⟩

theorem Unmoved.refl (bounded : Prop) (m : SettingsManager) : Unmoved bounded m m :=
  ⟨rfl, rfl, fun _ => rfl⟩

theorem Unmoved.trans {bounded : Prop} {m t u : SettingsManager} (h : Unmoved bounded m t)
    (h' : Unmoved bounded t u) : Unmoved bounded m u where
  state := h'.state.trans h.state
  capture := h'.capture.trans h.capture
  limits hb := (h'.limits hb).trans (h.limits hb)

/-- What threads keep. -/
def discipline (bounded : Prop) : Discipline SettingsManager where
  valid := Valid bounded
  grows := Progress
  rely := Undisturbed bounded
  fresh _ _ := True
  fresh_rely _ _ := trivial
  grows_refl m := .of_calls id rfl
  grows_trans := by
    intro s t u h h'
    obtain ⟨later, hcalls, hpaused⟩ := h.calls
    obtain ⟨later', hcalls', hpaused'⟩ := h'.calls
    refine ⟨h'.stopping ∘ h.stopping, later ++ later',
      by rw [hcalls', hcalls, List.append_assoc], ?_⟩
    intro hstop call hcall
    rcases List.mem_append.mp hcall with hcall | hcall
    · exact hpaused hstop call hcall
    · exact hpaused' (h.stopping hstop) call hcall
  rely_refl i m := ⟨fun h => ⟨h, rfl, .refl _ _⟩, fun _ h => h, id⟩
  rely_trans := by
    intro i s t u h h'
    refine ⟨fun hs => ?_, fun policy hp => h'.admitting policy (h.admitting policy hp),
      h'.stopping ∘ h.stopping⟩
    obtain ⟨ht, hstop, hunmoved⟩ := h.held hs
    obtain ⟨hu, hstop', hunmoved'⟩ := h'.held ht
    exact ⟨hu, hstop'.trans hstop, hunmoved.trans hunmoved'⟩

/-- Thread `i` holds the lock over the preferences `v`. -/
structure Holding (bounded : Prop) (i : Nat) (v : ClipboardSettings) (stopped : Bool)
    (m : SettingsManager) : Prop where
  valid : Valid bounded m
  lock : m.transaction = some i
  value : m.state.value = v
  stopping : m.stopping = stopped

section Specs

variable {bounded : Prop} {i : Nat} {v : ClipboardSettings} {stopped : Bool} {m : SettingsManager}
  {α : Type}

theorem Holding.of_undisturbed {t : SettingsManager} (h : Holding bounded i v stopped m)
    (hvalid : Valid bounded t) (hrely : Undisturbed bounded i m t) :
    Holding bounded i v stopped t ∧ Unmoved bounded m t := by
  obtain ⟨hlock, hstop, hunmoved⟩ := hrely.held h.lock
  refine ⟨⟨hvalid, hlock, ?_, hstop.trans h.stopping⟩, hunmoved⟩
  rw [hunmoved.state, h.value]

/-- The lock holder may make any valid step. -/
theorem Holding.allows {t : SettingsManager} (h : Holding bounded i v stopped m)
    (hvalid : Valid bounded t) (hadmitting : t.admitting = m.admitting)
    (hgrows : Progress m t) : (discipline bounded).Allows i m t where
  valid := hvalid
  grows := hgrows
  others := by
    intro j hne
    refine ⟨fun hj => ?_, fun policy hp => hadmitting ▸ hp, hgrows.stopping⟩
    exact absurd (Option.some.inj (hj.symm.trans h.lock)) hne

/-- A statement of the lock holder. -/
theorem Holding.keeps_attempt
    {op : Chance → SettingsManager → Option (Except String α × SettingsManager)}
    {Q : Except String α → SettingsManager → Prop} (h : Holding bounded i v stopped m)
    (hop : ∀ t, Holding bounded i v stopped t → Unmoved bounded m t → ∀ chance r u,
      op chance t = some (r, u) → Valid bounded u ∧ u.admitting = t.admitting ∧ Progress t u ∧
        Q r u) : (attempt op).run.Keeps (discipline bounded) i Q m := by
  refine Thread.keeps_attempt ?_
  intro t hvalid hrely chance r u hu
  obtain ⟨hheld, hunmoved⟩ := h.of_undisturbed hvalid hrely
  obtain ⟨hvalid', hadmitting, hgrows, hQ⟩ := hop t hheld hunmoved chance r u hu
  exact ⟨hheld.allows hvalid' hadmitting hgrows, hQ⟩

/-- A statement of the lock holder that only reads. -/
theorem Holding.keeps_read {read : Chance → SettingsManager → Except String α}
    {Q : Except String α → SettingsManager → Prop} (h : Holding bounded i v stopped m)
    (hQ : ∀ t chance, Holding bounded i v stopped t → Unmoved bounded m t → Q (read chance t) t) :
    (attempt fun chance m => some (read chance m, m)).run.Keeps (discipline bounded) i Q m := by
  refine h.keeps_attempt ?_
  intro t ht hunmoved chance r u hu
  cases hu
  exact ⟨ht.valid, rfl, .of_calls id rfl, hQ t chance ht hunmoved⟩

/-! ### Statements of the lock holder -/

theorem recordCapture_keeps {r : Except String Unit}
    {Q : Except String Unit → SettingsManager → Prop}
    (h : Holding bounded i v stopped m)
    (hr : r = .ok () → m.capture.paused = v.capturePaused)
    (hQ : ∀ u, Holding bounded i v stopped u → u.state.captureVerified = r.isOk →
      u.capture = m.capture → Q r u) :
    (recordCapture r).run.Keeps (discipline bounded) i Q m := by
  refine h.keeps_attempt ?_
  intro t ht hunmoved chance r' u hu
  cases hu
  have hpaused : r.isOk = true → t.capture.paused = t.state.value.capturePaused := by
    intro hok
    cases r with
    | ok a => rw [hunmoved.capture, ht.value, hr rfl]
    | error e => cases hok
  have hvalid : Valid bounded { t with
      state := { t.state with
        captureVerified := r.isOk
        captureError := errorOf r } } :=
    { honest := fun hok hp => (hpaused hok).trans hp
      priv := ht.valid.priv
      agreed := fun hnone => by rw [ht.lock] at hnone; cases hnone
      running := ht.valid.running
      busy := ht.valid.busy
      admitting := ht.valid.admitting
      limits := ht.valid.limits }
  exact ⟨hvalid, rfl, Progress.of_calls id rfl,
    hQ _ ⟨hvalid, ht.lock, ht.value, ht.stopping⟩ rfl hunmoved.capture⟩

theorem preferences_keeps {Q : Except String ClipboardSettings → SettingsManager → Prop}
    (h : Holding bounded i v stopped m)
    (hQ : ∀ r u, Holding bounded i v stopped u → Unmoved bounded m u →
      (∀ value, r = .ok value → value = v ∧ stopped = false) → Q r u) :
    preferences.run.Keeps (discipline bounded) i Q m := by
  refine h.keeps_read ?_
  intro t _ ht hunmoved
  refine hQ _ t ht hunmoved ?_
  intro value hvalue
  cases hstop : t.stopping with
  | true => rw [validatedState, hstop] at hvalue; cases hvalue
  | false =>
      rw [validatedState, hstop] at hvalue
      cases herror : t.state.loadError with
      | some error => rw [herror] at hvalue; cases hvalue
      | none =>
          rw [herror] at hvalue
          cases hvalue
          exact ⟨ht.value, ht.stopping.symm.trans hstop⟩

theorem commit_keeps {value : ClipboardSettings}
    {Q : Except String ClipboardSettings → SettingsManager → Prop}
    (h : Holding bounded i v stopped m)
    (hpriv : value.privateMode = true → value.capturePaused = true)
    (hlimits : storePolicy value = storePolicy v ∨ m.capture.active = false)
    (hQ : ∀ u, Holding bounded i value stopped u → (m.Agreed → u.Agreed) → Q (.ok value) u) :
    (commit value).run.Keeps (discipline bounded) i Q m := by
  refine h.keeps_attempt ?_
  intro t ht hunmoved chance r u hu
  have hsame : u.state.captureVerified = true →
      t.state.captureVerified = true ∧ t.state.value.capturePaused = value.capturePaused := by
    cases hu
    intro hverified
    simp only [Bool.and_eq_true, Bool.not_eq_true', Bool.or_eq_false_iff, decide_eq_false_iff_not,
      ne_eq, not_not] at hverified
    exact ⟨hverified.1, hverified.2.1⟩
  have hagreed : t.Agreed → u.Agreed := by
    intro hagreed hverified
    obtain ⟨ht', hpaused⟩ := hsame hverified
    cases hu
    exact (hagreed ht').trans hpaused
  have hvalid : Valid bounded u := by
    cases hu
    refine ⟨fun hverified hp => ?_, hpriv, fun hnone => ?_, ht.valid.running, ht.valid.busy,
      ht.valid.admitting, fun hb hactive => ?_⟩
    · obtain ⟨ht', hpaused⟩ := hsame hverified
      exact ht.valid.honest ht' (hpaused.trans hp)
    · have hlock := ht.lock
      rw [show t.transaction = none from hnone] at hlock
      cases hlock
    · rcases hlimits with heq | hinactive
      · have hmatch := limitsMatch_iff.mp (ht.valid.limits hb hactive)
        rw [ht.value, ← heq] at hmatch
        exact limitsMatch_iff.mpr hmatch
      · rw [← hunmoved.capture] at hinactive
        exact absurd hactive (by rw [hinactive]; exact Bool.false_ne_true)
  have hagreed' : m.Agreed → u.Agreed := by
    intro hm
    refine hagreed ?_
    rw [Agreed, hunmoved.state, hunmoved.capture]
    exact hm
  cases hu
  exact ⟨hvalid, rfl, Progress.of_calls id rfl,
    hQ _ ⟨hvalid, ht.lock, rfl, ht.stopping⟩ hagreed'⟩

theorem readPolicy_keeps {Q : Except String StorePolicy → SettingsManager → Prop}
    (h : Holding bounded i v stopped m)
    (hQ : ∀ r u, Holding bounded i v stopped u → Unmoved bounded m u →
      (∀ policy, r = .ok policy → policy = u.policy) → Q r u) :
    readPolicy.run.Keeps (discipline bounded) i Q m := by
  refine h.keeps_read ?_
  intro t chance ht hunmoved
  refine hQ _ t ht hunmoved ?_
  intro policy hpolicy
  cases hfails : chance.fails with
  | some error => rw [hfails] at hpolicy; cases hpolicy
  | none =>
      rw [hfails] at hpolicy
      cases hattached : t.attached with
      | true => rw [hattached] at hpolicy; cases hpolicy; rfl
      | false => rw [hattached] at hpolicy; cases hpolicy

/-- While capture is active, a policy is replaced by one with the same limits. -/
theorem applyPolicy_keeps {policy : StorePolicy} {Q : Except String Unit → SettingsManager → Prop}
    (h : Holding bounded i v stopped m)
    (hpolicy : bounded → m.capture.active = true →
      RetentionLimits.ofPolicy policy = RetentionLimits.ofPolicy m.policy)
    (hQ : ∀ r u, Holding bounded i v stopped u → u.state = m.state → u.capture = m.capture →
      Q r u) :
    (applyPolicy policy).run.Keeps (discipline bounded) i Q m := by
  refine h.keeps_attempt ?_
  intro t ht hunmoved chance r u hu
  have hvalid : Valid bounded { t with policy } := by
    have hsame : bounded → t.capture.active = true →
        RetentionLimits.ofPolicy policy = RetentionLimits.ofPolicy t.policy := by
      intro hb hactive
      rw [hunmoved.capture] at hactive
      rw [hpolicy hb hactive, hunmoved.limits hb]
    refine ⟨ht.valid.honest, ht.valid.priv, ht.valid.agreed, ht.valid.running, ht.valid.busy,
      fun hb entry hentry => ?_, fun hb hactive => ?_⟩
    · have hactive : t.capture.active = true := ht.valid.busy (List.ne_nil_of_mem hentry)
      exact (ht.valid.admitting hb entry hentry).trans (hsame hb hactive).symm
    · exact limitsMatch_iff.mpr
        ((hsame hb hactive).trans (limitsMatch_iff.mp (ht.valid.limits hb hactive)))
  have hresult : u = t ∨ u = { t with policy } := by
    cases hfails : chance.fails with
    | some error =>
        rw [hfails] at hu
        cases htook : chance.took with
        | true => rw [htook] at hu; cases hu; exact .inr rfl
        | false => rw [htook] at hu; cases hu; exact .inl rfl
    | none =>
        rw [hfails] at hu
        cases hattached : t.attached with
        | true => simp [hattached] at hu; exact .inr hu.2.symm
        | false => simp [hattached] at hu; exact .inl hu.2.symm
  rcases hresult with rfl | rfl
  · exact ⟨ht.valid, rfl, Progress.of_calls id rfl,
      hQ r _ ht hunmoved.state hunmoved.capture⟩
  · exact ⟨hvalid, rfl, Progress.of_calls id rfl,
      hQ r _ ⟨hvalid, ht.lock, ht.value, ht.stopping⟩ hunmoved.state hunmoved.capture⟩

/-- The call starts.  A resumption clears the verification before, and comes after the
limits were compared. -/
theorem setPausedBegin_keeps {paused : Bool} {maxBytes : Nat}
    {Q : Except String Bool → SettingsManager → Prop} (h : Holding bounded i v stopped m)
    (hresume : paused = false → stopped = false ∧ m.state.captureVerified = false ∧
      (bounded → limitsMatch m.policy v = true))
    (hQ : ∀ old u, Holding bounded i v stopped u → u.state = m.state →
      (u.state.captureVerified = true → v.capturePaused = true → old = true) →
      (old = false → u.capture.active = true) → (paused = false → u.capture.active = true) →
      Q (.ok old) u) :
    (setPausedBegin paused maxBytes).run.Keeps (discipline bounded) i Q m := by
  refine h.keeps_attempt ?_
  intro t ht hunmoved chance r u hu
  cases hu
  have hvalid : Valid bounded { t with
      capture :=
        { paused := if chance.took then paused else t.capture.paused
          active := t.capture.active || !paused
          calls := t.capture.calls ++ [⟨paused, maxBytes⟩] } } := by
    refine ⟨fun hverified hp => ?_, ht.valid.priv, fun hnone => ?_, fun hrun => ?_, fun hbusy => ?_,
      ht.valid.admitting, fun hb hactive => ?_⟩
    · cases paused with
      | true => simp [ht.valid.honest hverified hp]
      | false =>
          have hunverified := (hresume rfl).2.1
          rw [← hunmoved.state] at hunverified
          rw [show t.state.captureVerified = true from hverified] at hunverified
          cases hunverified
    · have hlock := ht.lock
      rw [show t.transaction = none from hnone] at hlock
      cases hlock
    · cases paused with
      | true =>
          cases htook : chance.took with
          | true => simp [htook] at hrun
          | false =>
              simp only [htook, Bool.false_eq_true, if_false] at hrun
              simp [ht.valid.running hrun]
      | false => simp
    · simp [ht.valid.busy hbusy]
    · cases paused with
      | true =>
          simp only [Bool.not_true, Bool.or_false] at hactive
          exact ht.valid.limits hb hactive
      | false =>
          have hmatch := limitsMatch_iff.mp ((hresume rfl).2.2 hb)
          rw [← hunmoved.limits hb, ← ht.value] at hmatch
          exact limitsMatch_iff.mpr hmatch
  have hgrows : Progress t { t with
      capture :=
        { paused := if chance.took then paused else t.capture.paused
          active := t.capture.active || !paused
          calls := t.capture.calls ++ [⟨paused, maxBytes⟩] } } := by
    refine ⟨id, [⟨paused, maxBytes⟩], rfl, ?_⟩
    intro hstop call hcall
    rw [List.mem_singleton.mp hcall]
    cases paused with
    | true => rfl
    | false =>
        have hopen := (hresume rfl).1
        rw [← ht.stopping, hstop] at hopen
        cases hopen
  refine ⟨hvalid, rfl, hgrows,
    hQ _ _ ⟨hvalid, ht.lock, ht.value, ht.stopping⟩ hunmoved.state ?_ ?_ ?_⟩
  · intro hverified hp
    exact ht.valid.honest hverified (by rw [ht.value]; exact hp)
  · intro hold
    simp [ht.valid.running hold]
  · intro hp
    simp [hp]

theorem setPausedEnd_keeps {paused old : Bool} {Q : Except String Unit → SettingsManager → Prop}
    (h : Holding bounded i v stopped m)
    (hold : m.state.captureVerified = true → v.capturePaused = true → old = true)
    (holdActive : old = false → m.capture.active = true)
    (hresume : paused = false → m.state.captureVerified = false ∧ m.capture.active = true)
    (hQ : ∀ r u, Holding bounded i v stopped u → u.state = m.state →
      (r = .ok () → u.capture.paused = paused ∧ u.capture.active = !paused) → Q r u) :
    (setPausedEnd paused old).run.Keeps (discipline bounded) i Q m := by
  refine h.keeps_attempt ?_
  intro t ht hunmoved chance r u hu
  have hlock : ¬ t.transaction = none := by rw [ht.lock]; simp
  have hhonest : t.state.captureVerified = true → t.state.value.capturePaused = true →
      old = true ∧ paused = true := by
    rw [hunmoved.state, h.value]
    intro hverified hp
    refine ⟨hold hverified hp, ?_⟩
    cases paused with
    | true => rfl
    | false => rw [(hresume rfl).1] at hverified; cases hverified
  cases hfails : chance.fails with
  | some error =>
      simp only [hfails, Option.some.injEq, Prod.mk.injEq] at hu
      obtain ⟨rfl, rfl⟩ := hu
      have hvalid : Valid bounded { t with
          capture := { t.capture with paused := if chance.took then paused else old } } := by
        refine ⟨fun hverified hp => ?_, ht.valid.priv, fun hnone => absurd hnone hlock,
          fun hrun => ?_, ht.valid.busy, ht.valid.admitting, ht.valid.limits⟩
        · simp [hhonest hverified hp]
        · show t.capture.active = true
          rw [hunmoved.capture]
          cases htook : chance.took with
          | true => exact (hresume (by simpa [htook] using hrun)).2
          | false => exact holdActive (by simpa [htook] using hrun)
      exact ⟨hvalid, rfl, .of_calls id rfl,
        hQ _ _ ⟨hvalid, ht.lock, ht.value, ht.stopping⟩ hunmoved.state (by intro h; cases h)⟩
  | none =>
      simp only [hfails, Option.ite_none_left_eq_some, Bool.and_eq_true, Bool.not_eq_true',
        not_and, Bool.not_eq_false, List.isEmpty_iff, Option.some.injEq, Prod.mk.injEq] at hu
      obtain ⟨hidle, rfl, rfl⟩ := hu
      have hvalid : Valid bounded { t with
          capture := { t.capture with paused, active := !paused } } := by
        refine ⟨fun hverified hp => (hhonest hverified hp).2, ht.valid.priv,
          fun hnone => absurd hnone hlock, fun hrun => ?_, fun hbusy => ?_, ht.valid.admitting,
          fun hb hactive => ?_⟩
        · simp [show paused = false from hrun]
        · cases paused with
          | true => exact absurd (hidle rfl) hbusy
          | false => rfl
        · cases paused with
          | true => cases hactive
          | false =>
              refine ht.valid.limits hb ?_
              rw [hunmoved.capture]
              exact (hresume rfl).2
      exact ⟨hvalid, rfl, .of_calls id rfl,
        hQ _ _ ⟨hvalid, ht.lock, ht.value, ht.stopping⟩ hunmoved.state fun _ => ⟨rfl, rfl⟩⟩

/-! ### Parts of the operations -/

theorem captureSetPaused_keeps {paused : Bool} {maxBytes : Nat}
    {Q : Except String Unit → SettingsManager → Prop} (h : Holding bounded i v stopped m)
    (hresume : paused = false → stopped = false ∧ m.state.captureVerified = false ∧
      (bounded → limitsMatch m.policy v = true))
    (hQ : ∀ r u, Holding bounded i v stopped u → u.state = m.state →
      (r = .ok () → u.capture.paused = paused ∧ u.capture.active = !paused) → Q r u) :
    (captureSetPaused paused maxBytes).run.Keeps (discipline bounded) i Q m := by
  refine Thread.keeps_run_bind (setPausedBegin_keeps h hresume ?_)
  intro old t ht hstate hold holdActive hactive
  refine setPausedEnd_keeps ht hold holdActive (fun hp => ⟨?_, hactive hp⟩) ?_
  · rw [hstate]
    exact (hresume hp).2.1
  · intro r u hu hstate' hr
    exact hQ r u hu (hstate'.trans hstate) hr

theorem closeAdmission_keeps {Q : Except String Unit → SettingsManager → Prop}
    (h : Holding bounded i v stopped m)
    (hQ : ∀ r u, Holding bounded i v stopped u → u.state = m.state → u.capture = m.capture →
      Q r u) :
    closeAdmission.run.Keeps (discipline bounded) i Q m := by
  refine Thread.keeps_run_bind (h.keeps_read ?_)
  intro t _ ht hmt
  cases t.attached with
  | false => exact Thread.keeps_run_pure (hQ _ t ht hmt.state hmt.capture)
  | true =>
      refine Thread.keeps_run_bind (readPolicy_keeps ht ?_)
      intro r u hu htu hpolicy
      cases r with
      | error e => exact hQ _ u hu (hmt.trans htu).state (hmt.trans htu).capture
      | ok policy =>
          refine applyPolicy_keeps hu (fun _ _ => ?_) fun r w hw hstate hcapture => ?_
          · rw [hpolicy policy rfl]
            rfl
          · exact hQ r w hw (hstate.trans (hmt.trans htu).state)
              (hcapture.trans (hmt.trans htu).capture)

/-- A quiesced manager claims nothing, and a successful one has stopped the owner. -/
theorem quiesceLocked_keeps {Q : Except String Unit → SettingsManager → Prop}
    (h : Holding bounded i v stopped m)
    (hQ : ∀ r u, Holding bounded i v stopped u → u.state.captureVerified = false →
      (r = .ok () → u.capture.paused = true ∧ u.capture.active = false) → Q r u) :
    quiesceLocked.run.Keeps (discipline bounded) i Q m := by
  refine Thread.keeps_run_bind
    (Thread.keeps_outcome (recordCapture_keeps h (by intro h; cases h) ?_))
  intro t ht hverified _
  refine Thread.keeps_run_bind (captureSetPaused_keeps ht (by intro h; cases h) ?_)
  intro r u hu hstate hr
  have hunverified : u.state.captureVerified = false := by rw [hstate]; exact hverified
  cases r with
  | error e => exact hQ _ u hu hunverified (by intro h; cases h)
  | ok a =>
      refine closeAdmission_keeps hu ?_
      intro r w hw hstate' hcapture
      refine hQ r w hw (by rw [hstate', hunverified]) fun _ => ?_
      rw [hcapture]
      exact hr rfl

theorem retentionMatches_keeps {desired : ClipboardSettings}
    {Q : Except String Bool → SettingsManager → Prop} (h : Holding bounded i v stopped m)
    (hQ : ∀ b u, Holding bounded i v stopped u → Unmoved bounded m u →
      (b = true → limitsMatch u.policy desired = true) → Q (.ok b) u) :
    (retentionMatches desired).run.Keeps (discipline bounded) i Q m := by
  refine Thread.keeps_run_bind (Thread.keeps_outcome (readPolicy_keeps h ?_))
  intro r u hu hmu hpolicy
  cases r with
  | error e => exact hQ false u hu hmu (by intro h; cases h)
  | ok policy =>
      refine hQ _ u hu hmu fun hmatch => ?_
      rw [← hpolicy policy rfl]
      exact hmatch

theorem verifyCapture_keeps {desired : Bool} {Q : Except String Unit → SettingsManager → Prop}
    (h : Holding bounded i v stopped m)
    (hQ : ∀ r u, Holding bounded i v stopped u → Unmoved bounded m u →
      (r = .ok () → u.capture.paused = desired) → Q r u) :
    (verifyCapture desired).run.Keeps (discipline bounded) i Q m := by
  refine Thread.keeps_run_bind (h.keeps_read ?_)
  intro t chance ht hmt
  cases hfails : chance.fails with
  | some error => exact hQ _ t ht hmt (by intro h; cases h)
  | none =>
      rcases eq_or_ne t.capture.paused desired with heq | hne
      · simp only [heq, if_true]
        exact Thread.keeps_run_pure (hQ _ t ht hmt fun _ => heq)
      · simp only [hne, if_false]
        exact Thread.keeps_run_throw (hQ _ t ht hmt (by intro h; cases h))

theorem unsynchronized_keeps {Q : Except String Bool → SettingsManager → Prop}
    (h : Holding bounded i v stopped m)
    (hQ : ∀ b u, Holding bounded i v stopped u → Unmoved bounded m u →
      (b = false → v.capturePaused = true ∨ limitsMatch u.policy v = true) → Q (.ok b) u) :
    (unsynchronized v).run.Keeps (discipline bounded) i Q m := by
  rw [unsynchronized]
  cases hp : v.capturePaused with
  | true => exact Thread.keeps_run_pure (hQ _ m h (.refl _ _) fun _ => .inl hp)
  | false =>
      refine Thread.keeps_run_bind (retentionMatches_keeps h ?_)
      intro b u hu hmu hmatch
      refine Thread.keeps_run_pure (hQ _ u hu hmu fun hb => .inr (hmatch ?_))
      simpa using hb

theorem switchCapture_keeps {Q : Except String Unit → SettingsManager → Prop}
    (h : Holding bounded i v false m) (hverified : m.state.captureVerified = false)
    (hQ : ∀ r u, Holding bounded i v false u →
      (r = .ok () → u.capture.paused = v.capturePaused) → Q r u) :
    (switchCapture v).run.Keeps (discipline bounded) i Q m := by
  refine Thread.keeps_run_bind (unsynchronized_keeps h ?_)
  intro b t ht hmt hlimits
  cases b with
  | true =>
      refine Thread.keeps_run_bind (Thread.keeps_run_bind (quiesceLocked_keeps ht ?_))
      intro r u hu _ _
      cases r with
      | error e => exact hQ _ u hu (by intro h; cases h)
      | ok a => exact hQ _ u hu (by intro h; cases h)
  | false =>
      refine Thread.keeps_run_bind (captureSetPaused_keeps ht (fun hp => ⟨rfl, ?_, fun _ => ?_⟩) ?_)
      · rw [hmt.state, hverified]
      · rcases hlimits rfl with hpaused | hmatch
        · rw [hp] at hpaused
          cases hpaused
        · exact hmatch
      · intro r u hu hstate hr
        cases r with
        | error e => exact hQ _ u hu (by intro h; cases h)
        | ok a =>
            have hverify : ∀ w, Holding bounded i v false w → w.capture = u.capture →
                (verifyCapture v.capturePaused).run.Keeps (discipline bounded) i Q w := by
              intro w hw hcapture
              refine verifyCapture_keeps hw ?_
              intro r x hx hwx hr'
              exact hQ r x hx hr'
            cases hp : v.capturePaused with
            | true =>
                rw [hp] at hverify
                refine Thread.keeps_run_bind (closeAdmission_keeps hu ?_)
                intro r w hw _ hcapture
                cases r with
                | error e => exact hQ _ w hw (by intro h; cases h)
                | ok a => exact hverify w hw hcapture
            | false =>
                rw [hp] at hverify
                exact hverify u hu rfl

/-- Whatever fails in between, the transition ends with a true record. -/
theorem applyCapture_keeps {Q : Except String Unit → SettingsManager → Prop}
    (h : Holding bounded i v false m)
    (hQ : ∀ r u, Holding bounded i v false u → u.Agreed → Q r u) :
    (applyCapture v).run.Keeps (discipline bounded) i Q m := by
  refine Thread.keeps_run_bind
    (Thread.keeps_outcome (recordCapture_keeps h (by intro h; cases h) ?_))
  intro t ht hverified _
  refine Thread.keeps_run_bind (Thread.keeps_outcome (switchCapture_keeps ht hverified ?_))
  intro r u hu hr
  refine recordCapture_keeps hu hr ?_
  intro w hw hverified' hcapture
  refine hQ r w hw fun hok => ?_
  rw [hverified'] at hok
  cases r with
  | error e => cases hok
  | ok a => rw [hcapture, hw.value, hr rfl]

theorem applyRetention_keeps {Q : Except String Unit → SettingsManager → Prop}
    (h : Holding bounded i v stopped m) (hagreed : m.Agreed)
    (hQ : ∀ r u, Holding bounded i v stopped u → u.Agreed → Q r u) :
    (applyRetention v).run.Keeps (discipline bounded) i Q m := by
  refine Thread.keeps_run_bind (retentionMatches_keeps h ?_)
  intro b t ht hmt _
  cases b with
  | true =>
      refine Thread.keeps_run_pure (hQ _ t ht ?_)
      rw [Agreed, hmt.state, hmt.capture]
      exact hagreed
  | false =>
      refine Thread.keeps_run_bind (Thread.keeps_run_bind (quiesceLocked_keeps ht ?_))
      intro r u hu hverified hr
      have hclaims : u.Agreed := by
        intro hok
        rw [hverified] at hok
        cases hok
      cases r with
      | error e => exact hQ _ u hu hclaims
      | ok a =>
          refine applyPolicy_keeps hu (fun _ hactive => ?_) ?_
          · rw [(hr rfl).2] at hactive
            cases hactive
          · intro r w hw hstate hcapture
            refine hQ r w hw ?_
            rw [Agreed, hstate, hcapture]
            exact hclaims

theorem afterSaving_keeps {act : Act Unit} {Q : Except String Unit → SettingsManager → Prop}
    (h : act.run.Keeps (discipline bounded) i
      (fun r u => match r with
        | .ok () => Q (.ok ()) u
        | .error error => Q (.error (SETTINGS_SAVED ++ ", but " ++ error)) u) m) :
    (afterSaving act).run.Keeps (discipline bounded) i Q m := by
  refine Thread.keeps_run_bind (Thread.keeps_outcome (h.weaken ?_))
  intro r u hr
  cases r with
  | ok a => exact Thread.keeps_run_pure hr
  | error e => exact Thread.keeps_run_throw hr

/-! ### The operations -/

/-- An operation ends with the lock in its hands and a true record. -/
structure Finished (bounded : Prop) (i : Nat) (stops : Prop) (m : SettingsManager) : Prop where
  valid : Valid bounded m
  lock : m.transaction = some i
  agreed : m.Agreed
  stopping : stops → m.stopping = true

theorem Holding.finished {stops : Prop} (h : Holding bounded i v stopped m) (hagreed : m.Agreed)
    (hstop : stops → stopped = true) : Finished bounded i stops m :=
  ⟨h.valid, h.lock, hagreed, fun hs => h.stopping.trans (hstop hs)⟩

theorem agreed_of_unverified (h : m.state.captureVerified = false) : m.Agreed := by
  intro hverified
  rw [h] at hverified
  cases hverified

theorem Unmoved.agreed {t : SettingsManager} (h : Unmoved bounded m t) (hm : m.Agreed) :
    t.Agreed := by
  rw [Agreed, h.state, h.capture]
  exact hm

/-- The lock is taken in an agreed state and given back in one. -/
theorem transacted_keeps {act : Act α} {stops : Prop}
    (hact : ∀ t v stopped, Holding bounded i v stopped t → t.Agreed →
      act.run.Keeps (discipline bounded) i (fun _ u => Finished bounded i stops u) t) :
    (transacted i act).Keeps (discipline bounded) i (fun _ u => stops → u.stopping = true) m := by
  refine Thread.keeps_bind (Thread.keeps_atomic ?_)
  intro t hvalid hrely chance _ u hu
  rcases Option.ite_none_right_eq_some.mp hu with ⟨hfree, heq⟩
  cases heq
  have hheld : Holding bounded i t.state.value t.stopping { t with transaction := some i } :=
    ⟨⟨hvalid.honest, hvalid.priv, (by intro h; cases h), hvalid.running, hvalid.busy,
      hvalid.admitting, hvalid.limits⟩, rfl, rfl, rfl⟩
  have hallows : (discipline bounded).Allows i t { t with transaction := some i } := by
    refine ⟨hheld.valid, .of_calls id rfl, fun j _ => ⟨fun hj => ?_, fun _ h => h, id⟩⟩
    rw [hfree] at hj
    cases hj
  refine ⟨hallows, Thread.keeps_bind ((hact _ _ _ hheld (hvalid.agreed hfree)).weaken ?_)⟩
  intro r u hfinished
  refine Thread.keeps_bind (Thread.keeps_modify ?_)
  intro w hvalid' hrely'
  obtain ⟨hlock, hstop, hunmoved⟩ := hrely'.held hfinished.lock
  have hfree' : Valid bounded { w with transaction := none } :=
    ⟨hvalid'.honest, hvalid'.priv, fun _ => hunmoved.agreed hfinished.agreed, hvalid'.running,
      hvalid'.busy, hvalid'.admitting, hvalid'.limits⟩
  refine ⟨⟨hfree', .of_calls id rfl, fun j hne => ⟨fun hj => ?_, fun _ h => h, id⟩⟩, ?_⟩
  · exact absurd (Option.some.inj (hj.symm.trans hlock)) hne
  · exact Thread.keeps_pure fun hs => hstop.trans (hfinished.stopping hs)

theorem getSettings_keeps {Q : Except String ClipboardSettings → SettingsManager → Prop}
    (h : Holding bounded i v stopped m)
    (hQ : ∀ r u, Holding bounded i v stopped u → Unmoved bounded m u → Q r u) :
    getSettings.run.Keeps (discipline bounded) i Q m :=
  h.keeps_read fun t _ ht hmt => hQ _ t ht hmt

theorem save_keeps {value : ClipboardSettings}
    {Q : Except String ClipboardSettings → SettingsManager → Prop}
    (h : Holding bounded i v stopped m)
    (hpriv : value.privateMode = true → value.capturePaused = true)
    (hlimits : storePolicy value = storePolicy v ∨ m.capture.active = false)
    (hQ : ∀ u, Holding bounded i value stopped u → (m.Agreed → u.Agreed) → Q (.ok value) u)
    (hfail : ∀ e u, Holding bounded i v stopped u → Unmoved bounded m u → Q (.error e) u) :
    (save value).run.Keeps (discipline bounded) i Q m := by
  refine Thread.keeps_run_bind (h.keeps_read ?_)
  intro t chance ht hmt
  cases chance.fails with
  | some error => exact hfail error t ht hmt
  | none =>
      refine commit_keeps ht hpriv (hlimits.imp_right fun hinactive => ?_) fun u hu hagreed => ?_
      · rw [hmt.capture, hinactive]
      · exact hQ u hu fun hm => hagreed (hmt.agreed hm)

/-- The part of `update` after the saving. -/
theorem afterUpdate_keeps (h : Holding bounded i v false m) (hagreed : m.Agreed) :
    (do
      afterSaving (applyRetention v)
      afterSaving (applyCapture v)
      getSettings : Act ClipboardSettings).run.Keeps (discipline bounded) i
        (fun _ u => Finished bounded i False u) m := by
  refine Thread.keeps_run_bind (afterSaving_keeps (applyRetention_keeps h hagreed ?_))
  intro r t ht hclaims
  cases r with
  | error e => exact ht.finished hclaims False.elim
  | ok a =>
      refine Thread.keeps_run_bind (afterSaving_keeps (applyCapture_keeps ht ?_))
      intro r u hu hclaims'
      cases r with
      | error e => exact hu.finished hclaims' False.elim
      | ok a =>
          refine getSettings_keeps hu fun r w hw huw => ?_
          exact hw.finished (huw.agreed hclaims') False.elim

/-- Preferences with other limits are saved only once capture is stopped. -/
theorem update_keeps {change : SettingsUpdate} (h : Holding bounded i v stopped m)
    (hagreed : m.Agreed) :
    (update change).run.Keeps (discipline bounded) i (fun _ u => Finished bounded i False u) m := by
  refine Thread.keeps_run_bind (preferences_keeps h ?_)
  intro r t ht hmt hvalue
  cases r with
  | error e => exact ht.finished (hmt.agreed hagreed) False.elim
  | ok current =>
      obtain ⟨rfl, rfl⟩ := hvalue current rfl
      refine Thread.keeps_run_bind (Thread.keeps_result ?_)
      cases hupdated : change.apply current with
      | error e => exact ht.finished (hmt.agreed hagreed) False.elim
      | ok updated =>
          obtain ⟨hpaused, hmode⟩ := SettingsUpdate.apply_capture hupdated
          have hpriv : updated.privateMode = true → updated.capturePaused = true := by
            rw [hpaused, hmode, ← ht.value]
            exact ht.valid.priv
          have hsave : ∀ u, Holding bounded i current false u → u.Agreed →
              (storePolicy updated = storePolicy current ∨ u.capture.active = false) →
              (do
                let updated ← if updated ≠ current then save updated else pure updated
                afterSaving (applyRetention updated)
                afterSaving (applyCapture updated)
                getSettings : Act ClipboardSettings).run.Keeps (discipline bounded) i
                  (fun _ u => Finished bounded i False u) u := by
            intro u hu hclaims hlimits
            rcases eq_or_ne updated current with heq | hne
            · rw [if_neg (by simpa using heq), heq]
              exact Thread.keeps_run_bind (Thread.keeps_run_pure (afterUpdate_keeps hu hclaims))
            · rw [if_pos hne]
              refine Thread.keeps_run_bind (save_keeps hu hpriv hlimits ?_ ?_)
              · exact fun w hw hclaims' => afterUpdate_keeps hw (hclaims' hclaims)
              · exact fun e w hw huw => hw.finished (huw.agreed hclaims) False.elim
          cases hchanged : retentionChanged current updated with
          | false =>
              simp only [hchanged, Bool.false_eq_true, if_false]
              refine hsave t ht (hmt.agreed hagreed) (.inl (retentionChanged_false hchanged))
          | true =>
              simp only [hchanged, if_true]
              refine Thread.keeps_run_bind (quiesceLocked_keeps ht ?_)
              intro r u hu hverified hstopped
              have hclaims := agreed_of_unverified hverified
              cases r with
              | error e => exact hu.finished hclaims False.elim
              | ok a => exact hsave u hu hclaims (.inr (hstopped rfl).2)

theorem initializeRetention_keeps (h : Holding bounded i v stopped m) (hagreed : m.Agreed) :
    initializeRetention.run.Keeps (discipline bounded) i
      (fun _ u => Finished bounded i False u) m := by
  refine Thread.keeps_run_bind (preferences_keeps h ?_)
  intro r t ht hmt hvalue
  cases r with
  | error e => exact ht.finished (hmt.agreed hagreed) False.elim
  | ok value =>
      obtain ⟨rfl, rfl⟩ := hvalue value rfl
      refine applyPolicy_keeps ht (fun hb hactive => ?_) fun r u hu hstate hcapture => ?_
      · have hmatch := limitsMatch_iff.mp (ht.valid.limits hb hactive)
        rw [ht.value] at hmatch
        exact hmatch.symm
      · refine hu.finished ?_ False.elim
        rw [Agreed, hstate, hcapture]
        exact hmt.agreed hagreed

/-- Also a preference that could not be saved stops capture, and then claims nothing. -/
theorem setPaused_keeps {paused priv : Bool} (h : Holding bounded i v stopped m)
    (hagreed : m.Agreed) :
    (setPaused paused priv).run.Keeps (discipline bounded) i
      (fun _ u => Finished bounded i False u) m := by
  refine Thread.keeps_run_bind (preferences_keeps h ?_)
  intro r t ht hmt hvalue
  cases r with
  | error e => exact ht.finished (hmt.agreed hagreed) False.elim
  | ok value =>
      obtain ⟨rfl, rfl⟩ := hvalue value rfl
      refine Thread.keeps_run_bind (Thread.keeps_outcome (save_keeps ht ?_ (.inl rfl) ?_ ?_))
      · intro hmode
        exact (Bool.and_eq_true_iff.mp hmode).1
      · intro u hu _
        refine Thread.keeps_run_bind (applyCapture_keeps hu ?_)
        intro r w hw hclaims
        cases r with
        | error e => exact hw.finished hclaims False.elim
        | ok a =>
            exact getSettings_keeps hw fun r x hx hwx => hx.finished (hwx.agreed hclaims) False.elim
      · intro e u hu htu
        cases paused with
        | false => exact hu.finished ((hmt.trans htu).agreed hagreed) False.elim
        | true =>
            refine Thread.keeps_run_bind (Thread.keeps_outcome (captureSetPaused_keeps hu ?_ ?_))
            · intro h
              cases h
            · intro r w hw _ _
              refine Thread.keeps_run_bind (Thread.keeps_outcome (closeAdmission_keeps hw ?_))
              intro r x hx _ _
              refine Thread.keeps_run_bind
                (Thread.keeps_outcome (recordCapture_keeps hx (by intro h; cases h) ?_))
              intro y hy hverified _
              exact hy.finished (agreed_of_unverified hverified) False.elim

theorem reconcileCapture_keeps {stops : Prop} (h : Holding bounded i v stopped m)
    (hagreed : m.Agreed) (hstop : stops → stopped = true) :
    reconcileCapture.run.Keeps (discipline bounded) i
      (fun _ u => Finished bounded i stops u) m := by
  refine Thread.keeps_run_bind (preferences_keeps h ?_)
  intro r t ht hmt hvalue
  cases r with
  | error e => exact ht.finished (hmt.agreed hagreed) hstop
  | ok value =>
      obtain ⟨rfl, rfl⟩ := hvalue value rfl
      exact applyCapture_keeps ht fun r u hu hclaims => hu.finished hclaims hstop

/-- A guard is resumed or dropped while it still holds the lock. -/
theorem quiesce_keeps (h : Holding bounded i v stopped m) :
    quiesce.run.Keeps (discipline bounded) i (fun _ u => Finished bounded i False u) m := by
  refine Thread.keeps_run_bind (quiesceLocked_keeps h ?_)
  intro r t ht hverified _
  cases r with
  | error e => exact ht.finished (agreed_of_unverified hverified) False.elim
  | ok a =>
      refine Thread.keeps_run_bind (ht.keeps_read ?_)
      intro u chance hu htu
      have hclaims := htu.agreed (agreed_of_unverified hverified)
      cases chance.took with
      | true => exact reconcileCapture_keeps hu hclaims False.elim
      | false => exact Thread.keeps_run_pure (hu.finished hclaims False.elim)

theorem stopCapture_keeps (h : Holding bounded i v stopped m) :
    stopCapture.run.Keeps (discipline bounded) i (fun _ u => Finished bounded i True u) m := by
  refine Thread.keeps_run_bind (h.keeps_attempt ?_)
  intro t ht hmt chance r u hu
  cases hu
  have hvalid : Valid bounded { t with stopping := true } :=
    ⟨ht.valid.honest, ht.valid.priv, ht.valid.agreed, ht.valid.running, ht.valid.busy,
      ht.valid.admitting, ht.valid.limits⟩
  have hstopped : Holding bounded i v true { t with stopping := true } :=
    ⟨hvalid, ht.lock, ht.value, rfl⟩
  refine ⟨hvalid, rfl, .of_calls (fun _ => rfl) rfl, quiesceLocked_keeps hstopped ?_⟩
  intro r u hu hverified _
  exact hu.finished (agreed_of_unverified hverified) fun _ => rfl

theorem refreshCapture_keeps (h : Holding bounded i v stopped m) (hagreed : m.Agreed) :
    refreshCapture.run.Keeps (discipline bounded) i (fun _ u => Finished bounded i False u) m := by
  refine Thread.keeps_run_bind (preferences_keeps h ?_)
  intro r t ht hmt hvalue
  cases r with
  | error e => exact ht.finished (hmt.agreed hagreed) False.elim
  | ok value =>
      obtain ⟨rfl, rfl⟩ := hvalue value rfl
      refine Thread.keeps_run_bind (Thread.keeps_outcome (verifyCapture_keeps ht ?_))
      intro r u hu htu hr
      refine recordCapture_keeps hu hr ?_
      intro w hw hverified hcapture
      refine hw.finished (fun hok => ?_) False.elim
      rw [hverified] at hok
      cases r with
      | error e => cases hok
      | ok a => rw [hcapture, hw.value, hr rfl]

/-- A thread of the capture owner keeps the limits it has read. -/
theorem setAdmission_keeps {enabled : Bool} (Q : Except String Unit → SettingsManager → Prop)
    (hQ : ∀ r u, Q r u) :
    (setAdmission i enabled).run.Keeps (discipline bounded) i Q m := by
  refine Thread.keeps_run_bind (Thread.keeps_attempt ?_)
  intro t hvalid _ chance r u hu
  obtain ⟨hactive, hu⟩ := Option.ite_none_right_eq_some.mp hu
  cases hfails : chance.fails with
  | some error =>
      rw [hfails] at hu
      cases hu
      exact ⟨.refl hvalid, hQ _ _⟩
  | none =>
      rw [hfails] at hu
      cases hu
      have hvalid' : Valid bounded { t with admitting := (i, t.policy) :: t.admitting } := by
        refine ⟨hvalid.honest, hvalid.priv, hvalid.agreed, hvalid.running, fun _ => hactive,
          fun hb entry hentry => ?_, hvalid.limits⟩
        rcases List.mem_cons.mp hentry with rfl | hentry
        · rfl
        · exact hvalid.admitting hb entry hentry
      have hothers : ∀ j, j ≠ i →
          Undisturbed bounded j t { t with admitting := (i, t.policy) :: t.admitting } :=
        fun j _ => ⟨fun hj => ⟨hj, rfl, rfl, rfl, fun _ => rfl⟩,
          fun policy hp => List.mem_cons_of_mem _ hp, id⟩
      refine ⟨⟨hvalid', .of_calls id rfl, hothers⟩, Thread.keeps_attempt ?_⟩
      intro w hw hrely chance r x hx
      have hmem : (i, t.policy) ∈ w.admitting := hrely.admitting _ List.mem_cons_self
      have hactive' : w.capture.active = true := hw.busy (List.ne_nil_of_mem hmem)
      have hstep :
          ∀ policy, (bounded →
          RetentionLimits.ofPolicy policy = RetentionLimits.ofPolicy w.policy) →
          (discipline bounded).Allows i w { w with
            admitting := w.admitting.filter fun entry => entry.1 ≠ i
            policy := policy } := by
        intro policy hpolicy
        refine ⟨⟨hw.honest, hw.priv, hw.agreed, hw.running, fun _ => hactive',
          fun hb entry hentry => ?_,
          fun hb _ => ?_⟩, .of_calls id rfl, fun j hne =>
            ⟨fun hj => ⟨hj, rfl, rfl, rfl, hpolicy⟩, ?_, id⟩⟩
        · rw [hw.admitting hb entry (List.mem_of_mem_filter hentry)]
          exact (hpolicy hb).symm
        · exact limitsMatch_iff.mpr
            ((hpolicy hb).trans (limitsMatch_iff.mp (hw.limits hb hactive')))
        · exact fun policy hp => List.mem_filter.mpr ⟨hp, by simpa using hne⟩
      have hsame : bounded → RetentionLimits.ofPolicy { t.policy with admission := enabled } =
          RetentionLimits.ofPolicy w.policy := fun hb => hw.admitting hb _ hmem
      cases hfails : chance.fails with
      | some error =>
          rw [hfails] at hx
          cases htook : chance.took with
          | true => rw [htook] at hx; cases hx; exact ⟨hstep _ hsame, hQ _ _⟩
          | false => rw [htook] at hx; cases hx; exact ⟨hstep _ fun _ => rfl, hQ _ _⟩
      | none =>
          rw [hfails] at hx
          cases hx
          exact ⟨hstep _ hsame, hQ _ _⟩

end Specs

/-- Every call keeps the discipline, and `stop_capture` leaves the manager stopping. -/
theorem program_keeps (bounded : Prop) (i : Nat) (call : Call) (m : SettingsManager) :
    (program i call).Keeps (discipline bounded) i
      (fun _ u => call = .stopCapture → u.stopping = true) m := by
  -- The reply of a call is made from the result of its operation.
  have hreply : ∀ {α : Type} {act : Act α} (reply : α → Reply) {stops : Prop} {t : SettingsManager},
      act.run.Keeps (discipline bounded) i (fun _ u => Finished bounded i stops u) t →
      (do return reply (← act) : Act Reply).run.Keeps (discipline bounded) i
        (fun _ u => Finished bounded i stops u) t := by
    intro α act reply stops t hact
    refine Thread.keeps_run_bind (hact.weaken ?_)
    intro r u hu
    cases r with
    | ok a => exact Thread.keeps_run_pure hu
    | error e => exact hu
  cases call with
  | update change =>
      refine (transacted_keeps fun t v stopped ht hagreed =>
        hreply .settings (update_keeps ht hagreed)).weaken ?_
      intro _ _ _ h
      cases h
  | initializeRetention =>
      refine (transacted_keeps fun t v stopped ht hagreed =>
        hreply (fun _ => .unit) (initializeRetention_keeps ht hagreed)).weaken ?_
      intro _ _ _ h
      cases h
  | setPaused paused priv =>
      refine (transacted_keeps fun t v stopped ht hagreed =>
        hreply .settings (setPaused_keeps ht hagreed)).weaken ?_
      intro _ _ _ h
      cases h
  | quiesce =>
      refine (transacted_keeps fun t v stopped ht hagreed =>
        hreply (fun _ => .unit) (quiesce_keeps ht)).weaken ?_
      intro _ _ _ h
      cases h
  | stopCapture =>
      refine (transacted_keeps fun t v stopped ht hagreed =>
        hreply (fun _ => .unit) (stopCapture_keeps ht)).weaken ?_
      exact fun _ _ h _ => h trivial
  | reconcileCapture =>
      refine (transacted_keeps fun t v stopped ht hagreed =>
        hreply (fun _ => .unit) (reconcileCapture_keeps ht hagreed False.elim)).weaken ?_
      intro _ _ _ h
      cases h
  | refreshCapture =>
      refine (transacted_keeps fun t v stopped ht hagreed =>
        hreply (fun _ => .unit) (refreshCapture_keeps ht hagreed)).weaken ?_
      intro _ _ _ h
      cases h
  | setAdmission enabled =>
      refine Thread.keeps_run_bind (setAdmission_keeps _ ?_)
      intro r u
      cases r with
      | ok a => exact Thread.keeps_run_pure (by intro h; cases h)
      | error e => exact (by intro h; cases h)

/-! ## Every interleaving -/

/-- The state of a new manager: `isolated` without a file, else `default`. -/
def initialState : Option SettingsFile → SettingsState
  | none => .isolated
  | some file => .load file

/-- The pool of calls over a new manager. -/
def service (file : Option SettingsFile) (attached : Bool) (policy : StorePolicy) (paused : Bool) :
    Pool SettingsManager Chance Call (Except String Reply) :=
  .start (initial (initialState file) attached policy paused)

theorem initialState_unverified (file : Option SettingsFile) :
    (initialState file).captureVerified = false := by
  cases file with
  | none => rfl
  | some file =>
      simp only [initialState, SettingsState.load]
      cases loadSettings file <;> rfl

theorem initialState_private (file : Option SettingsFile)
    (h : (initialState file).value.privateMode = true) :
    (initialState file).value.capturePaused = true := by
  cases file with
  | none => rfl
  | some file =>
      simp only [initialState, SettingsState.load] at h ⊢
      cases hload : loadSettings file with
      | error e => rfl
      | ok value =>
          rw [hload] at h
          exact loadSettings_private hload h

theorem initial_valid {bounded : Prop} (file : Option SettingsFile) (attached : Bool)
    (policy : StorePolicy) (paused : Bool) (hpaused : bounded → paused = true) :
    Valid bounded (initial (initialState file) attached policy paused) where
  honest h := by rw [initial, initialState_unverified file] at h; cases h
  priv := initialState_private file
  agreed _ := agreed_of_unverified (initialState_unverified file)
  running h := by simpa [initial] using h
  busy h := absurd rfl h
  admitting _ entry hentry := by cases hentry
  limits hb hactive := by simp [initial, hpaused hb] at hactive

/-- Every state of every run is valid, and so are its operations. -/
theorem service_keeps (bounded : Prop) (file : Option SettingsFile) (attached : Bool)
    (policy : StorePolicy) (paused : Bool) (hpaused : bounded → paused = true)
    (moves : List (Pool.Move Call Chance)) :
    (discipline bounded).Keeps (fun _ call _ u => call = .stopCapture → u.stopping = true)
      ((service file attached policy paused).after program moves) :=
  ((discipline bounded).run_keeps (fun i k m _ _ => program_keeps bounded i k m)
    (fun _ _ _ _ _ _ _ hrely h hk => hrely.stopping (h hk)) moves
    (Discipline.keeps_start (initial_valid file attached policy paused hpaused) fun _ => trivial)).1

/-- What the manager reports about capture is so. -/
structure Truthful (m : SettingsManager) : Prop where
  state : (captureState m.state).paused = some true ∨ (captureState m.state).privateMode = true →
    m.capture.paused = true
  /-- Whatever `get` loaded of `stopping` before it locked the state. -/
  get : ∀ stopping value, get stopping m.state = .ok value →
    value.capturePaused = true ∨ value.privateMode = true → m.capture.paused = true
  /-- Between operations. -/
  verified : m.transaction = none → (captureState m.state).verified = true →
    m.capture.paused = m.state.value.capturePaused

theorem Valid.truthful {bounded : Prop} {m : SettingsManager} (h : Valid bounded m) :
    Truthful m where
  state := by
    rintro (hpaused | hmode)
    · cases hverified : m.state.captureVerified with
      | false => simp [captureState, hverified] at hpaused
      | true =>
          simp only [captureState, hverified, if_true, Option.some.injEq] at hpaused
          exact h.honest hverified hpaused
    · obtain ⟨hverified, hmode⟩ := Bool.and_eq_true_iff.mp hmode
      exact h.honest hverified (h.priv hmode)
  get := by
    intro stopping value hget hclaim
    simp only [SettingsManager.get, bind, Except.bind] at hget
    split at hget
    next e hstate => cases hget
    next state hstate =>
      have hsame : state = m.state := by
        simp only [validatedState] at hstate
        split at hstate
        · cases hstate
        · split at hstate
          · cases hstate
          · exact (Except.ok.inj hstate).symm
      subst hsame
      cases hverified : m.state.captureVerified with
      | false =>
          rw [hverified] at hget
          cases hget
          rcases hclaim with hclaim | hclaim <;> cases hclaim
      | true =>
          rw [hverified] at hget
          cases hget
          rcases hclaim with hpaused | hmode
          · exact h.honest hverified hpaused
          · exact h.honest hverified (h.priv hmode)
  verified hnone hverified := h.agreed hnone hverified

/-- Privacy is never claimed falsely: at every moment of every interleaving, whatever
fails, and whatever state the capture owner was found in. -/
theorem privacy_never_claimed_falsely (file : Option SettingsFile) (attached : Bool)
    (policy : StorePolicy) (paused : Bool) (moves : List (Pool.Move Call Chance)) :
    Truthful ((service file attached policy paused).after program moves).shared :=
  (service_keeps False file attached policy paused False.elim moves).valid.truthful

example : (captureState ((service (some .missing) false .default false).after program
    (.call 0 (.setPaused true true) :: List.replicate 12 (.step 0 ⟨none, false⟩))).shared.state
    ).privateMode = true := rfl

/-- Capture runs only under the saved limits, and once `stop_capture` has returned it is
only ever paused. -/
theorem capture_runs_under_saved_limits (file : Option SettingsFile) (attached : Bool)
    (policy : StorePolicy) (moves : List (Pool.Move Call Chance)) :
    let pool := (service file attached policy true).after program moves
    (pool.shared.capture.paused = false →
      RetentionLimits.ofPolicy pool.shared.policy =
        RetentionLimits.ofPolicy (storePolicy pool.shared.state.value)) ∧
    ∀ i r moves', pool.Returned i .stopCapture r →
      ∃ later, (pool.after program moves').shared.capture.calls =
        pool.shared.capture.calls ++ later ∧
        ∀ call ∈ later, call.paused = true := by
  intro pool
  have hkeeps := service_keeps True file attached policy true (fun _ => rfl) moves
  refine ⟨fun hrun => ?_, fun i r moves' hreturned => ?_⟩
  · exact limitsMatch_iff.mp (hkeeps.valid.limits trivial (hkeeps.valid.running hrun))
  · have hstop : pool.shared.stopping = true := hkeeps.threads i .stopCapture _ hreturned rfl
    have hgrows := ((discipline True).run_keeps (fun i k m _ _ => program_keeps True i k m)
      (fun _ _ _ _ _ _ _ hrely h hk => hrely.stopping (h hk)) moves' hkeeps).2
    obtain ⟨later, hcalls, hpaused⟩ := hgrows.calls
    exact ⟨later, hcalls, hpaused hstop⟩

example :
    let pool := (service (some .missing) true .default true).after program
      (.call 0 (.setPaused false false) :: List.replicate 14 (.step 0 ⟨none, false⟩))
    pool.shared.capture.paused = false ∧
      (pool.after program
        (.call 1 .stopCapture :: List.replicate 9 (.step 1 ⟨none, false⟩))).Returned
        1 .stopCapture (.ok .unit) := ⟨rfl, rfl⟩

end SettingsManager

end ClipDaemon
