import ClipDaemon.Api.Locality
import ClipDaemon.Daemon.Requests
import ClipDaemon.History.Statements

/-!
# What a statement of the daemon may do

`Turn` says all that one statement may do to what the requests share: to what callers hold, to
the store, and to the record of both.  A request adds under its own number and for its own
owner, and changes the store by one request of its own, which is recorded.

There is a lemma for each program.
-/

namespace ClipDaemon.Daemon

open Thread (attempt outcome result)
open Artifacts (Serves)
open Capture (captureMime)

variable {F α : Type}

/-- Nothing of that kind belongs to the owner. -/
def Dropped (a : Authority) (name : String) : Held → Prop
  | .sessions => ∀ id session, a.sessions id = some session → session.owner ≠ some name
  | .edits => ∀ id lease, a.edits id = some lease → lease.owner ≠ some name
  | .challenges => ∀ id challenge, a.challenges id = some challenge → challenge.owner ≠ some name

/-- What belongs to an owner is dropped, or time passes. -/
def Aside (a b : Authority) : Prop :=
  (∃ held name, b = a.drop name held) ∨ ∃ time, b = { a with now := a.now + time }

/-- What statements may do beyond what all of them may. -/
structure Rights where
  /-- The changes of the store. -/
  requests : Source → Request → Prop
  /-- Leases are handed out. -/
  leases : Prop
  /-- Annotations are staged. -/
  stages : Prop
  /-- The lock of the settings is taken, and given back. -/
  locks : Prop
  /-- Capture is started, or stopped. -/
  switches : Prop
  /-- A selection is captured. -/
  captures : Prop
  /-- What callers hold is used. -/
  tokens : Prop

/-- The right to change the store. -/
def Rights.only (requests : Source → Request → Prop) : Rights :=
  ⟨requests, False, False, False, False, False, False⟩

/-- The store is left alone, or a request that is allowed changes it and is recorded. -/
def Recorded (P : Platform) (rights : Rights) (s t : Daemon F) : Prop :=
  (t.committed = s.committed ∧ t.commits = s.commits) ∨
    ∃ source request env reply, rights.requests source request ∧
      request.effect P env s.committed = .ok (reply, t.committed) ∧ t.committed ≠ s.committed ∧
      t.commits = s.commits ++ [⟨source, s.committed, t.committed⟩]

/-- A stop of capture, or a switch that may have failed. -/
def Switched (s t : Daemon F) : Prop :=
  t.session = s.session + 1 ∨ t.session = s.session ∧ (t.capturing = false → s.capturing = false)

/-- A statement of thread `i`, which serves `owner`. -/
structure Turn (P : Platform) (rights : Rights) (i : Nat) (owner : Owner)
    (s t : Daemon F) : Prop where
  sessions : ∀ id session, t.authority.sessions id = some session →
    (∃ old, s.authority.sessions id = some old ∧ old.owner = session.owner) ∨
      (id = i ∧ session.owner = owner)
  edits : ∀ id lease, t.authority.edits id = some lease → s.authority.edits id = some lease ∨
    (id = i ∧ lease.owner = owner ∧ (id, lease) ∈ t.leases)
  challenges : ∀ id challenge, t.authority.challenges id = some challenge →
    s.authority.challenges id = some challenge ∨ (id = i ∧ challenge.owner = owner)
  leases : ∃ more, t.leases = s.leases ++ more ∧ ∀ entry ∈ more, rights.leases ∧ entry.1 = i
  stages : ∀ id, t.stages id = s.stages id ∨ rights.stages ∧ id = i
  departed : t.departed = s.departed
  swept : ∀ held name, s.swept held name = true → t.swept held name = true
  sweeps : ∀ held name, t.swept held name = true →
    s.swept held name = true ∨ (s.departed name = true ∧ Dropped t.authority name held)
  settled : s.backend.store.db.Settled → t.backend.store.db.Settled
  fenced : s.fenced = true → t.fenced = true ∧ t.commits = s.commits
  recorded : Recorded P rights s t
  settings : t.settings = s.settings ∨ rights.locks
  governors : t.governors = s.governors ∨ rights.locks ∧ t.governors = s.governors ++ [i]
  capture : (t.capturing = s.capturing ∧ t.session = s.session) ∨ rights.switches ∧ Switched s t
  captures : (t.ingesting = s.ingesting ∧ t.captures = s.captures) ∨
    rights.captures ∧ ∀ j, j ≠ i → t.captures j = s.captures j
  quiesced : t.quiesced = s.quiesced ∨
    s.captureFenced = true ∧ t.quiesced = s.quiesced ++ [t.commits.length]
  aside : rights.tokens ∨ t.authority = s.authority ∨ Aside s.authority t.authority

/-- What a turn is about. -/
structure View where
  authority : Authority
  store : Store
  commits : List Commit
  leases : List (Nat × EditLease)
  stages : Uuid → Option AnnotationStage
  departed : String → Bool
  swept : Held → String → Bool
  settings : Option Nat
  governors : List Nat
  capturing : Bool
  session : Nat
  ingesting : List Nat
  captures : Nat → Option (Nat × Nat)
  quiesced : List Nat

/-- The part of the state that properties are about. -/
def view (s : Daemon F) : View :=
  ⟨s.authority, s.backend.store, s.commits, s.leases, s.stages, s.departed, s.swept, s.settings,
    s.governors, s.capturing, s.session, s.ingesting, s.captures, s.quiesced⟩

section Turn

variable {P : Platform} {rights : Rights} {i : Nat} {owner : Owner}
  {s t : Daemon F}

/-- The statement touches nothing that a turn is about. -/
theorem Turn.of_same (h : t.view = s.view) : Turn P rights i owner s t := by
  simp only [view, View.mk.injEq] at h
  obtain ⟨hauthority, hstore, hcommits, hleases, hstages, hdeparted, hswept, hsettings, hgovernors,
    hcapturing, hsession, hingesting, hcaptures, hquiesced⟩ := h
  exact {
    sessions := fun id session h => .inl ⟨session, hauthority ▸ h, rfl⟩
    edits := fun id lease h => .inl (hauthority ▸ h)
    challenges := fun id challenge h => .inl (hauthority ▸ h)
    leases := ⟨[], by rw [hleases, List.append_nil], fun _ h => absurd h List.not_mem_nil⟩
    stages := fun id => .inl (by rw [hstages])
    departed := hdeparted
    swept := fun held name h => by rw [hswept]; exact h
    sweeps := fun held name h => .inl (by rw [← hswept]; exact h)
    settled := fun h => by rw [hstore]; exact h
    fenced := fun h => ⟨(congrArg (fun store : Store => store.db.blocked) hstore).trans h, hcommits⟩
    recorded := .inl ⟨congrArg Store.committed hstore, hcommits⟩
    settings := .inl hsettings
    governors := .inl hgovernors
    capture := .inl ⟨hcapturing, hsession⟩
    captures := .inl ⟨hingesting, hcaptures⟩
    quiesced := .inl hquiesced
    aside := .inr (.inl hauthority) }

theorem Turn.refl (s : Daemon F) : Turn P rights i owner s s := .of_same rfl

/-- What callers hold is all that changes. -/
theorem Turn.ofAuthority {authority : Authority}
    (h : Authority.Local i owner s.authority authority)
    (haside : rights.tokens ∨ authority = s.authority ∨ Aside s.authority authority) :
    Turn P rights i owner s { s with authority } :=
  { (Turn.refl s : Turn P rights i owner s s) with
    sessions := h.sessions
    edits := fun id lease hlease => .inl (h.edits id lease hlease)
    challenges := h.challenges
    sweeps := fun _ _ h => .inl h
    aside := haside }

/-- A statement of the backend. -/
theorem Turn.ofBackend {source : Source} {allowed : Request → Prop} {backend : Artifacts.Backend F}
    (h : Artifacts.Asks P allowed s.backend backend)
    (hallowed : ∀ r, allowed r → rights.requests source r) :
    Turn P rights i owner s (setBackend source s backend) := by
  have hsame : (setBackend source s backend).committed = backend.committed := rfl
  have hrefl : Turn P rights i owner s s := .refl s
  refine { hrefl with
    settled := fun hsettled => ?_, fenced := fun hfenced => ?_, recorded := ?_, quiesced := ?_ }
  · rcases h.store with hstore | ⟨r, env, faults, -, hstore⟩
    · exact (congrArg (fun store : Store => store.db.Settled) hstore).mpr hsettled
    · exact (congrArg (fun store : Store => store.db.Settled) hstore).mpr
        (Store.settled_step P hsettled _)
  · have hstore : backend.store = s.backend.store := by
      rcases h.store with hstore | ⟨r, env, faults, -, hstore⟩
      · exact hstore
      · rw [hstore, Store.step_blocked P hfenced]
    exact ⟨(congrArg (fun store : Store => store.db.blocked) hstore).trans hfenced,
      if_pos (congrArg Store.committed hstore)⟩
  · by_cases heq : backend.committed = s.backend.committed
    · exact .inl ⟨hsame.trans heq, if_pos heq⟩
    · rcases h.store with hstore | ⟨r, env, faults, hr, hstore⟩
      · exact absurd (congrArg Store.committed hstore) heq
      · rcases Store.request_durable P s.backend.store r env faults with hdurable | ⟨reply, heffect⟩
        · exact absurd ((congrArg Store.committed hstore).trans hdurable) heq
        · refine .inr ⟨source, r, env, reply, hallowed r hr, ?_, heq, if_neg heq⟩
          rw [hsame, Artifacts.Backend.committed, hstore]
          exact heffect
  · cases hquiet : s.captureFenced with
    | true => exact .inr ⟨rfl, if_pos hquiet⟩
    | false => exact .inl (if_neg (by simp [hquiet]))

end Turn

/-- A program of thread `i`, which serves `owner`. -/
def Takes (P : Platform) (rights : Rights) (i : Nat) (owner : Owner)
    (m : Thread (Daemon F) Chance α) : Prop :=
  m.Each (Turn P rights i owner)

section Rules

variable {β ε : Type} {P : Platform} {H : Machine F} {rights : Rights} {i : Nat}
  {owner : Owner}

theorem takes_bind {m : Thread (Daemon F) Chance α} {k : α → Thread (Daemon F) Chance β}
    (hm : Takes P rights i owner m) (hk : ∀ a, Takes P rights i owner (k a)) :
    Takes P rights i owner (m >>= k) :=
  Thread.each_bind hm hk

theorem takes_pure (a : α) : Takes P rights i owner (pure a : Thread (Daemon F) Chance α) := trivial

theorem takes_run_pure (a : α) :
    Takes P rights i owner (pure a : ExceptT ε (Thread (Daemon F) Chance) α).run := trivial

theorem takes_run_throw (e : ε) :
    Takes P rights i owner (throw e : ExceptT ε (Thread (Daemon F) Chance) α).run := trivial

theorem takes_run_result (r : Except ε α) :
    Takes P rights i owner (result r : ExceptT ε (Thread (Daemon F) Chance) α).run := trivial

theorem takes_run_bind {m : ExceptT ε (Thread (Daemon F) Chance) α}
    {k : α → ExceptT ε (Thread (Daemon F) Chance) β} (hm : Takes P rights i owner m.run)
    (hk : ∀ a, Takes P rights i owner (k a).run) : Takes P rights i owner (m >>= k).run :=
  Thread.each_run_bind hm hk

theorem takes_outcome {m : ExceptT ε (Thread (Daemon F) Chance) α}
    (hm : Takes P rights i owner m.run) : Takes P rights i owner (outcome m).run :=
  takes_bind hm fun _ => takes_pure _

theorem takes_lift {m : Thread (Daemon F) Chance α} (hm : Takes P rights i owner m) :
    Takes P rights i owner (ExceptT.lift m : ExceptT ε (Thread (Daemon F) Chance) α).run :=
  takes_bind hm fun _ => takes_pure _

/-- One statement. -/
theorem takes_attempt {op : Chance → Daemon F → Option (Except ε α × Daemon F)}
    (h : ∀ c s r t, op c s = some (r, t) → Turn P rights i owner s t) :
    Takes P rights i owner (attempt op).run :=
  Thread.each_attempt h

/-- A statement that only reads. -/
theorem takes_look {f : Chance → Daemon F → Except ε α} :
    Takes P rights i owner (attempt fun c s => some (f c s, s) :
      ExceptT ε (Thread (Daemon F) Chance) α).run := by
  refine takes_attempt fun c s r t hop => ?_
  cases hop
  exact .refl s

theorem takes_onAuthority (htokens : rights.tokens) {m : Authority.Act α}
    (hm : m.run.Each (Authority.Local i owner)) :
    Takes P rights i owner (onAuthority m : Act F α).run :=
  Thread.each_zoom hm fun _ _ h => .ofAuthority h (.inl htokens)

/-- What callers hold is only looked at. -/
theorem takes_onAuthority_look {f : Authority.Chance → Authority → ApiResult α} :
    Takes P rights i owner (onAuthority (attempt fun c s => some (f c s, s)) : Act F α).run := by
  refine takes_attempt fun c s r t hop => ?_
  cases hop
  exact .of_same rfl

theorem takes_maxEntryBytes : Takes P rights i owner
    (onAuthority Authority.maxEntryBytes : Act F Nat).run := takes_onAuthority_look

theorem takes_unexpired (expires : Nat) (error : ApiError) : Takes P rights i owner
    (onAuthority (Authority.unexpired expires error) : Act F Nat).run := takes_onAuthority_look

/-- The jobs are no part of a turn. -/
theorem takes_onJobs (m : Jobs.Work α) : Takes P rights i owner (onJobs m : Work F α) :=
  Thread.each_zoom (Thread.each_any m) fun _ _ _ => .of_same rfl

theorem takes_onBackend {source : Source} {allowed : Request → Prop} {m : Artifacts.Act F α}
    (hm : Serves P allowed m) (hallowed : ∀ r, allowed r → rights.requests source r) :
    Takes P rights i owner (onBackend source m).run :=
  Thread.each_zoom hm fun _ _ h => .ofBackend h hallowed

theorem takes_fromBackend {m : BackendAct F α} (hm : Takes P rights i owner m.run) :
    Takes P rights i owner (fromBackend m).run :=
  takes_bind hm fun _ => takes_pure _

/-! ## Locks -/

theorem takes_lockGate : Takes P rights i owner (lockGate i : BackendAct F Unit).run := by
  refine takes_attempt fun c s r t hop => ?_
  split at hop <;> cases hop
  exact .of_same rfl

theorem takes_unlockGate : Takes P rights i owner (unlockGate : BackendAct F Unit).run := by
  refine takes_attempt fun c s r t hop => ?_
  cases hop
  exact .of_same rfl

theorem takes_gated {m : BackendAct F α} (hm : Takes P rights i owner m.run) :
    Takes P rights i owner (gated i m).run := by
  refine takes_run_bind takes_lockGate fun _ => ?_
  refine takes_run_bind (takes_outcome hm) fun r => ?_
  exact takes_run_bind takes_unlockGate fun _ => takes_run_result r

theorem takes_lockTransaction :
    Takes P rights i owner (lockTransaction i : BackendAct F Unit).run := by
  refine takes_attempt fun c s r t hop => ?_
  split at hop <;> cases hop
  exact .of_same rfl

theorem takes_unlockTransaction :
    Takes P rights i owner (unlockTransaction : BackendAct F Unit).run := by
  refine takes_attempt fun c s r t hop => ?_
  cases hop
  exact .of_same rfl

theorem takes_locked {m : BackendAct F α} (hm : Takes P rights i owner m.run) :
    Takes P rights i owner (locked i m).run := by
  refine takes_run_bind takes_lockTransaction fun _ => ?_
  refine takes_run_bind (takes_outcome hm) fun r => ?_
  exact takes_run_bind takes_unlockTransaction fun _ => takes_run_result r

theorem takes_ensureRunning : Takes P rights i owner (ensureRunning : BackendAct F Unit).run :=
  takes_look

theorem takes_transacted {source : Source} {allowed : Request → Prop} {m : Artifacts.Act F α}
    (hm : Serves P allowed m) (hallowed : ∀ r, allowed r → rights.requests source r) :
    Takes P rights i owner (transacted i source m).run :=
  takes_locked (takes_run_bind takes_ensureRunning fun _ => takes_onBackend hm hallowed)

theorem takes_lockSettings (hlocks : rights.locks) :
    Takes P rights i owner (lockSettings i : Act F Unit).run := by
  refine takes_attempt fun c s r t hop => ?_
  split at hop <;> cases hop
  exact { (Turn.refl s : Turn P rights i owner s s) with
    settings := .inr hlocks
    governors := .inr ⟨hlocks, rfl⟩ }

theorem takes_unlockSettings (hlocks : rights.locks) :
    Takes P rights i owner (unlockSettings : Act F Unit).run := by
  refine takes_attempt fun c s r t hop => ?_
  cases hop
  exact { (Turn.refl s : Turn P rights i owner s s) with settings := .inr hlocks }

theorem takes_settled (hlocks : rights.locks) {m : Act F α} (hm : Takes P rights i owner m.run) :
    Takes P rights i owner (settled i m).run := by
  refine takes_run_bind (takes_lockSettings hlocks) fun _ => ?_
  refine takes_run_bind (takes_outcome hm) fun r => ?_
  exact takes_run_bind (takes_unlockSettings hlocks) fun _ => takes_run_result r

theorem takes_lockHistory : Takes P rights i owner (lockHistory i : Act F Unit).run := by
  refine takes_attempt fun c s r t hop => ?_
  split at hop <;> cases hop
  exact .of_same rfl

theorem takes_unlockHistory : Takes P rights i owner (unlockHistory : Act F Unit).run := by
  refine takes_attempt fun c s r t hop => ?_
  cases hop
  exact .of_same rfl

theorem takes_observing {m : Act F α} (hm : Takes P rights i owner m.run) :
    Takes P rights i owner (observing i m).run := by
  refine takes_run_bind takes_lockHistory fun _ => ?_
  refine takes_run_bind (takes_outcome hm) fun r => ?_
  exact takes_run_bind takes_unlockHistory fun _ => takes_run_result r

theorem takes_observe (token : UInt64) :
    Takes P rights i owner (observe token : Act F Nat).run := by
  refine takes_attempt fun c s r t hop => ?_
  split at hop <;> cases hop <;> exact .of_same rfl

theorem takes_invalidate : Takes P rights i owner (invalidate : Act F Unit).run := by
  refine takes_attempt fun c s r t hop => ?_
  cases hop
  exact .of_same rfl

end Rules

/-- A request that adds an entry. -/
def adds : Request → Bool
  | .insert .. => true
  | _ => false

/-- A request about the policy. -/
def aboutPolicy : Request → Bool
  | .policy | .applyPolicy _ => true
  | _ => false

/-- What request `i` may ask of the store. -/
def Asked (i : Nat) (source : Source) (r : Request) : Prop := source = .request i ∧ adds r = false

theorem asked_of_ordinary {i : Nat} (r : Request) (h : HistoryBackend.Ordinary r) :
    Asked i (.request i) r := by
  refine ⟨rfl, ?_⟩
  cases r with
  | insert mime bytes => exact h.elim
  | _ => rfl

theorem asked_of_aside {i : Nat} (r : Request) (h : r.isAside = true) : Asked i (.request i) r :=
  asked_of_ordinary r (HistoryBackend.ordinary_of_aside r h)

/-! ## Settings -/

section Settings

variable {P : Platform} {H : Machine F} {rights : Rights} {i : Nat}
  {owner : Owner} {source : Source}

theorem takes_elsewhere : Takes P rights i owner (elsewhere : Act F Unit).run := takes_look

theorem takes_readPreferences :
    Takes P rights i owner (readPreferences : Act F ClipboardSettings).run := takes_look

theorem takes_captureSetPaused (hswitches : rights.switches) (paused : Bool) :
    Takes P rights i owner (captureSetPaused paused : Act F Unit).run := by
  refine takes_attempt fun c s r t hop => ?_
  have hrefl : Turn P rights i owner s s := .refl s
  split at hop
  · cases hop
    refine { hrefl with capture := .inr ⟨hswitches, .inr ⟨rfl, fun hstopped => ?_⟩⟩ }
    exact (Bool.or_eq_false_iff.mp hstopped).1
  · split at hop
    · split at hop <;> cases hop
      exact { hrefl with capture := .inr ⟨hswitches, .inl rfl⟩ }
    · cases hop
      exact { hrefl with
        capture := .inr ⟨hswitches, .inr ⟨rfl, fun hstopped => by cases hstopped⟩⟩ }

theorem takes_setPreferences (updated : ClipboardSettings) :
    Takes P rights i owner (setPreferences updated : Act F Unit).run := by
  refine takes_attempt fun c s r t hop => ?_
  cases hop
  exact .of_same rfl

variable (hsource : ∀ r : Request, aboutPolicy r = true → rights.requests source r)
include hsource

theorem takes_storeRequest {request : Request} (hrequest : aboutPolicy request = true)
    (pick : ClipDaemon.Reply → Option α) :
    Takes P rights i owner (storeRequest P H source request pick).run := by
  refine takes_run_bind (takes_outcome (takes_fromBackend ?_)) fun _ => takes_run_result _
  have hserves : Serves P (fun r => aboutPolicy r = true) (Artifacts.ask P H.toHost request pick) :=
    Artifacts.serves_ask hrequest pick
  exact takes_onBackend hserves hsource

theorem takes_readPolicy : Takes P rights i owner (readPolicy P H source).run :=
  takes_storeRequest hsource rfl _

theorem takes_applyPolicy (policy : StorePolicy) :
    Takes P rights i owner (applyPolicy P H source policy).run :=
  takes_storeRequest hsource rfl _

theorem takes_closeAdmission : Takes P rights i owner (closeAdmission P H source).run :=
  takes_run_bind (takes_readPolicy hsource) fun _ => takes_applyPolicy hsource _

theorem takes_retentionMatches (desired : ClipboardSettings) :
    Takes P rights i owner (retentionMatches P H source desired).run := by
  refine takes_run_bind (takes_outcome (takes_readPolicy hsource)) fun limits => ?_
  cases limits <;> exact takes_run_pure _

theorem takes_synchronized (updated : ClipboardSettings) :
    Takes P rights i owner (synchronized P H source updated).run := by
  rw [synchronized]
  split
  · exact takes_run_pure _
  · exact takes_retentionMatches hsource updated

end Settings

/-- Rights for a change of the settings. -/
structure Rights.Governs (rights : Rights) (source : Source) : Prop where
  requests : ∀ r : Request, aboutPolicy r = true → rights.requests source r
  switches : rights.switches

section Governs

variable {P : Platform} {H : Machine F} {rights : Rights} {i : Nat} {owner : Owner}

section Capture

variable {source : Source} (hgoverns : rights.Governs source)
include hgoverns

theorem takes_quiesceLocked : Takes P rights i owner (quiesceLocked P H source).run :=
  takes_run_bind (takes_captureSetPaused hgoverns.switches _) fun _ =>
    takes_closeAdmission hgoverns.requests

theorem takes_switchCapture (updated : ClipboardSettings) :
    Takes P rights i owner (switchCapture P H source updated).run := by
  refine takes_run_bind (takes_captureSetPaused hgoverns.switches _) fun _ => ?_
  split
  · exact takes_run_bind (takes_closeAdmission hgoverns.requests) fun _ => takes_elsewhere
  · exact takes_elsewhere

theorem takes_applyCapture (updated : ClipboardSettings) :
    Takes P rights i owner (applyCapture P H source updated).run := by
  refine takes_run_bind (takes_synchronized hgoverns.requests updated) fun synchronized => ?_
  split
  · exact takes_switchCapture hgoverns updated
  · exact takes_run_bind (takes_quiesceLocked hgoverns) fun _ => takes_run_throw _

end Capture

variable (hgoverns : rights.Governs (.request i))
include hgoverns

theorem takes_applyRetention (desired : ClipboardSettings) :
    Takes P rights i owner (applyRetention P H i desired).run := by
  refine takes_run_bind (takes_retentionMatches hgoverns.requests desired) fun found => ?_
  split
  · exact takes_run_pure _
  · exact takes_run_bind (takes_quiesceLocked hgoverns) fun _ =>
      takes_applyPolicy hgoverns.requests _

theorem takes_updateLocked (update : SettingsUpdate) :
    Takes P rights i owner (updateLocked P H i update).run := by
  refine takes_run_bind takes_readPreferences fun current => ?_
  refine takes_run_bind (takes_run_result _) fun updated => ?_
  refine takes_run_bind ?_ fun _ => takes_run_bind ?_ fun _ => ?_
  · rw [fenceRetention]
    split
    · exact takes_quiesceLocked hgoverns
    · exact takes_run_pure _
  · rw [savePreferences]
    split
    · exact takes_run_pure _
    · exact takes_run_bind takes_elsewhere fun _ => takes_setPreferences _
  · refine takes_run_bind (takes_applyRetention hgoverns _) fun _ => ?_
    exact takes_run_bind (takes_applyCapture hgoverns _) fun _ => takes_run_pure _

theorem takes_pauseLocked (paused priv : Bool) :
    Takes P rights i owner (pauseLocked P H i paused priv).run := by
  refine takes_run_bind takes_readPreferences fun current => ?_
  refine takes_run_bind (takes_outcome (takes_run_bind takes_elsewhere fun _ =>
    takes_setPreferences _)) fun saved => ?_
  cases saved with
  | ok _ => exact takes_run_bind (takes_applyCapture hgoverns _) fun _ => takes_run_pure _
  | error error =>
      dsimp only
      split
      · refine takes_run_bind
          (takes_outcome (takes_captureSetPaused hgoverns.switches _)) fun _ => ?_
        exact takes_run_bind (takes_outcome (takes_closeAdmission hgoverns.requests)) fun _ =>
          takes_run_throw _
      · exact takes_run_throw _

theorem takes_resume : Takes P rights i owner (resume P H i).run :=
  takes_run_bind takes_readPreferences fun _ => takes_applyCapture hgoverns _

variable (hlocks : rights.locks)
include hlocks

theorem takes_updateSettings (update : SettingsUpdate) :
    Takes P rights i owner (updateSettings P H i update).run :=
  takes_settled hlocks (takes_updateLocked hgoverns update)

theorem takes_setPaused (paused priv : Bool) :
    Takes P rights i owner (setPaused P H i paused priv).run :=
  takes_settled hlocks (takes_pauseLocked hgoverns paused priv)

theorem takes_initializeRetention : Takes P rights i owner (initializeRetention P H i).run :=
  takes_settled hlocks (takes_run_bind takes_readPreferences fun _ =>
    takes_applyPolicy hgoverns.requests _)

theorem takes_reconcileCapture : Takes P rights i owner (reconcileCapture P H i).run :=
  takes_settled hlocks (takes_resume hgoverns)

theorem takes_stopCapture : Takes P rights i owner (stopCapture P H i).run :=
  takes_settled hlocks (takes_quiesceLocked hgoverns)

end Governs

/-! ## The book of the operations -/

section Book

variable {P : Platform} {rights : Rights} {i : Nat} {owner served : Owner}

theorem takes_operationStatus (id : Uuid) :
    Takes P rights i served (operationStatus i id owner : Act F Answer).run :=
  takes_run_bind (takes_lift (takes_onJobs _)) fun _ =>
    takes_run_bind (takes_run_result _) fun _ => takes_run_pure _

theorem takes_track (answer : Answer) :
    Takes P rights i served (track i answer owner : Act F Answer).run := by
  cases answer with
  | operation operation =>
      rw [track]
      split
      · exact takes_run_bind (takes_lift (takes_onJobs _)) fun _ => takes_operationStatus _
      · exact takes_run_pure _
  | _ => exact takes_run_pure _

end Book

/-! ## Parts of requests -/

section Parts

variable {P : Platform} {H : Machine F} {rights : Rights} {i : Nat} {owner : Owner}

theorem takes_command : Takes P rights i owner (command : BackendAct F Unit).run := takes_look

/-! ### Dispatch -/

theorem takes_dispatchEntry (htokens : rights.tokens) {m : Nat → Act F Answer}
    (hm : ∀ maxBytes, Takes P rights i owner (m maxBytes).run) :
    Takes P rights i owner (dispatchEntry m).run := by
  refine takes_run_bind takes_maxEntryBytes fun maxBytes => ?_
  exact takes_run_bind (takes_onAuthority htokens Authority.local_purgeEdits) fun _ => hm maxBytes

theorem takes_authorized (htokens : rights.tokens) {m : Authority.Act Authority.Answer}
    (hm : m.run.Each (Authority.Local i owner)) :
    Takes P rights i owner (authorized m : Act F Answer).run :=
  takes_run_bind (takes_onAuthority htokens hm) fun _ => takes_run_pure _

/-! ### Launching -/

theorem takes_desktop (message : String) :
    Takes P rights i owner (desktop message : Act F Unit).run := takes_look

theorem takes_existingLocalPath (file : FilePreview) :
    Takes P rights i owner (existingLocalPath P H file).run := by
  rw [existingLocalPath]
  split
  · exact takes_run_throw _
  · refine takes_run_bind takes_look fun found => ?_
    split
    · exact takes_run_pure _
    · exact takes_run_throw _

theorem takes_openUrl (value : String) :
    Takes P rights i owner (openUrl P i value : Act F OperationResult).run := by
  rw [openUrl]
  split
  · exact takes_run_throw _
  · split
    · exact takes_run_bind (takes_desktop _) fun _ => takes_run_pure _
    · exact takes_run_throw _

theorem takes_openFile (file : FilePreview) : Takes P rights i owner (openFile P H i file).run :=
  takes_run_bind (takes_existingLocalPath file) fun _ =>
    takes_run_bind (takes_desktop _) fun _ => takes_run_pure _

theorem takes_revealFile (file : FilePreview) :
    Takes P rights i owner (revealFile P H i file).run := by
  refine takes_run_bind (takes_existingLocalPath file) fun path => ?_
  split
  · exact takes_run_throw _
  · refine takes_run_bind (takes_desktop _) fun _ => ?_
    refine takes_run_bind (takes_desktop _) fun _ => ?_
    exact takes_run_bind (takes_desktop _) fun _ => takes_run_pure _

theorem takes_launchAction (params : Authority.ActionParams) (details : EntryDetails) :
    Takes P rights i owner (launchAction P H i params details).run := by
  rw [launchAction]
  split
  · exact takes_run_bind (takes_run_result _) fun _ => takes_openUrl _
  · exact takes_run_bind (takes_run_result _) fun _ => takes_openFile _
  · exact takes_run_bind (takes_run_result _) fun _ => takes_revealFile _
  · exact takes_run_throw _

/-! ### Sessions, stages and leases -/

theorem takes_armTarget (htokens : rights.tokens) (hasTarget : Bool) (session : Uuid) :
    Takes P rights i owner (armTarget i hasTarget session owner : Act F Bool).run := by
  rw [armTarget]
  split
  · exact takes_onAuthority htokens (Authority.local_armPaste session)
  · exact takes_run_pure _

theorem takes_cancelEdit (htokens : rights.tokens) (id : Uuid) :
    Takes P rights i owner (cancelEdit id owner : Act F Answer).run := by
  refine takes_run_bind (takes_onAuthority htokens (Thread.each_attempt fun c s r t hop => ?_))
    fun _ => takes_run_pure _
  cases hop
  exact Authority.local_edits fun id lease h => Tokens.of_redeem h

theorem takes_clearEdits (htokens : rights.tokens) : Takes P rights i owner
    (onAuthority Authority.clearEdits : Act F Unit).run := by
  refine takes_onAuthority htokens (Thread.each_attempt fun c s r t hop => ?_)
  cases hop
  exact Authority.local_edits fun _ _ h => by cases h

theorem takes_stage (hstages : rights.stages) (staged : AnnotationStage) :
    Takes P rights i owner (stage i staged : BackendAct F Unit).run := by
  refine takes_attempt fun c s r t hop => ?_
  cases hop
  refine { (Turn.refl s : Turn P rights i owner s s) with stages := fun id => ?_ }
  rcases eq_or_ne id i with rfl | hne
  · exact .inr ⟨hstages, rfl⟩
  · exact .inl (Function.update_of_ne hne _ _)

theorem Annotate.takes_launch (hstages : rights.stages) (staged : AnnotationStage) :
    Takes P rights i owner (Annotate.launch i staged : BackendAct F OperationResult).run := by
  refine takes_run_bind (takes_stage hstages staged) fun _ => ?_
  exact takes_run_bind (takes_lift (takes_onJobs _)) fun _ => takes_run_result _

theorem takes_issueLease (htokens : rights.tokens) (hleases : rights.leases)
    (details : EntryDetails) (value : String) :
    Takes P rights i owner (issueLease i owner details value : Act F Authority.Answer).run := by
  refine takes_attempt fun c s r t hop => ?_
  cases hop
  refine { (Turn.refl s : Turn P rights i owner s s) with
    edits := fun id lease h => ?_
    sweeps := fun _ _ h => .inl h
    leases := ⟨[_], rfl, fun entry hentry => ⟨hleases, ?_⟩⟩
    aside := .inl htokens }
  · change s.authority.edits.insert i _ id = some lease at h
    rw [Tokens.insert] at h
    rcases eq_or_ne id i with rfl | hne
    · rw [Function.update_self] at h
      cases h
      exact .inr ⟨rfl, rfl, List.mem_append_right _ (List.mem_singleton_self _)⟩
    · rw [Function.update_of_ne hne] at h
      exact .inl h
  · rw [List.mem_singleton.mp hentry]

section Aside

variable (haside : ∀ r : Request, r.isAside = true → rights.requests (.request i) r)
include haside

/-- What only reads, registers files or publishes. -/
theorem takes_aside {m : Artifacts.Act F α} (hm : Serves P (fun r => r.isAside = true) m) :
    Takes P rights i owner (onBackend (.request i) m).run :=
  takes_onBackend hm haside

theorem takes_transacted_aside {m : Artifacts.Act F α}
    (hm : Serves P (fun r => r.isAside = true) m) :
    Takes P rights i owner (transacted i (.request i) m).run :=
  takes_transacted hm haside

theorem takes_discarding (path : FilePath) {m : BackendAct F α}
    (hm : Takes P rights i owner m.run) :
    Takes P rights i owner (discarding H i path m).run := by
  refine takes_run_bind (takes_outcome hm) fun r => ?_
  exact takes_run_bind (takes_aside haside (Artifacts.serves_write fun _ => ⟨rfl, rfl⟩)) fun _ =>
    takes_run_result _

theorem takes_captureRegion (region : ScreenshotRegion) (maxBytes : Nat) :
    Takes P rights i owner (captureRegion P H i region maxBytes).run := by
  rw [captureRegion]
  split
  · exact takes_run_throw _
  · refine takes_run_bind (takes_aside haside HistoryBackend.serves_stageCapture) fun path => ?_
    refine takes_discarding haside path (takes_run_bind takes_command fun _ => ?_)
    refine takes_run_bind (takes_locked ?_) fun _ => takes_run_pure _
    exact takes_aside haside (HistoryBackend.serves_publishCapture _ _)

theorem takes_captureScreenshot (region : ScreenshotRegion) (maxBytes : Nat) :
    Takes P rights i owner (captureScreenshot P H i region maxBytes).run :=
  takes_gated (takes_run_bind takes_ensureRunning fun _ => takes_captureRegion haside _ _)

theorem takes_interactiveScreenshot :
    Takes P rights i owner (interactiveScreenshot H i).run := by
  refine takes_gated (takes_run_bind takes_ensureRunning fun _ => ?_)
  refine takes_run_bind (takes_lift (takes_onJobs _)) fun running => ?_
  split
  · exact takes_run_throw _
  · refine takes_run_bind (takes_aside haside HistoryBackend.serves_stageCapture) fun input => ?_
    refine takes_run_bind (takes_aside haside (Artifacts.serves_uniquePath _ _)) fun output => ?_
    exact takes_run_bind (takes_lift (takes_onJobs _)) fun _ => takes_run_result _

theorem takes_loadDetails (entryId : String) (revision : Option Nat) :
    Takes P rights i owner (loadDetails P H i entryId revision).run := by
  refine takes_run_bind (takes_run_result _) fun _ => ?_
  refine takes_run_bind (takes_fromBackend (takes_transacted_aside haside
    (HistoryBackend.serves_detailsSync (fun _ h => h) _ _))) fun details => ?_
  exact takes_run_bind (takes_run_result _) fun _ => takes_run_pure _

/-! ### Selections -/

theorem takes_captureScreenshotAction (region : ScreenshotRegion) (maxBytes : Nat) :
    Takes P rights i owner (captureScreenshotAction P H i region maxBytes).run := by
  rw [captureScreenshotAction]
  split
  · exact takes_run_throw _
  · exact takes_run_bind (takes_fromBackend (takes_captureScreenshot haside _ _)) fun _ =>
      takes_run_pure _

theorem takes_publish (mime : String) (bytes : Bytes) (maxBytes : Nat) :
    Takes P rights i owner (publish i mime bytes maxBytes : Act F Answer).run := by
  rw [publish]
  split
  · exact takes_run_throw _
  · exact takes_run_bind (takes_fromBackend (takes_transacted_aside haside
    (HistoryBackend.serves_publishSync _ _ _ _))) fun _ => takes_run_pure _

theorem takes_publishSelection (mime : String) (bytes : Bytes) :
    Takes P rights i owner (publishSelection i mime bytes : Act F Answer).run :=
  takes_run_bind takes_maxEntryBytes fun _ => takes_publish haside _ _ _

theorem takes_publishSensitive (text : String) (seconds : Nat) :
    Takes P rights i owner (publishSensitive i text seconds : Act F Answer).run := by
  refine takes_run_bind (takes_run_result _) fun _ => ?_
  exact takes_run_bind (takes_fromBackend (takes_transacted_aside haside
    (HistoryBackend.serves_publishSensitiveSync _ _ _))) fun _ => takes_run_pure _

theorem takes_publishFiles (selection : FileSelection) (maxBytes : Nat) :
    Takes P rights i owner (publishFiles H i selection maxBytes).run := by
  refine takes_run_bind (takes_run_result _) fun _ => ?_
  exact takes_run_bind (takes_fromBackend (takes_transacted_aside haside
    (HistoryBackend.serves_publishFilesSync _ _ _))) fun _ => takes_run_pure _

theorem takes_beginEdit (htokens : rights.tokens) (hleases : rights.leases)
    (params : EntryParams) :
    Takes P rights i owner (beginEdit P H i params owner).run := by
  refine takes_run_bind (takes_loadDetails haside _ _) fun details => ?_
  refine takes_run_bind (takes_run_result _) fun value => ?_
  exact takes_run_bind (takes_issueLease htokens hleases details value) fun _ => takes_run_pure _

/-- Under a lease one entry is replaced. -/
theorem takes_replaceLeased (lease : EditLease) (value : String) (maxBytes : Nat)
    (hreplace : rights.requests (.request i)
      (.replace lease.entryId lease.revision lease.mime (asBytes value))) :
    Takes P rights i owner (replaceLeased P H i lease value maxBytes).run := by
  refine takes_run_bind (takes_unexpired _ _) fun _ => ?_
  split
  · exact takes_run_throw _
  · refine takes_run_bind (takes_fromBackend (takes_transacted_aside haside
      (HistoryBackend.serves_revisionSync (fun _ h => h) _))) fun revision => ?_
    refine takes_run_bind (takes_run_result _) fun _ => ?_
    exact takes_fromBackend (takes_transacted
      (HistoryBackend.serves_replaceSync _ _ _ _ _ haside hreplace) fun _ h => h)

/-! ### The history -/

theorem takes_changeToken : Takes P rights i owner (changeToken P H i).run :=
  takes_run_bind (takes_fromBackend (takes_transacted_aside haside
    (HistoryBackend.serves_changeTokenSync (fun _ h => h)))) fun _ => takes_run_pure _

theorem takes_historyPage (query : HistoryQuery) :
    Takes P rights i owner (historyPage P H i query).run :=
  takes_fromBackend (takes_transacted_aside haside (Artifacts.serves_querySync (fun _ h => h) _))

theorem takes_searchHistory (params : QueryParams) (collapse : Bool) :
    Takes P rights i owner (searchHistory P H i params owner collapse).run := by
  refine takes_run_bind takes_look fun _ => ?_
  refine takes_run_bind (takes_changeToken haside) fun token => ?_
  refine takes_run_bind takes_look fun elapsed => ?_
  refine takes_run_bind (takes_run_result _) fun cursor => ?_
  refine takes_run_bind (takes_run_result _) fun _ => ?_
  refine takes_run_bind (takes_historyPage haside _) fun found => ?_
  refine takes_run_bind (takes_changeToken haside) fun token => ?_
  exact takes_run_bind (takes_run_result _) fun _ => takes_run_pure _

theorem takes_queryPage (params : QueryParams) (collapse : Bool) :
    Takes P rights i owner (queryPage P H i params owner collapse).run := by
  rw [queryPage]
  split
  · exact takes_run_throw _
  split
  · exact takes_run_throw _
  split
  · split
    · exact takes_run_throw _
    · exact takes_run_bind (takes_searchHistory haside _ _) fun _ => takes_run_pure _
  split
  · exact takes_run_throw _
  · exact takes_run_bind (takes_historyPage haside _) fun _ => takes_run_pure _

theorem takes_queryHistory (params : QueryParams) :
    Takes P rights i owner (queryHistory P H i params owner).run := by
  refine takes_run_bind takes_readPreferences fun preferences => takes_observing ?_
  refine takes_run_bind (takes_changeToken haside) fun before => ?_
  refine takes_run_bind (takes_observe _) fun _ => ?_
  refine takes_run_bind (takes_queryPage haside _ _) fun history => ?_
  refine takes_run_bind (takes_changeToken haside) fun after => ?_
  refine takes_run_bind (takes_observe _) fun observed => ?_
  split
  · exact takes_run_throw _
  · exact takes_run_pure _

theorem takes_historyRevision : Takes P rights i owner (historyRevision P H i).run := by
  refine takes_observing (takes_run_bind (takes_outcome (takes_changeToken haside)) fun r => ?_)
  cases r with
  | ok token => exact takes_run_bind (takes_observe _) fun _ => takes_run_pure _
  | error error => exact takes_run_bind takes_invalidate fun _ => takes_run_throw _

/-- The methods that leave the history alone. -/
theorem takes_dispatchMethod {method : Method} (hchanges : ¬method.Changes)
    (hleases : method.Leases → rights.leases) (htokens : method.Holds → rights.tokens) :
    Takes P rights i owner (dispatchMethod P H i method owner).run := by
  cases method with
  | editBegin params =>
      exact takes_dispatchEntry (htokens trivial) fun _ =>
        takes_beginEdit haside (htokens trivial) (hleases trivial) _
  | editCancel id =>
      exact takes_dispatchEntry (htokens trivial) fun _ => takes_cancelEdit (htokens trivial) _
  | details params =>
      exact takes_run_bind (takes_loadDetails haside _ _) fun _ => takes_run_pure _
  | sessionBegin => exact takes_authorized (htokens trivial) Authority.local_sessionBegin
  | sessionHidden id => exact takes_authorized (htokens trivial) (Authority.local_sessionHidden id)
  | sessionEnd id => exact takes_authorized (htokens trivial) (Authority.local_sessionEnd id)
  | sessionWait id rounds =>
      exact takes_authorized (htokens trivial) (Authority.local_sessionWait id rounds)
  | wipePrepare => exact takes_authorized (htokens trivial) Authority.local_wipePrepare
  | operationStatus id => exact takes_operationStatus id
  | query params => exact takes_queryHistory haside params
  | historyRevision => exact takes_historyRevision haside
  | interactive =>
      exact takes_run_bind takes_maxEntryBytes fun _ =>
        takes_run_bind (takes_fromBackend (takes_interactiveScreenshot haside)) fun _ =>
          takes_run_pure _
  | screenshot region =>
      exact takes_run_bind takes_maxEntryBytes fun _ => takes_captureScreenshotAction haside _ _
  | publishText text => exact takes_run_bind takes_maxEntryBytes fun _ => takes_publish haside _ _ _
  | publishSensitive text seconds => exact takes_publishSensitive haside _ _
  | publishFiles selection =>
      exact takes_run_bind takes_maxEntryBytes fun _ => takes_publishFiles haside _ _
  | other => exact takes_run_bind takes_elsewhere fun _ => takes_run_pure _
  | _ => exact absurd trivial hchanges

end Aside

end Parts

/-! ## Requests -/

section Requests

variable {P : Platform} {H : Machine F} {i : Nat} {leases stages governs tokens : Prop}
  {owner : Owner}

/-- What request `i` may do. -/
def asking (i : Nat) (leases stages governs tokens : Prop) : Rights :=
  ⟨Asked i, leases, stages, governs, governs, False, tokens⟩

/-- The program does what a method with these rights may do. -/
abbrev Serving (P : Platform) (i : Nat) (leases stages governs tokens : Prop) (owner : Owner)
    (m : Work F α) : Prop :=
  Takes P (asking i leases stages governs tokens) i owner m

theorem governs_asking (hgoverns : governs) :
    (asking i leases stages governs tokens).Governs (.request i) := by
  refine ⟨fun r h => ⟨rfl, ?_⟩, hgoverns⟩
  cases r with
  | insert mime bytes => cases h
  | _ => rfl

/-! ### Entries -/

theorem serving_mutateGated (id : String) (expected : Option Nat) {mutation : BackendMutation}
    (hstages : mutation.Stages → stages) :
    Serving P i leases stages governs tokens owner
      (mutateGated P H i id expected mutation).run := by
  cases mutation with
  | annotate maxBytes =>
      obtain rfl : stages = True := eq_true (hstages trivial)
      exact takes_run_bind
        (takes_transacted_aside asked_of_aside (HistoryBackend.Annotate.serves_stage
        (fun _ h => h) _ _ _)) fun _ => Annotate.takes_launch trivial _
  | _ => exact takes_transacted (HistoryBackend.serves_mutateSync _ _ _ _) asked_of_ordinary

theorem serving_mutate (id : String) (expected : Option Nat) {mutation : BackendMutation}
    (hstages : mutation.Stages → stages) :
    Serving P i leases stages governs tokens owner (mutate P H i id expected mutation).run := by
  refine takes_run_bind (takes_run_result _) fun _ => takes_gated ?_
  split
  · exact takes_run_bind (takes_lift (takes_onJobs _)) fun _ => serving_mutateGated _ _ hstages
  · exact serving_mutateGated _ _ hstages

theorem serving_paste (params : Authority.ActionParams) (maxBytes : Nat) :
    Serving P i leases True governs True owner (paste P H i params maxBytes owner).run := by
  rw [paste]
  split
  · exact takes_run_throw _
  next session _ =>
    refine takes_run_bind (takes_onAuthority trivial (Authority.local_validatePaste session))
      fun target => ?_
    refine takes_run_bind (takes_run_result _) fun mutation => ?_
    refine takes_run_bind (takes_fromBackend (serving_mutate _ _ fun _ => trivial))
      fun operation => ?_
    exact takes_run_bind (takes_armTarget trivial _ _) fun target => takes_run_pure _

theorem serving_executeAction (params : Authority.ActionParams) (details : EntryDetails)
    (maxBytes : Nat) :
    Serving P i leases True governs True owner
      (executeAction P H i params details maxBytes owner).run := by
  rw [executeAction]
  split
  · exact takes_run_bind (takes_launchAction _ _) fun _ => takes_run_pure _
  · split
    · exact serving_paste params maxBytes
    · refine takes_run_bind (takes_run_result _) fun mutation => ?_
      exact takes_run_bind (takes_fromBackend (serving_mutate _ _ fun _ => trivial)) fun _ =>
        takes_run_pure _

theorem serving_action (params : Authority.ActionParams) (maxBytes : Nat) :
    Serving P i leases True governs True owner (action P H i params maxBytes owner).run := by
  refine takes_run_bind (takes_loadDetails asked_of_aside _ _) fun details => ?_
  exact takes_run_bind (takes_run_result _) fun _ => serving_executeAction _ _ _

theorem serving_deleteEntries (targets : List EntryTarget) :
    Serving P i leases stages governs tokens owner (deleteEntries P H i targets).run := by
  refine takes_run_bind (takes_run_result _) fun _ => ?_
  exact takes_run_bind (takes_fromBackend (takes_transacted
    (HistoryBackend.serves_removeEntries _ _) asked_of_ordinary)) fun _ => takes_run_pure _

/-! ### Edits -/

theorem serving_commitEdit (params : EditCommitParams) (maxBytes : Nat) :
    Serving P i leases stages governs True owner (commitEdit P H i params maxBytes owner).run := by
  refine takes_run_bind (takes_onAuthority trivial (Authority.local_validateSession _))
    fun target => ?_
  refine takes_run_bind (takes_onAuthority trivial (Authority.local_redeemEdit _)) fun lease => ?_
  refine takes_run_bind (takes_replaceLeased asked_of_aside _ _ _
    (asked_of_ordinary _ trivial)) fun replacement => ?_
  exact takes_run_bind (takes_onAuthority trivial (Authority.local_prepareSession _ _)) fun _ =>
    takes_run_pure _

/-! ### Wipe -/

theorem serving_wipeLocked (hgoverns : governs) :
    Serving P i leases stages governs True owner (wipeLocked P H i).run := by
  refine takes_run_bind (takes_quiesceLocked (governs_asking hgoverns)) fun _ => ?_
  refine takes_run_bind (takes_clearEdits trivial) fun _ => ?_
  refine takes_run_bind (takes_fromBackend (serving_mutate _ _ fun h => h.elim)) fun operation => ?_
  refine takes_run_bind (takes_outcome (takes_resume (governs_asking hgoverns))) fun resumed => ?_
  cases resumed <;> exact takes_run_pure _

theorem serving_commitWipe (hgoverns : governs) (params : WipeParams) :
    Serving P i leases stages governs True owner (commitWipe P H i params owner).run := by
  rw [commitWipe]
  split
  · exact takes_run_throw _
  · refine takes_run_bind (takes_onAuthority trivial (Authority.local_redeemWipe _))
      fun challenge => ?_
    refine takes_run_bind (takes_unexpired _ _) fun _ => ?_
    exact takes_settled hgoverns (serving_wipeLocked hgoverns)

/-! ### Dispatch -/

theorem serving_dispatchMethod (method : Method) :
    Serving P i method.Leases method.Stages method.Governs method.Holds owner
      (dispatchMethod P H i method owner).run := by
  have haside : ¬method.Changes →
      Serving P i method.Leases method.Stages method.Governs method.Holds owner
        (dispatchMethod P H i method owner).run :=
    fun hchanges => takes_dispatchMethod asked_of_aside hchanges id id
  cases method with
  | entryAction params => exact takes_dispatchEntry trivial fun _ => serving_action _ _
  | editCommit params => exact takes_dispatchEntry trivial fun _ => serving_commitEdit _ _
  | deleteEntries targets => exact serving_deleteEntries _
  | wipeCommit params => exact serving_commitWipe trivial params
  | setPaused paused priv => exact takes_setPaused (governs_asking trivial) trivial _ _
  | updateSettings update => exact takes_updateSettings (governs_asking trivial) trivial _
  | _ => exact haside id

theorem serving_dispatchReserved (method : Method) :
    Serving P i method.Leases method.Stages method.Governs method.Holds owner
      (dispatchReserved P H i method owner).run :=
  takes_run_bind (serving_dispatchMethod method) fun answer => takes_track answer

theorem serving_dispatchOwned (reserves : Bool) (method : Method) :
    Serving P i method.Leases method.Stages method.Governs method.Holds owner
      (dispatchOwned P H i reserves method owner) := by
  refine takes_bind (takes_onJobs _) fun _ => ?_
  split
  · refine takes_bind (takes_onJobs _) fun reserved => ?_
    cases reserved with
    | error error => exact takes_pure _
    | ok _ =>
        refine takes_bind (serving_dispatchReserved method) fun reply => ?_
        exact takes_bind (takes_onJobs _) fun _ => takes_pure _
  · exact serving_dispatchReserved method

end Requests

/-! ## Transports -/

section Transports

variable {P : Platform} {H : Machine F} {rights : Rights} {i : Nat}
  {owner : Owner}

theorem local_drop (name : String) (held : Held) (s : Authority) :
    Authority.Local i owner s (s.drop name held) := by
  cases held with
  | sessions =>
      exact Authority.local_sessions fun _ session h =>
        .inl ⟨session, (Option.filter_eq_some_iff.mp h).1, rfl⟩
  | edits => exact Authority.local_edits fun _ _ h => Tokens.release_some h
  | challenges => exact Authority.local_challenges fun _ _ h => .inl (Tokens.release_some h)

theorem dropped_drop (name : String) (held : Held) (s : Authority) :
    Dropped (s.drop name held) name held := by
  cases held with
  | sessions =>
      intro id session h
      simpa using (Option.filter_eq_some_iff.mp h).2
  | edits =>
      intro id lease h
      simpa [Token.owner] using (Option.filter_eq_some_iff.mp h).2
  | challenges =>
      intro id challenge h
      simpa [Token.owner] using (Option.filter_eq_some_iff.mp h).2

/-- What is dropped belongs to the owner, and all of it is. -/
theorem takes_sweep {held : Held} {name : String} :
    Takes P rights i owner (sweep held name : Act F Unit).run := by
  refine takes_attempt fun c s r t hop => ?_
  obtain ⟨rfl, rfl⟩ := Prod.mk.inj (Option.some.inj hop)
  have h : Turn P rights i owner s { s with authority := s.authority.drop name held } :=
    .ofAuthority (local_drop name held s.authority) (.inr (.inr (.inl ⟨held, name, rfl⟩)))
  refine { h with swept := fun kind other hswept => ?_, sweeps := fun kind other hswept => ?_ }
  · simp [hswept]
  · simp only [Bool.or_eq_true, Bool.and_eq_true, decide_eq_true_eq] at hswept
    rcases hswept with hswept | ⟨⟨rfl, rfl⟩, hdeparted⟩
    · exact .inl hswept
    · exact .inr ⟨hdeparted, dropped_drop _ _ s.authority⟩

theorem takes_releaseOwner (name : String) :
    Takes P rights i owner (releaseOwner i name : Act F Unit).run := by
  refine takes_run_bind takes_sweep fun _ => ?_
  refine takes_run_bind takes_sweep fun _ => ?_
  refine takes_run_bind (takes_lift (takes_onJobs _)) fun _ => ?_
  exact takes_sweep

theorem takes_alive (transport : Transport) (name : String) :
    Takes P rights i owner (alive transport name : Work F Bool) := by
  refine Thread.each_atomic fun c s b t hop => ?_
  cases hop
  exact .refl s

theorem serving_callerDispatch (transport : Transport) (reserves : Bool) (method : Method)
    (name : String) :
    Serving P i method.Leases method.Stages method.Governs method.Holds (some name)
      (callerDispatch P H i transport reserves method name) := by
  have hrelease : Serving P i method.Leases method.Stages method.Governs method.Holds (some name)
      (releaseOwner i name : Act F Unit).run := takes_releaseOwner name
  refine takes_bind (takes_alive _ _) fun there => ?_
  split
  · refine takes_bind (serving_dispatchOwned reserves method) fun reply => ?_
    refine takes_bind (takes_alive _ _) fun there => ?_
    dsimp only
    split
    · exact takes_bind hrelease fun _ => takes_pure _
    · exact takes_pure _
  · dsimp only
    split
    · exact takes_bind hrelease fun _ => takes_pure _
    · exact takes_pure _

/-! ## What goes on beside the requests -/

/-- An operation replaces entries. -/
def annotated (id : Uuid) : Rights := .only fun source r => source = .operation id ∧ adds r = false

/-- What a captured selection may ask of the store. -/
def Handover (i : Nat) (mime : String) (bytes : Bytes) (source : Source) (r : Request) : Prop :=
  source = .capture i ∧ (r.isAside = true ∨ r = .insert (captureMime mime) bytes)

/-- A selection is captured. -/
def captured (i : Nat) (mime : String) (bytes : Bytes) : Rights :=
  { Rights.only (Handover i mime bytes) with captures := True }

/-- The capture owner changes the policy. -/
def admitted : Rights := .only fun source r => source = .admission ∧ adds r = false

/-- The store is left alone. -/
def idle : Rights := { Rights.only fun _ _ => False with tokens := True }

theorem takes_pollTask (id : Uuid) (move : Operations.TaskMove) :
    Takes P rights i owner (pollTask id move : Work F Unit) := by
  refine Thread.each_atomic fun c s b t hop => ?_
  obtain ⟨backend, -, heq⟩ := Option.map_eq_some_iff.mp hop
  cases heq
  exact .of_same rfl

theorem takes_startWork (id : Uuid) :
    Takes P rights i owner (startWork i id : Work F (Option AnnotationStage)) := by
  refine Thread.each_atomic fun c s b t hop => ?_
  split at hop
  · split at hop
    · obtain ⟨backend, -, heq⟩ := Option.map_eq_some_iff.mp hop
      cases heq
      exact .of_same rfl
    · obtain ⟨backend, -, heq⟩ := Option.map_eq_some_iff.mp hop
      cases heq
      exact .of_same rfl
  · cases hop

theorem takes_aborted (id : Uuid) : Takes P rights i owner (aborted id : Work F Bool) := by
  refine Thread.each_atomic fun c s b t hop => ?_
  split at hop
  · obtain ⟨backend, -, heq⟩ := Option.map_eq_some_iff.mp hop
    cases heq
    exact .of_same rfl
  · cases hop
    exact .refl s

theorem takes_beginCommit (id : Uuid) :
    Takes P rights i owner (beginCommit id : BackendAct F Bool).run := by
  refine takes_attempt fun c s r t hop => ?_
  split at hop
  · cases hop
    exact .of_same rfl
  · cases hop

theorem Annotate.takes_run {id : Uuid} (staged : AnnotationStage)
    (hreplace : ∀ bytes, rights.requests (.operation id)
      (.replace staged.opaqueId staged.revision "image/png" bytes)) :
    Takes P rights i owner (Annotate.run P H i id staged).run := by
  refine takes_run_bind takes_look fun _ => ?_
  refine takes_run_bind (takes_beginCommit id) fun began => ?_
  split
  · have hserves : Serves P (rights.requests (.operation id)) (HistoryBackend.Annotate.apply P H
        staged.opaqueId staged.revision staged.output staged.maxBytes) :=
      HistoryBackend.Annotate.serves_apply hreplace _ _
    exact takes_locked (takes_onBackend hserves fun _ h => h)
  · exact takes_run_throw _

theorem Annotate.takes_complete (id : Uuid) :
    Takes P (annotated id) i owner (Annotate.complete P H i id) := by
  refine takes_bind (takes_startWork id) fun found => ?_
  cases found with
  | none => exact takes_pure _
  | some staged =>
      refine takes_bind (takes_aborted id) fun struck => ?_
      split
      · exact takes_pure _
      · refine takes_bind (Annotate.takes_run staged fun bytes => ⟨rfl, rfl⟩) fun worked => ?_
        refine takes_bind (takes_pollTask _ _) fun _ => ?_
        refine takes_bind (takes_pollTask _ _) fun _ => ?_
        refine takes_bind (takes_pollTask _ _) fun _ => ?_
        exact takes_bind (takes_pollTask _ _) fun _ => takes_pure _

theorem takes_setAdmission (enabled : Bool) :
    Takes P admitted i owner (setAdmission P H i enabled).run := by
  have hsource : ∀ r : Request, aboutPolicy r = true → admitted.requests .admission r :=
    fun r h => by
    refine ⟨rfl, ?_⟩
    cases r with
    | insert mime bytes => cases h
    | _ => rfl
  refine takes_run_bind (takes_attempt fun c s r t hop => ?_) fun _ => ?_
  · split at hop <;> cases hop
    exact .of_same rfl
  refine takes_run_bind (takes_outcome (takes_run_bind (takes_readPolicy hsource) fun policy =>
    takes_applyPolicy hsource _)) fun changed => ?_
  refine takes_run_bind (takes_attempt fun c s r t hop => ?_) fun _ => takes_run_result _
  cases hop
  exact .of_same rfl

theorem takes_poll : Takes P rights i owner (poll : Work F Unit) := by
  refine Thread.each_atomic fun c s b t hop => ?_
  have htask : ∀ {jobs : Jobs}, t = { s with jobs } → Turn P rights i owner s t := by
    rintro jobs rfl
    exact .of_same rfl
  split at hop
  · split at hop
    iterate 4
      split at hop
      · cases hop
      · obtain ⟨backend, -, heq⟩ := Option.map_eq_some_iff.mp hop
        cases heq
        exact htask rfl
    iterate 2
      split at hop
      · obtain ⟨backend, -, heq⟩ := Option.map_eq_some_iff.mp hop
        cases heq
        exact htask rfl
      · cases hop
    · obtain ⟨backend, -, heq⟩ := Option.map_eq_some_iff.mp hop
      cases heq
      exact htask rfl
    · cases hop
  · obtain ⟨backend, -, heq⟩ := Option.map_eq_some_iff.mp hop
    cases heq
    exact htask rfl
  · cases hop

theorem takes_elapse (time : Nat) : Takes P rights i owner (elapse time : Work F Unit) :=
  Thread.each_modify fun s =>
    { (Turn.refl s : Turn P rights i owner s s) with
      sweeps := fun _ _ h => .inl h
      aside := .inr (.inr (.inr ⟨time, rfl⟩)) }

theorem takes_admits {mime : String} {bytes : Bytes} :
    Takes P (captured i mime bytes) i owner (admits i : Work F (Option Nat)) := by
  refine Thread.each_atomic fun c s b t hop => ?_
  have hrefl : Turn P (captured i mime bytes) i owner s s := .refl s
  split at hop <;> cases hop
  · exact { hrefl with captures := .inr ⟨trivial, fun j hne => Function.update_of_ne hne _ _⟩ }
  · exact hrefl

theorem takes_enters {mime : String} {bytes : Bytes} (session : Nat) :
    Takes P (captured i mime bytes) i owner (enters i session : Work F Bool) := by
  refine Thread.each_atomic fun c s b t hop => ?_
  have hrefl : Turn P (captured i mime bytes) i owner s s := .refl s
  split at hop <;> cases hop
  · exact { hrefl with captures := .inr ⟨trivial, fun _ _ => rfl⟩ }
  · exact hrefl

theorem takes_leaves {mime : String} {bytes : Bytes} :
    Takes P (captured i mime bytes) i owner (leaves i : Work F Unit) :=
  Thread.each_modify fun s =>
    { (Turn.refl s : Turn P (captured i mime bytes) i owner s s) with
      captures := .inr ⟨trivial, fun _ _ => rfl⟩ }

theorem takes_handover (mime : String) (bytes : Bytes)
    (hrights : ∀ source r, Handover i mime bytes source r → rights.requests source r) :
    Takes P rights i owner
      (transacted i (.capture i) (Artifacts.ingest P H.toHost mime bytes)).run := by
  have hserves : Artifacts.Serves P (Handover i mime bytes (.capture i))
      (Artifacts.ingest P H.toHost mime bytes) :=
    Artifacts.serves_ingest (fun _ h => ⟨rfl, .inl h⟩) mime bytes ⟨rfl, .inr rfl⟩
  exact takes_transacted hserves fun r h => hrights _ r h

theorem takes_capture (mime : String) (bytes : Bytes) :
    Takes P (captured i mime bytes) i owner (capture P H i mime bytes) := by
  refine takes_bind takes_admits fun session => ?_
  cases session with
  | none => exact takes_pure _
  | some session =>
      refine takes_bind (takes_enters session) fun entered => ?_
      split
      · exact takes_bind (takes_handover mime bytes fun _ _ h => h) fun _ => takes_leaves
      · exact takes_pure _

theorem takes_files (files : F) : Takes P rights i owner (program P H i (.files files)) := by
  refine takes_bind (Thread.each_modify fun s => ?_) fun _ => takes_pure _
  exact .of_same rfl

theorem takes_clock (clock : Nat) : Takes P rights i owner (program P H i (.clock clock)) := by
  refine takes_bind (Thread.each_modify fun s => ?_) fun _ => takes_pure _
  exact .of_same rfl

end Transports

/-! ## The steps of calls -/

/-- Whom a call serves. -/
def Call.owner : Call F → Owner
  | .request (some (_, owner)) _ _ => some owner
  | _ => none

/-- What the statements of a call may do. -/
def Call.rights (i : Nat) : Call F → Rights
  | .request _ _ method => asking i method.Leases method.Stages method.Governs method.Holds
  | .publish .. => asking i False False False False
  | Call.annotate id => annotated id
  | .ingest mime bytes => captured i mime bytes
  | .setAdmission _ => admitted
  | .startup | .shutdown => asking i False False True False
  | _ => .only fun _ _ => False

/-- The transport marks the owner as gone. -/
def mark (name : String) (s : Daemon F) : Daemon F :=
  { s with departed := Function.update s.departed name true }

/-- A step of a call. -/
def Goes (P : Platform) (i : Nat) (call : Call F) (s t : Daemon F) : Prop :=
  Turn P (call.rights i) i call.owner s t ∨ ∃ name, call = .disconnect name ∧ t = mark name s

section Goes

variable {P : Platform} {H : Machine F} {i : Nat} {owner : Owner}

theorem goes_of_takes {call : Call F} {m : Thread (Daemon F) Chance α}
    (h : Takes P (call.rights i) i call.owner m) : m.Each (Goes P i call) :=
  Thread.Each.mono h fun _ _ => .inl

theorem goes_disconnect (name : String) :
    (disconnect i name : Work F Reply).Each (Goes P i (.disconnect name)) := by
  refine Thread.each_bind (Thread.each_modify fun s => .inr ⟨name, rfl, rfl⟩) fun _ => ?_
  exact Thread.each_bind (goes_of_takes (takes_releaseOwner name)) fun _ => Thread.each_pure _

theorem takes_startup : Serving P i False False True False owner (program P H i .startup) := by
  refine takes_bind (takes_initializeRetention (governs_asking trivial) trivial) fun _ => ?_
  exact takes_bind (takes_reconcileCapture (governs_asking trivial) trivial) fun _ => takes_pure _

theorem takes_shutdown : Serving P i False False True False owner (program P H i .shutdown) :=
  takes_bind (takes_stopCapture (governs_asking trivial) trivial) fun _ => takes_pure _

theorem program_goes (i : Nat) (call : Call F) : (program P H i call).Each (Goes P i call) := by
  cases call with
  | disconnect name => exact goes_disconnect name
  | request client reserves method =>
      cases client with
      | none => exact goes_of_takes (serving_dispatchOwned reserves method)
      | some client => exact goes_of_takes (serving_callerDispatch _ _ _ _)
  | publish mime bytes => exact goes_of_takes (takes_publishSelection asked_of_aside mime bytes)
  | cancel id owner => exact goes_of_takes (takes_bind (takes_onJobs _) fun _ => takes_pure _)
  | release name => exact goes_of_takes (takes_bind (takes_releaseOwner name) fun _ => takes_pure _)
  | observed id => exact goes_of_takes (takes_bind (takes_onJobs _) fun _ => takes_pure _)
  | lagged => exact goes_of_takes (takes_bind (takes_onJobs _) fun _ => takes_pure _)
  | annotate id => exact goes_of_takes (Annotate.takes_complete id)
  | poll => exact goes_of_takes (takes_bind takes_poll fun _ => takes_pure _)
  | ingest mime bytes =>
      exact goes_of_takes (takes_bind (takes_capture mime bytes) fun _ => takes_pure _)
  | setAdmission enabled =>
      exact goes_of_takes (takes_bind (takes_setAdmission enabled) fun _ => takes_pure _)
  | startup => exact goes_of_takes takes_startup
  | shutdown => exact goes_of_takes takes_shutdown
  | files files => exact goes_of_takes (takes_files files)
  | clock clock => exact goes_of_takes (takes_clock clock)
  | elapse time => exact goes_of_takes (takes_bind (takes_elapse time) fun _ => takes_pure _)

end Goes

end ClipDaemon.Daemon
