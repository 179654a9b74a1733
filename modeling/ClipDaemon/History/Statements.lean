import ClipDaemon.History.Mutation
import ClipDaemon.Lib.Guarantee
import ClipDaemon.Store.Beside

/-!
# The statements of the backend

What the statements of a request may do to the store: nothing, or one request that is allowed.
Most programs make requests only that are beside the history.  Those that change the history do
so with one request, and what they do after it is no failure.
-/

namespace ClipDaemon

open Thread (attempt outcome result FailsWith Succeeds)
open Capture (captureMime)

namespace Artifacts

variable {F α β : Type} {P : Platform} {H : Host F} {allowed : Request → Prop}

/-- A statement that leaves the store alone, or that makes a request. -/
structure Asks (P : Platform) (allowed : Request → Prop) (s t : Backend F) : Prop where
  transaction : t.transaction = s.transaction
  store : t.store = s.store ∨
    ∃ r env faults, allowed r ∧ t.store = s.store.step P (.request r env faults)

theorem Asks.refl (s : Backend F) : Asks P allowed s s := ⟨rfl, .inl rfl⟩

/-- Every statement of the program makes a request that is allowed, at most. -/
def Serves (P : Platform) (allowed : Request → Prop) (m : Act F α) : Prop :=
  m.run.Each (Asks P allowed)

/-! ## Rules -/

theorem serves_pure (a : α) : Serves P allowed (pure a : Act F α) := trivial

theorem serves_throw (e : BackendError) : Serves P allowed (throw e : Act F α) := trivial

theorem serves_result (r : BackendResult α) : Serves P allowed (result r : Act F α) := trivial

theorem serves_bind {m : Act F α} {k : α → Act F β} (hm : Serves P allowed m)
    (hk : ∀ a, Serves P allowed (k a)) : Serves P allowed (m >>= k) :=
  Thread.each_run_bind hm hk

theorem serves_outcome {m : Act F α} (hm : Serves P allowed m) : Serves P allowed (outcome m) :=
  Thread.each_bind hm fun _ => trivial

/-- A statement that does not touch the store. -/
theorem serves_statement {op : Chance → Backend F → Option (BackendResult α × Backend F)}
    (h : ∀ c s r t, op c s = some (r, t) → t.store = s.store ∧ t.transaction = s.transaction) :
    Serves P allowed (attempt op) :=
  Thread.each_attempt fun c s r t hop => ⟨(h c s r t hop).2, .inl (h c s r t hop).1⟩

theorem serves_read (f : Backend F → α) : Serves P allowed (read f) := by
  refine serves_statement fun c s r t hop => ?_
  cases hop
  exact ⟨rfl, rfl⟩

theorem serves_write {f : Backend F → Backend F}
    (h : ∀ s, (f s).store = s.store ∧ (f s).transaction = s.transaction) :
    Serves P allowed (write f) := by
  refine serves_statement fun c s r t hop => ?_
  cases hop
  exact h s

theorem serves_note (event : Event F) : Serves P allowed (note event : Act F Unit) :=
  serves_write fun _ => ⟨rfl, rfl⟩

/-- The store answers with a request, or not at all. -/
theorem asks_serve {c : Chance} {s t : Backend F} {r : Request} {env : Env}
    {answer : BackendResult Reply}
    (h : s.serve (s.store.db.execute c.faults (r.job P env)) c = (answer, t)) :
    t.transaction = s.transaction ∧ ((t.store = s.store ∧ ∃ e, answer = .error e) ∨
      (s.store.db.blocked = false ∧ t.store = s.store.step P (.request r env c.faults) ∧
        (s.store.db.execute c.faults (r.job P env)).1 = answer)) := by
  unfold Backend.serve at h
  split at h
  · cases h
    exact ⟨rfl, .inl ⟨rfl, _, rfl⟩⟩
  split at h
  · cases h
    exact ⟨rfl, .inl ⟨rfl, _, rfl⟩⟩
  next hopen =>
    split at h
    · cases h
      exact ⟨rfl, .inl ⟨rfl, _, rfl⟩⟩
    next hblocked =>
      cases h
      refine ⟨rfl, .inr ⟨by simpa using hblocked, ?_, rfl⟩⟩
      simp only [Bool.not_eq_true, Bool.not_eq_false'] at hopen
      simp [Store.step, hopen]

/-- An answer is computed from what is committed. -/
theorem execute_ok {r : Request} {env : Env} {faults : Faults} {db : Database} {reply : Reply}
    (hready : db.Ready) (h : (db.execute faults (r.job P env)).1 = .ok reply) :
    r.effect P env db.durable = .ok (reply, (db.execute faults (r.job P env)).2.durable) := by
  unfold Request.effect
  cases hjob : r.job P env with
  | direct body =>
      rw [hjob] at h
      simp only [Database.execute, hready.2, Option.getD_none] at h ⊢
      have hexec : body.exec faults.statements db.durable =
          (.ok reply, (body.exec faults.statements db.durable).2) := Prod.ext h rfl
      simp only [Job.eval, Prog.exec_ok hexec, Except.map]
  | transaction body =>
      rw [hjob] at h
      exact (Database.transaction_ok h).1

theorem serve_ok {c : Chance} {s t : Backend F} {r : Request} {env : Env} {reply : Reply}
    (hsettled : s.store.db.Settled)
    (h : s.serve (s.store.db.execute c.faults (r.job P env)) c = (.ok reply, t)) :
    r.effect P env s.committed = .ok (reply, t.committed) := by
  unfold Backend.serve at h
  split at h
  · cases h
  split at h
  · cases h
  split at h
  · cases h
  next hblocked =>
    obtain ⟨hanswer, rfl⟩ := Prod.mk.inj h
    have hready : s.store.db.Ready :=
      ⟨by simpa using hblocked, hsettled (by simpa using hblocked)⟩
    exact execute_ok hready hanswer

theorem serves_request {r : Request} (hr : allowed r) : Serves P allowed (request P H r) := by
  refine Thread.each_attempt fun c s answer t hop => ?_
  split at hop
  · cases hop
    exact .refl s
  · obtain ⟨htransaction, hstore⟩ := asks_serve (Option.some.inj hop)
    refine ⟨htransaction, hstore.imp (·.1) ?_⟩
    rintro ⟨-, hstep, -⟩
    exact ⟨r, _, _, hr, hstep⟩

theorem serves_ask {r : Request} (hr : allowed r) (pick : Reply → Option α) :
    Serves P allowed (ask P H r pick) := by
  refine serves_bind (serves_request hr) fun reply => ?_
  cases pick reply with
  | none => exact serves_throw _
  | some a => exact serves_pure a

/-! ## The programs of the registry -/

section Registry

variable (haside : ∀ r : Request, r.isAside = true → allowed r)
include haside

theorem serves_policy : Serves P allowed (policy P H) := serves_ask (haside _ rfl) _

omit haside in
theorem serves_candidates (before limit : Nat) :
    Serves P allowed (candidates before limit : Act F (List ArtifactRecord)) := by
  refine serves_statement fun c s r t hop => ?_
  have hserve := Option.some.inj hop
  unfold Backend.serve at hserve
  split at hserve
  · cases hserve
    exact ⟨rfl, rfl⟩
  split at hserve
  · cases hserve
    exact ⟨rfl, rfl⟩
  split at hserve <;> cases hserve <;> exact ⟨rfl, rfl⟩

omit haside in
theorem serves_ownedPath (path : FilePath) : Serves P allowed (ownedPath H path) := by
  unfold ownedPath
  split
  · exact serves_pure _
  · split
    · exact serves_pure _
    · refine serves_bind (serves_read _) fun real => ?_
      split
      · exact serves_pure _
      · refine serves_bind (serves_read _) fun found => ?_
        cases found with
        | error e => exact serves_pure _
        | ok metadata =>
            simp only
            split <;> exact serves_pure _

theorem serves_register (path : FilePath) (source mime : String) (bytes : Bytes) :
    Serves P allowed (register P H path source mime bytes) := by
  refine serves_bind (serves_ownedPath path) fun owned => ?_
  split
  · exact serves_throw _
  · refine serves_bind (serves_read _) fun found => ?_
    cases found with
    | error e => exact serves_throw _
    | ok metadata =>
        simp only
        split
        · exact serves_throw _
        · refine serves_bind (serves_read _) fun createdAt => ?_
          refine serves_bind (serves_note _) fun _ => ?_
          exact serves_bind (serves_request (haside _ rfl)) fun _ => serves_pure _

theorem serves_recordOf (path : FilePath) : Serves P allowed (recordOf P H path) := by
  unfold recordOf
  split
  · exact serves_throw _
  · exact serves_ask (haside _ rfl) _

theorem serves_activateIfGenerated (path : FilePath) :
    Serves P allowed (activateIfGenerated P H path) :=
  serves_bind (serves_recordOf haside path) fun _ => serves_write fun _ => ⟨rfl, rfl⟩

theorem serves_disown (path : FilePath) : Serves P allowed (disown P H path) := by
  refine serves_bind (serves_note _) fun _ => ?_
  refine serves_bind (serves_outcome (serves_request (haside _ rfl))) fun r => ?_
  cases r with
  | ok _ => exact serves_bind (serves_note _) fun _ => serves_pure _
  | error e => exact serves_bind (serves_note _) fun _ => serves_throw _

omit haside in
theorem serves_unlink (cleanup : Cleanup) (record : ArtifactRecord) :
    Serves P allowed (unlink H cleanup record) := by
  refine serves_statement fun c s r t hop => ?_
  split at hop <;> cases hop <;> exact ⟨rfl, rfl⟩

theorem serves_remove (cleanup : Cleanup) (record : ArtifactRecord) :
    Serves P allowed (remove P H cleanup record) := by
  refine serves_bind (serves_ownedPath _) fun owned => ?_
  split
  · exact serves_disown haside _
  · refine serves_bind (serves_read _) fun found => ?_
    split
    · exact serves_disown haside _
    · exact serves_throw _
    · split
      · exact serves_disown haside _
      · refine serves_bind (serves_unlink _ _) fun _ => ?_
        exact serves_bind (serves_request (haside _ rfl)) fun _ => serves_pure _

theorem serves_removeRegistered (path : FilePath) :
    Serves P allowed (removeRegistered P H path) := by
  refine serves_bind (serves_recordOf haside path) fun record => ?_
  cases record with
  | none => exact serves_write fun _ => ⟨rfl, rfl⟩
  | some record =>
      exact serves_bind (serves_remove haside _ _) fun _ => serves_write fun _ => ⟨rfl, rfl⟩

theorem serves_removeEach (cleanup : Cleanup) (active : Option FilePath)
    (records : List ArtifactRecord) : Serves P allowed (removeEach P H cleanup active records) := by
  induction records with
  | nil => exact serves_pure _
  | cons record records ih =>
      rw [removeEach]
      split
      · exact ih
      · refine serves_bind (serves_remove haside _ _) fun removed => ?_
        exact serves_bind ih fun _ => serves_pure _

theorem serves_prune (cleanup : Cleanup) (before : Nat) :
    Serves P allowed (prune P H cleanup before) := by
  refine serves_bind (serves_read _) fun active => ?_
  exact serves_bind (serves_candidates _ _) fun _ => serves_removeEach haside _ _ _

omit haside in
theorem serves_passing {m : Act F α} (hm : Serves P allowed m) : Serves P allowed (passing m) := by
  refine serves_bind (serves_write fun _ => ⟨rfl, rfl⟩) fun _ => ?_
  refine serves_bind (serves_outcome hm) fun r => ?_
  exact serves_bind (serves_write fun _ => ⟨rfl, rfl⟩) fun _ => serves_result r

theorem serves_reconcile : Serves P allowed (reconcile P H) := by
  refine serves_passing (serves_bind ?_ fun now => serves_prune haside _ _)
  refine serves_statement fun c s r t hop => ?_
  cases hop
  exact ⟨rfl, rfl⟩

omit haside in
theorem serves_clearActive : Serves P allowed (clearActiveSelection : Act F Unit) :=
  serves_write fun _ => ⟨rfl, rfl⟩

theorem serves_clearAll : Serves P allowed (clearAll P H) :=
  serves_bind serves_clearActive fun _ => serves_passing (serves_prune haside _ _)

omit haside in
theorem serves_publish : Serves P allowed (publish : Act F Unit) := by
  refine serves_statement fun c s r t hop => ?_
  cases hop
  exact ⟨rfl, rfl⟩

theorem serves_cleanupBackend : Serves P allowed (cleanupBackend P H) := by
  refine serves_bind ?_ fun _ => serves_reconcile haside
  refine serves_statement fun c s r t hop => ?_
  cases hop
  exact ⟨rfl, rfl⟩

theorem serves_querySync (query : HistoryQuery) : Serves P allowed (querySync P H query) := by
  refine serves_bind (serves_ask (haside _ rfl) _) fun page => ?_
  exact serves_bind (serves_outcome (serves_reconcile haside)) fun _ => serves_pure _

theorem serves_ingest (mime : String) (bytes : Bytes)
    (hinsert : allowed (.insert (captureMime mime) bytes)) :
    Serves P allowed (ingest P H mime bytes) := by
  refine serves_bind (serves_policy haside) fun limits => ?_
  split
  · exact serves_pure _
  · split
    · exact serves_pure _
    · refine serves_bind (serves_note _) fun _ => ?_
      refine serves_bind (serves_outcome (serves_request hinsert)) fun r => ?_
      cases r with
      | ok _ => exact serves_write fun _ => ⟨rfl, rfl⟩
      | error e =>
          refine serves_bind (serves_policy haside) fun later => ?_
          split
          · exact serves_throw _
          · exact serves_pure _

/-! ## Image files -/

omit haside in
theorem serves_uniquePath (directory : FilePath) (extension : String) :
    Serves P allowed (uniquePath directory extension : Act F FilePath) := by
  refine serves_statement fun c s r t hop => ?_
  cases hop
  exact ⟨rfl, rfl⟩

omit haside in
theorem serves_writePrivate (path : FilePath) (bytes : Bytes) :
    Serves P allowed (writePrivate H path bytes) := by
  refine serves_statement fun c s r t hop => ?_
  cases hop
  exact ⟨rfl, rfl⟩

theorem serves_createImageFile (source mime : String) (bytes : Bytes) :
    Serves P allowed (createImageFile P H source mime bytes) := by
  refine serves_bind ?_ fun directory => ?_
  · refine serves_statement fun c s r t hop => ?_
    split at hop
    · cases hop
      exact ⟨rfl, rfl⟩
    · split at hop <;> cases hop <;> exact ⟨rfl, rfl⟩
  refine serves_bind (serves_uniquePath _ _) fun path => ?_
  refine serves_bind (serves_writePrivate _ _) fun _ => ?_
  refine serves_bind (serves_outcome (serves_register haside _ _ _ _)) fun r => ?_
  cases r with
  | ok _ => exact serves_pure _
  | error e => exact serves_bind (serves_write fun _ => ⟨rfl, rfl⟩) fun _ => serves_throw _

theorem serves_saveImageFile (id : String) (expected : Option Nat) (maxBytes : Nat) :
    Serves P allowed (saveImageFile P H id expected maxBytes) := by
  refine serves_bind (serves_ask (haside _ rfl) _) fun stored => ?_
  refine serves_bind (serves_result _) fun _ => ?_
  split
  · exact serves_throw _
  refine serves_bind (serves_read _) fun content => ?_
  split
  · exact serves_throw _
  · refine serves_bind serves_publish fun _ => ?_
    exact serves_bind (serves_activateIfGenerated haside _) fun _ => serves_pure _
  · refine serves_bind (serves_createImageFile haside _ _ _) fun path => ?_
    refine serves_bind (serves_outcome serves_publish) fun r => ?_
    cases r with
    | ok _ => exact serves_bind (serves_activateIfGenerated haside _) fun _ => serves_pure _
    | error e => exact serves_bind (serves_removeRegistered haside _) fun _ => serves_throw _

end Registry

/-! ## Failures -/

/-- A statement that leaves the history as it is, unless the store is fenced. -/
def Steady (s t : Backend F) : Prop :=
    t.store.db.blocked = true ∨ SameEntries s.committed t.committed

theorem Steady.refl (s : Backend F) : Steady s s := .inr (.refl _)

theorem Asks.steady {s t : Backend F} (h : Asks P (fun r => r.isAside = true) s t) :
    Steady s t := by
  rcases h.store with heq | ⟨r, env, faults, hr, heq⟩
  · exact .inr (by rw [Backend.committed, Backend.committed, heq]; exact .refl _)
  · refine .inr ?_
    rw [Backend.committed, Backend.committed, heq]
    rcases Store.request_durable P s.store r env faults with hsame | ⟨reply, heffect⟩
    · rw [hsame]
      exact .refl _
    · exact Request.effect_isAside hr heffect

theorem steady_of_serves {m : Act F α} (h : Serves P (fun r => r.isAside = true) m) :
    m.run.Each Steady :=
  Thread.Each.mono h fun _ _ => Asks.steady

theorem until_of_serves {Q : BackendResult α → Prop} {m : Act F α}
    (h : Serves P (fun r => r.isAside = true) m) : m.run.Until Steady Q :=
  Thread.until_of_each (steady_of_serves h)

/-- A transaction that fails is rolled back, or fences the store. -/
theorem transaction_error {β : Type} {faults : Faults} {body : Sql β} {db : Database}
    {e : BackendError} (h : (db.transaction faults body).1 = .error e) :
    (db.transaction faults body).2.blocked = true ∨ (db.transaction faults body).2 = db := by
  unfold Database.transaction at h ⊢
  split
  · exact .inr rfl
  · split
    · exact .inr rfl
    · split
      next value written hexec =>
        split
        next landed hcommit => cases landed <;> exact .inl rfl
        next hcommit =>
          split
          · exact .inl rfl
          next hsidecar =>
            exfalso
            simp_all
      next error written hexec =>
        split
        · exact .inl rfl
        · exact .inr rfl

/-- What the database answers to a request. -/
theorem execute_answer (P : Platform) (r : Request) (env : Env) (faults : Faults) (db : Database) :
    (∃ reply t t', (db.execute faults (r.job P env)).1 = .ok reply ∧
      r.effect P env t = .ok (reply, t')) ∨
    (db.execute faults (r.job P env)).2.blocked = true ∨
      (db.execute faults (r.job P env)).2.durable = db.durable := by
  unfold Request.effect
  cases r.job P env with
  | direct body => exact .inr (.inr rfl)
  | transaction body =>
      simp only [Database.execute, Job.eval]
      cases hanswer : (db.transaction faults body).1 with
      | ok reply => exact .inl ⟨reply, db.durable, _, rfl, (Database.transaction_ok hanswer).1⟩
      | error e =>
          refine .inr ((transaction_error hanswer).imp_right fun heq => ?_)
          rw [heq]

/-- A request that was not answered leaves the history as it is. -/
theorem until_request (r : Request) :
    (request P H r).run.Until Steady fun answer =>
      ∃ reply env t t', answer = .ok reply ∧ r.effect P env t = .ok (reply, t') := by
  refine Thread.until_attempt fun c s answer t hop => ?_
  split at hop
  · cases hop
    exact .inl (.refl s)
  · obtain ⟨-, ⟨hsame, -⟩ | ⟨-, hstep, hanswer⟩⟩ := asks_serve (Option.some.inj hop)
    · exact .inl (.inr (by rw [Backend.committed, Backend.committed, hsame]; exact .refl _))
    · cases hopen : s.store.isOpen with
      | false =>
          refine .inl (.inr ?_)
          rw [Backend.committed, Backend.committed, hstep, Store.step, hopen]
          exact .refl _
      | true =>
          rw [Store.step, hopen, if_pos rfl] at hstep
          rcases execute_answer P r ⟨H.world s.files, c.uuid⟩ c.faults s.store.db with
            ⟨reply, u, u', hok, heffect⟩ | hblocked | hdurable
          · exact .inr ⟨reply, _, u, u', hanswer.symm.trans hok, heffect⟩
          · exact .inl (.inl (by rw [hstep]; exact hblocked))
          · refine .inl (.inr ?_)
            rw [Backend.committed, Backend.committed, hstep, Store.committed, Store.committed]
            exact hdurable ▸ .refl _

theorem until_requested {E : BackendError → Prop} (r : Request) :
    (request P H r).run.Until Steady (FailsWith E) := by
  refine (until_request r).mono (fun _ _ h => h) ?_
  rintro answer ⟨reply, -, -, -, rfl, -⟩
  exact Thread.failsWith_ok reply

end Artifacts

/-! ## The changes of the history -/

namespace HistoryBackend

open Artifacts (Backend Serves Steady serves_pure serves_throw serves_result serves_bind
  serves_outcome serves_statement serves_read serves_request serves_ask serves_publish
  serves_clearActive serves_uniquePath serves_writePrivate serves_saveImageFile
  serves_cleanupBackend steady_of_serves until_of_serves until_requested)

variable {F α : Type} {P : Platform} {H : Machine F} {allowed : Request → Prop}

section Aside

variable (haside : ∀ r : Request, r.isAside = true → allowed r)
include haside

theorem serves_selected (id : String) (expected : Option Nat) :
    Serves P allowed (selected P H id expected) := serves_ask (haside _ rfl) _

theorem serves_detailsSync (id : String) (maxTextBytes : Nat) :
    Serves P allowed (detailsSync P H id maxTextBytes) :=
  serves_bind (serves_selected haside id none) fun _ => serves_read _

theorem serves_changeTokenSync : Serves P allowed (changeTokenSync P H) :=
  serves_ask (haside _ rfl) _

theorem serves_revisionSync (id : String) : Serves P allowed (revisionSync P H id) :=
  serves_ask (haside _ rfl) _

theorem serves_selectedBytes (id : String) (expected : Option Nat) (maxBytes : Nat) :
    Serves P allowed (selectedBytes P H id expected maxBytes) := by
  refine serves_bind (serves_selected haside id expected) fun stored => ?_
  exact serves_bind (serves_result _) fun _ => serves_pure _

theorem serves_selectedImage (id : String) (expected : Option Nat) (maxBytes : Nat) :
    Serves P allowed (selectedImage P H id expected maxBytes) := by
  refine serves_bind (serves_selectedBytes haside id expected maxBytes) fun stored => ?_
  split
  · exact serves_pure _
  · exact serves_throw _

theorem serves_restoreEntry (i : Uuid) (id : String) (expected : Option Nat) (maxBytes : Nat) :
    Serves P allowed (restoreEntry P H i id expected maxBytes) := by
  refine serves_bind (serves_selectedBytes haside id expected maxBytes) fun stored => ?_
  refine serves_bind (serves_read _) fun publication => ?_
  refine serves_bind (serves_result _) fun _ => ?_
  refine serves_bind serves_publish fun _ => ?_
  exact serves_bind serves_clearActive fun _ => serves_pure _

omit haside in
theorem serves_publishBytes (mime : String) (bytes : Bytes) (maxBytes : Nat) :
    Serves P allowed (publishBytes mime bytes maxBytes : Artifacts.Act F Unit) :=
  serves_bind (serves_result _) fun _ => serves_publish

omit haside in
theorem serves_publishSync (i : Uuid) (mime : String) (bytes : Bytes) (maxBytes : Nat) :
    Serves P allowed (publishSync i mime bytes maxBytes : Artifacts.Act F OperationResult) := by
  rw [publishSync]
  split
  · exact serves_throw _
  · refine serves_bind (serves_publishBytes _ _ _) fun _ => ?_
    exact serves_bind serves_clearActive fun _ => serves_pure _

omit haside in
theorem serves_publishSensitiveSync (i : Uuid) (text : String) (seconds : Nat) :
    Serves P allowed (publishSensitiveSync i text seconds : Artifacts.Act F OperationResult) := by
  refine serves_bind (serves_result _) fun _ => ?_
  exact serves_bind serves_publish fun _ => serves_pure _

omit haside in
theorem serves_publishFilesSync (i : Uuid) (selection : FileSelection) (maxBytes : Nat) :
    Serves P allowed (publishFilesSync H i selection maxBytes) := by
  refine serves_bind (serves_result _) fun _ => ?_
  refine serves_bind serves_publish fun _ => ?_
  exact serves_bind serves_clearActive fun _ => serves_pure _

theorem serves_savedImage (i : Uuid) (id : String) (expected : Option Nat) (maxBytes : Nat) :
    Serves P allowed (saveImageFile P H i id expected maxBytes) :=
  serves_bind (serves_saveImageFile haside id expected maxBytes) fun _ => serves_pure _

theorem serves_cleanupArtifacts (i : Uuid) : Serves P allowed (cleanupArtifacts P H i) :=
  serves_bind (serves_cleanupBackend haside) fun _ => serves_pure _

omit haside in
theorem serves_runtimeDirectory (child : String) : Serves P allowed (runtimeDirectory H child) := by
  refine serves_statement fun c s r t hop => ?_
  simp only at hop
  split at hop <;> cases hop <;> exact ⟨rfl, rfl⟩

omit haside in
theorem serves_publishCapture (path : FilePath) (maxBytes : Nat) :
    Serves P allowed (publishCapture P H path maxBytes) := by
  refine serves_bind (serves_read _) fun captured => ?_
  cases captured with
  | none => exact serves_throw _
  | some bytes => exact serves_bind (serves_publishBytes _ _ _) fun _ => serves_clearActive

omit haside in
theorem serves_stageCapture : Serves P allowed (stageCapture H) := by
  refine serves_bind (serves_runtimeDirectory _) fun directory => ?_
  refine serves_bind (serves_uniquePath _ _) fun path => ?_
  exact serves_bind (serves_writePrivate _ _) fun _ => serves_pure _

omit haside in
theorem serves_annotatedImage (stored : Database.StoredEntry) (limit : Nat) :
    Serves P allowed (annotatedImage P H stored limit) := by
  refine serves_bind (serves_read _) fun content => ?_
  split
  · exact serves_pure _
  · refine serves_bind (serves_read _) fun bytes => ?_
    exact serves_bind (serves_result _) fun _ => serves_pure _
  · exact serves_throw _

theorem Annotate.serves_stage (id : String) (expected : Option Nat) (maxBytes : Nat) :
    Serves P allowed (Annotate.stage P H id expected maxBytes) := by
  refine serves_bind (serves_selectedImage haside id expected _) fun stored => ?_
  refine serves_bind (serves_annotatedImage _ _) fun image => ?_
  refine serves_bind (serves_runtimeDirectory _) fun directory => ?_
  refine serves_bind (serves_uniquePath _ _) fun input => ?_
  refine serves_bind (serves_uniquePath _ _) fun output => ?_
  exact serves_bind (serves_writePrivate _ _) fun _ => serves_pure _

end Aside

/-- The requests that neither change the policy nor add entries. -/
def Ordinary : Request → Prop
  | .applyPolicy _ | .insert .. => False
  | _ => True

theorem ordinary_of_aside (r : Request) (h : r.isAside = true) : Ordinary r := by
  cases r with
  | applyPolicy _ | insert _ _ => cases h
  | _ => trivial

theorem serves_replaceSync {allowed : Request → Prop} (i : Uuid) (id : String) (expected : Nat)
    (mime : String) (bytes : Bytes) (haside : ∀ r : Request, r.isAside = true → allowed r)
    (hreplace : allowed (.replace id expected mime bytes)) :
    Serves P allowed (replaceSync P H i id expected mime bytes) := by
  refine serves_bind (serves_ask hreplace _) fun summary => ?_
  refine serves_bind (serves_read _) fun details => ?_
  refine serves_bind (serves_outcome (serves_restoreEntry haside _ _ _ _)) fun r => ?_
  cases r <;> exact serves_pure _

theorem serves_removeEntry (i : Uuid) (id : String) (expected : Option Nat) :
    Serves P Ordinary (removeEntry P H i id expected) := by
  refine serves_bind (serves_selected ordinary_of_aside id expected) fun stored => ?_
  exact serves_bind (serves_request trivial) fun _ => serves_pure _

theorem serves_removeEntries (i : Uuid) (targets : List EntryTarget) :
    Serves P Ordinary (removeEntries P H i targets) :=
  serves_bind (serves_request trivial) fun _ => serves_pure _

theorem serves_moveEntry (i : Uuid) (id : String) (expected : Option Nat) (favorite : Bool) :
    Serves P Ordinary (moveEntry P H i id expected favorite) := by
  refine serves_bind (serves_selected ordinary_of_aside id expected) fun stored => ?_
  exact serves_bind (serves_request trivial) fun _ => serves_pure _

theorem serves_wipeEntries (i : Uuid) : Serves P Ordinary (wipeEntries P H i) := by
  refine serves_bind (serves_bind (serves_request trivial) fun _ => ?_) fun _ => serves_pure _
  refine serves_bind (serves_outcome ?_) fun _ => serves_pure _
  exact serves_bind (serves_cleanupBackend ordinary_of_aside) fun _ =>
    Artifacts.serves_clearAll ordinary_of_aside

theorem serves_mutateSync (i : Uuid) (id : String) (expected : Option Nat)
    (mutation : BackendMutation) : Serves P Ordinary (mutateSync P H i id expected mutation) := by
  refine serves_bind (serves_result _) fun _ => ?_
  cases mutation with
  | restore maxBytes => exact serves_restoreEntry ordinary_of_aside _ _ _ _
  | imageAsFile maxBytes => exact serves_savedImage ordinary_of_aside _ _ _ _
  | annotate maxBytes => exact serves_throw _
  | remove => exact serves_removeEntry _ _ _
  | setFavorite value => exact serves_moveEntry _ _ _ _
  | wipe => exact serves_wipeEntries _
  | cleanup => exact serves_cleanupArtifacts ordinary_of_aside _

theorem Annotate.serves_apply {id : String} {revision : Nat}
    (hreplace : ∀ bytes, allowed (.replace id revision "image/png" bytes)) (output : FilePath)
    (maxBytes : Nat) : Serves P allowed (Annotate.apply P H id revision output maxBytes) := by
  refine serves_bind (serves_read _) fun edited => ?_
  cases edited with
  | none => exact serves_throw _
  | some bytes =>
      refine serves_bind (serves_request (hreplace bytes)) fun _ => ?_
      refine serves_bind (serves_outcome ?_) fun r => ?_
      · exact serves_bind (serves_publishBytes _ _ _) fun _ => serves_clearActive
      · cases r <;> exact serves_pure _

/-! ## What follows a change is no failure -/

section Until

variable {E : BackendError → Prop}

theorem returns_read (f : Backend F → α) : (Artifacts.read f).run.Returns (FailsWith E) := by
  refine Thread.returns_attempt fun c s r t hop => ?_
  cases hop
  exact Thread.failsWith_ok _

/-- A request that is the last thing that can fail. -/
theorem until_request_pure (r : Request) (a : α) :
    (do let _ ← Artifacts.request P H.toHost r; pure a : Artifacts.Act F α).run.Until Steady
      (FailsWith E) :=
  Thread.until_run_last (until_requested r) fun _ => Thread.returns_run_pure a

theorem until_replaceSync (i : Uuid) (id : String) (expected : Nat) (mime : String)
    (bytes : Bytes) :
    (replaceSync P H i id expected mime bytes).run.Until Steady (FailsWith E) := by
  refine Thread.until_run_last ?_ fun summary => ?_
  · -- the store answers a replacement with the entry
    refine Thread.until_run_bind (Artifacts.until_request _) (fun reply => ?_) ?_ ?_
    · split <;> trivial
    · rintro reply ⟨reply', env, t, t', hreply, heffect⟩
      cases hreply
      obtain ⟨summary, rfl, -⟩ := Request.entry_ok heffect
      exact Thread.failsWith_ok summary
    · rintro e ⟨reply', -, -, -, hreply, -⟩
      cases hreply
  · refine Thread.returns_run_then (returns_read _) fun details => ?_
    refine Thread.returns_run_then (Thread.succeeds_outcome _) fun publication => ?_
    cases publication <;> exact Thread.returns_run_pure _

theorem until_removeEntry (i : Uuid) (id : String) (expected : Option Nat) :
    (removeEntry P H i id expected).run.Until Steady (FailsWith E) :=
  Thread.until_run_first (steady_of_serves (serves_selected (fun _ h => h) id expected))
    fun _ => until_request_pure _ _

theorem until_removeEntries (i : Uuid) (targets : List EntryTarget) :
    (removeEntries P H i targets).run.Until Steady (FailsWith E) :=
  until_request_pure _ _

theorem until_moveEntry (i : Uuid) (id : String) (expected : Option Nat) (favorite : Bool) :
    (moveEntry P H i id expected favorite).run.Until Steady (FailsWith E) :=
  Thread.until_run_first (steady_of_serves (serves_selected (fun _ h => h) id expected))
    fun _ => until_request_pure _ _

theorem until_wipeEntries (i : Uuid) : (wipeEntries P H i).run.Until Steady (FailsWith E) := by
  refine Thread.until_run_last ?_ fun _ => Thread.returns_run_pure _
  refine Thread.until_run_last (until_requested _) fun _ => ?_
  exact Thread.returns_run_then (Thread.succeeds_outcome _) fun _ => Thread.returns_run_pure _

theorem until_mutateSync (i : Uuid) (id : String) (expected : Option Nat)
    (mutation : BackendMutation) :
    (mutateSync P H i id expected mutation).run.Until Steady (FailsWith E) := by
  have haside : ∀ r : Request, r.isAside = true → r.isAside = true := fun _ h => h
  refine Thread.until_run_first (Thread.each_pure _) fun _ => ?_
  cases mutation with
  | restore maxBytes => exact until_of_serves (serves_restoreEntry haside _ _ _ _)
  | imageAsFile maxBytes => exact until_of_serves (serves_savedImage haside _ _ _ _)
  | annotate maxBytes => trivial
  | remove => exact until_removeEntry _ _ _
  | setFavorite value => exact until_moveEntry _ _ _ _
  | wipe => exact until_wipeEntries _
  | cleanup => exact until_of_serves (serves_cleanupArtifacts haside _)

/-- An operation that is answered is at its end. -/
def Completed (r : BackendResult OperationResult) : Prop := ∀ a, r = .ok a → a.status = "completed"

theorem completed_ok {a : OperationResult} (h : a.status = "completed") : Completed (.ok a) := by
  intro b hb
  cases hb
  exact h

theorem completed_last {m : Artifacts.Act F α} {k : α → Artifacts.Act F OperationResult}
    (hk : ∀ a, (k a).run.Returns Completed) : (m >>= k).run.Returns Completed :=
  Thread.returns_run_last hk fun _ _ h => by cases h

theorem returns_mutateSync (i : Uuid) (id : String) (expected : Option Nat)
    (mutation : BackendMutation) :
    (mutateSync P H i id expected mutation).run.Returns Completed := by
  have hcompleted : ∀ (action message : String),
      (pure (.completed i action message) : Artifacts.Act F OperationResult).run.Returns
        Completed :=
    fun _ _ => completed_ok rfl
  refine completed_last fun _ => ?_
  cases mutation with
  | restore maxBytes =>
      exact completed_last fun _ => completed_last fun _ => completed_last fun _ =>
        completed_last fun _ => completed_last fun _ => hcompleted _ _
  | imageAsFile maxBytes => exact completed_last fun _ => completed_ok rfl
  | annotate maxBytes => exact fun _ h => by cases h
  | remove => exact completed_last fun _ => completed_last fun _ => hcompleted _ _
  | setFavorite value => exact completed_last fun _ => completed_last fun _ => hcompleted _ _
  | wipe => exact completed_last fun _ => hcompleted _ _
  | cleanup => exact completed_last fun _ => hcompleted _ _

theorem returns_removeEntries (i : Uuid) (targets : List EntryTarget) :
    (removeEntries P H i targets).run.Returns Completed :=
  completed_last fun _ => completed_ok rfl

end Until

end HistoryBackend
end ClipDaemon
