import ClipDaemon.Daemon.Edits

/-!
# A failure has changed nothing

A request that changes the history does so with one request to the store, as the last of its
statements that can fail (`actions.rs`, `history/mutation.rs`): what follows, the publication of a
selection, the details of the answer, the cleanup of files, is told as a warning, or not at all.
So an error answer means that nothing was committed.  The exceptions are a commit of which the
store itself does not know whether it landed, after which it is fenced, and the policy of the
store, which a request about the settings may have applied before it failed.
-/

namespace ClipDaemon.Daemon

open Thread (attempt outcome result FailsWith Succeeds)
open Artifacts (Serves Steady)

variable {F α : Type}

/-- The history is as before, or the policy was changed by a request that may do so. -/
def Harmless (P : Platform) (governs : Prop) (commit : Commit) : Prop :=
  SameEntries commit.before commit.after ∨ governs ∧ ∃ policy env reply,
    (Request.applyPolicy policy).effect P env commit.before = .ok (reply, commit.after)

/-- A statement that changes nothing else, unless the outcome is not known. -/
def Spares (P : Platform) (governs : Prop) (s t : Daemon F) : Prop :=
  t.commits = s.commits ∨ ∃ commit, t.commits = s.commits ++ [commit] ∧
    (Harmless P governs commit ∨ t.fenced = true)

/-- The requests that are harmless. -/
def harmless (i : Nat) (governs : Prop) : Rights where
  requests source r := source = .request i ∧ (r.isAside = true ∨ governs ∧ r.isPolicy = true)
  leases := True
  stages := True
  locks := True
  switches := governs
  captures := False
  tokens := True

/-- An operation that is at its end. -/
def Closed (operation : OperationResult) : Prop := operation.status ≠ "started"

/-- An operation is answered, at its end. -/
def Closes {ε : Type} (r : Except ε OperationResult) : Prop := ∃ a, r = .ok a ∧ Closed a

/-- An answer that needs no entry in the book. -/
def Settles (r : ApiResult Answer) : Prop :=
  ∃ a, r = .ok a ∧ ∀ operation, a = .operation operation → Closed operation

theorem settles_operation {operation : OperationResult} (h : Closed operation) :
    Settles (.ok (.operation operation)) := by
  refine ⟨_, rfl, fun other heq => ?_⟩
  cases heq
  exact h

section Spares

variable {β ε : Type} {P : Platform} {H : Machine F} {governs : Prop} {i : Nat} {owner : Owner}
  {s t : Daemon F}

theorem Turn.spares (h : Turn P (harmless i governs) i owner s t) : Spares P governs s t := by
  rcases h.recorded with ⟨-, hcommits⟩ | ⟨source, r, env, reply, ⟨-, hr⟩, heffect, -, hcommits⟩
  · exact .inl hcommits
  · refine .inr ⟨_, hcommits, .inl ?_⟩
    rcases hr with haside | ⟨hgoverns, hpolicy⟩
    · exact .inl (Request.effect_isAside haside heffect)
    · cases r with
      | applyPolicy policy => exact .inr ⟨hgoverns, policy, env, reply, heffect⟩
      | _ => cases hpolicy

theorem each_spares {m : Thread (Daemon F) Chance α} (h : Takes P (harmless i governs) i owner m) :
    m.Each (Spares P governs) :=
  Thread.Each.mono h fun _ _ => Turn.spares

theorem until_takes (i : Nat) (owner : Owner) {Q : α → Prop} {m : Thread (Daemon F) Chance α}
    (h : Takes P (harmless i governs) i owner m) : m.Until (Spares P governs) Q :=
  Thread.until_of_each (each_spares h)

theorem until_first (i : Nat) (owner : Owner) {m : ExceptT ε (Thread (Daemon F) Chance) α}
    {k : α → ExceptT ε (Thread (Daemon F) Chance) β} {Q : Except ε β → Prop}
    (hm : Takes P (harmless i governs) i owner m.run)
    (hk : ∀ a, (k a).run.Until (Spares P governs) Q) : (m >>= k).run.Until (Spares P governs) Q :=
  Thread.until_run_first (each_spares hm) hk

theorem harmless_policy (hgoverns : governs) : (harmless i governs).Governs (.request i) := by
  refine ⟨fun r h => ⟨rfl, ?_⟩, hgoverns⟩
  cases r with
  | policy => exact .inl rfl
  | applyPolicy policy => exact .inr ⟨hgoverns, rfl⟩
  | _ => cases h

theorem harmless_aside (r : Request) (h : r.isAside = true) :
    (harmless i governs).requests (.request i) r := ⟨rfl, .inl h⟩

theorem spares_of_steady {source : Source} {backend : Artifacts.Backend F}
    (h : Steady s.backend backend) : Spares P governs s (setBackend source s backend) := by
  by_cases heq : backend.committed = s.backend.committed
  · exact .inl (if_pos heq)
  · exact .inr ⟨_, if_neg heq, h.symm.imp_left fun hsame => .inl hsame⟩

/-! ## The backend -/

theorem until_onBackend {source : Source} {Q : BackendResult α → Prop} {m : Artifacts.Act F α}
    (hm : m.run.Until Steady Q) : (onBackend source m).run.Until (Spares P governs) Q :=
  Thread.until_zoom hm fun _ _ => spares_of_steady

/-- What is held around a program, with a lock that is given back. -/
theorem until_held (i : Nat) {take give : ExceptT ε (Thread (Daemon F) Chance) Unit}
    {Q : Except ε α → Prop} {m : ExceptT ε (Thread (Daemon F) Chance) α}
    (htake : Takes P (harmless i governs) i none take.run)
    (hgive : Takes P (harmless i governs) i none give.run) (hgives : give.run.Returns Succeeds)
    (hm : m.run.Until (Spares P governs) Q) :
    (do take; let r ← outcome m; give; result r : ExceptT ε (Thread (Daemon F) Chance) α).run.Until
      (Spares P governs) Q :=
  Thread.until_held (each_spares htake) (each_spares hgive) hgives hm

/-- A statement that cannot fail. -/
theorem succeeds_unlock {f : Daemon F → Daemon F} :
    (attempt fun _ s => some (.ok (), f s) :
      ExceptT ε (Thread (Daemon F) Chance) Unit).run.Returns Succeeds := by
  refine Thread.returns_attempt fun c s r t hop => ?_
  cases hop
  exact Thread.failsWith_ok _

theorem until_locked {Q : BackendResult α → Prop} {m : BackendAct F α}
    (hm : m.run.Until (Spares P governs) Q) : (locked i m).run.Until (Spares P governs) Q :=
  until_held i takes_lockTransaction takes_unlockTransaction succeeds_unlock hm

theorem until_transacted {source : Source} {Q : BackendResult α → Prop} {m : Artifacts.Act F α}
    (hm : m.run.Until Steady Q) : (transacted i source m).run.Until (Spares P governs) Q :=
  until_locked (until_first i none takes_ensureRunning fun _ => until_onBackend hm)

theorem until_gated {Q : BackendResult α → Prop} {m : BackendAct F α}
    (hm : m.run.Until (Spares P governs) Q) : (gated i m).run.Until (Spares P governs) Q :=
  until_held i takes_lockGate takes_unlockGate succeeds_unlock hm

theorem until_settled {Q : ApiResult α → Prop} {m : Act F α}
    (hm : m.run.Until (Spares P governs) Q) : (settled i m).run.Until (Spares P governs) Q :=
  until_held i (takes_lockSettings trivial) (takes_unlockSettings trivial) succeeds_unlock hm

theorem until_fromBackend {Q : ApiResult α → Prop} {Q' : BackendResult α → Prop}
    {m : BackendAct F α} (hm : m.run.Until (Spares P governs) Q')
    (hQ : ∀ r, Q' r → Q (r.mapError ApiError.ofBackend)) :
    (fromBackend m).run.Until (Spares P governs) Q :=
  Thread.until_bind hm (fun _ => Thread.until_pure _) fun r hr => hQ r hr

theorem closes_fromBackend {m : BackendAct F OperationResult}
    (hm : m.run.Until (Spares P governs) Closes) :
    (fromBackend m).run.Until (Spares P governs) Closes := by
  refine until_fromBackend hm ?_
  rintro r ⟨a, rfl, ha⟩
  exact ⟨a, rfl, ha⟩

theorem closes_of {m : Artifacts.Act F OperationResult}
    (hm : m.run.Until Steady fun r => Succeeds r ∧ HistoryBackend.Completed r) :
    m.run.Until Steady Closes := by
  refine hm.mono (fun _ _ h => h) ?_
  rintro r ⟨hsucceeds, hcompleted⟩
  cases r with
  | ok a =>
      refine ⟨a, rfl, ?_⟩
      rw [Closed, hcompleted a rfl]
      decide
  | error e => exact (hsucceeds e rfl).elim

/-- What an operation is followed by is no failure. -/
theorem until_operation (i : Nat) (owner : Owner) {m : Act F OperationResult}
    {k : OperationResult → Act F Answer}
    (hm : m.run.Until (Spares P governs) Closes)
    (heach : ∀ a, Takes P (harmless i governs) i owner (k a).run)
    (hk : ∀ a, Closed a → (k a).run.Returns Settles) :
    (m >>= k).run.Until (Spares P governs) Settles := by
  refine Thread.until_run_bind hm (fun a => until_takes i owner (heach a)) ?_ ?_
  · rintro a ⟨b, hb, hclosed⟩
    cases hb
    exact hk a hclosed
  · rintro e ⟨b, hb, -⟩
    cases hb

/-! ## Entries -/

theorem until_mutateGated (id : String) (expected : Option Nat) (mutation : BackendMutation) :
    (mutateGated P H i id expected mutation).run.Until (Spares P governs) Closes := by
  have hsync : (HistoryBackend.mutateSync P H i id expected mutation).run.Until Steady Closes :=
    closes_of ((HistoryBackend.until_mutateSync i id expected mutation).and_returns
      (HistoryBackend.returns_mutateSync i id expected mutation))
  cases mutation with
  | annotate maxBytes =>
      refine until_first i none (takes_transacted_aside harmless_aside
        (HistoryBackend.Annotate.serves_stage (fun _ h => h) _ _ _)) fun staged => ?_
      exact until_takes i none (Annotate.takes_launch trivial staged)
  | _ => exact until_transacted hsync

theorem until_mutate (id : String) (expected : Option Nat) (mutation : BackendMutation) :
    (mutate P H i id expected mutation).run.Until (Spares P governs) Closes := by
  refine until_first i none (takes_run_result _) fun _ => until_gated ?_
  split
  · exact until_first i none (takes_lift (takes_onJobs _)) fun _ =>
      until_mutateGated id expected mutation
  · exact until_mutateGated id expected mutation

theorem returns_armPaste {session : Uuid} :
    (onAuthority (Authority.armPaste i session owner) : Act F Bool).run.Returns Succeeds := by
  refine Thread.returns_zoom (Thread.returns_attempt fun c s r t hop => ?_)
  cases hop
  exact Thread.failsWith_ok _

theorem returns_armTarget {hasTarget : Bool} {session : Uuid} :
    (armTarget i hasTarget session owner : Act F Bool).run.Returns Succeeds := by
  rw [armTarget]
  split
  · exact returns_armPaste
  · exact Thread.returns_run_pure _

theorem returns_prepareSession {session : Option Uuid} {ready : Bool} :
    (onAuthority (Authority.prepareSession i owner session ready) :
      Act F (Option Bool)).run.Returns Succeeds := by
  refine Thread.returns_zoom ?_
  cases session with
  | none => exact Thread.returns_run_pure _
  | some id =>
      rw [Authority.prepareSession]
      split
      · refine Thread.returns_run_then ?_ fun _ => Thread.returns_run_pure _
        refine Thread.returns_attempt fun c s r t hop => ?_
        cases hop
        exact Thread.failsWith_ok _
      · exact Thread.returns_run_pure _

theorem pasteFeedback_closed (hasTarget : Bool) (action : String) :
    (pasteFeedback hasTarget action).1 ≠ "started" := by
  unfold pasteFeedback
  split <;> simp

theorem until_paste (params : Authority.ActionParams) (maxBytes : Nat) :
    (paste P H i params maxBytes owner).run.Until (Spares P governs) Settles := by
  rw [paste]
  split
  · trivial
  next session _ =>
    refine until_first i owner
      (takes_onAuthority trivial (Authority.local_validatePaste session)) fun target => ?_
    refine until_first i owner (takes_run_result _) fun mutation => ?_
    refine until_operation i owner (closes_fromBackend (until_mutate _ _ _)) (fun operation => ?_)
      fun operation _ => ?_
    · exact takes_run_bind (takes_armTarget trivial _ _) fun target => takes_run_pure _
    · refine Thread.returns_run_bind returns_armTarget (fun target _ => ?_) fun e he =>
        (he e rfl).elim
      exact settles_operation (pasteFeedback_closed _ _)

theorem until_executeAction (params : Authority.ActionParams) (details : EntryDetails)
    (maxBytes : Nat) :
    (executeAction P H i params details maxBytes owner).run.Until (Spares P governs) Settles := by
  rw [executeAction]
  split
  · exact until_first i owner (takes_launchAction _ _) fun _ => trivial
  · split
    · exact until_paste params maxBytes
    · refine until_first i owner (takes_run_result _) fun mutation => ?_
      exact until_operation i owner (closes_fromBackend (until_mutate _ _ _))
        (fun _ => takes_run_pure _)
        fun _ hclosed => settles_operation hclosed

theorem until_action (params : Authority.ActionParams) (maxBytes : Nat) :
    (action P H i params maxBytes owner).run.Until (Spares P governs) Settles := by
  refine until_first i owner (takes_loadDetails harmless_aside _ _) fun details => ?_
  exact until_first i owner (takes_run_result _) fun _ =>
    until_executeAction params details maxBytes

theorem until_deleteEntries (targets : List EntryTarget) :
    (deleteEntries P H i targets).run.Until (Spares P governs) Settles := by
  refine until_first i none (takes_run_result _) fun _ => ?_
  refine until_operation i none (closes_fromBackend (until_transacted ?_))
    (fun _ => takes_run_pure _)
    fun _ hclosed => settles_operation hclosed
  exact closes_of ((HistoryBackend.until_removeEntries i targets).and_returns
    (HistoryBackend.returns_removeEntries i targets))

/-! ## Edits -/

theorem until_replaceLeased (lease : EditLease) (value : String) (maxBytes : Nat) :
    (replaceLeased P H i lease value maxBytes).run.Until (Spares P governs) Succeeds := by
  refine until_first i none (takes_onAuthority trivial (Authority.local_unexpired _ _)) fun _ => ?_
  split
  · trivial
  · refine until_first i none (takes_fromBackend (takes_transacted_aside harmless_aside
      (HistoryBackend.serves_revisionSync (fun _ h => h) _))) fun revision => ?_
    refine until_first i none (takes_run_result _) fun _ => ?_
    refine until_fromBackend (until_transacted
      (HistoryBackend.until_replaceSync (E := fun _ => False) i _ _ _ _)) fun r hr => ?_
    cases r with
    | ok a => exact Thread.failsWith_ok a
    | error e => exact (hr e rfl).elim

theorem until_commitEdit (params : EditCommitParams) (maxBytes : Nat) :
    (commitEdit P H i params maxBytes owner).run.Until (Spares P governs) Settles := by
  refine until_first i owner (takes_onAuthority trivial (Authority.local_validateSession _))
    fun target => ?_
  refine until_first i owner (takes_onAuthority trivial (Authority.local_redeemEdit _))
    fun lease => ?_
  have hlast : ∀ replacement : ReplacementResult, (do
      let paste ← onAuthority (Authority.prepareSession i owner params.pasteSessionId
        (replacement.selectionPublished && target))
      pure (.replaced replacement paste) : Act F Answer).run.Returns Settles :=
        fun replacement => by
    refine Thread.returns_run_bind returns_prepareSession (fun paste _ => ?_) fun e he =>
      (he e rfl).elim
    exact ⟨_, rfl, fun operation h => by cases h⟩
  exact Thread.until_run_bind (until_replaceLeased lease params.value maxBytes)
    (fun replacement => Thread.until_of_returns (hlast replacement))
    (fun replacement _ => hlast replacement) fun e he => (he e rfl).elim

/-! ## Wipe -/

theorem until_wipeLocked (hgoverns : governs) :
    (wipeLocked P H i).run.Until (Spares P governs) Settles := by
  refine until_first i none (takes_quiesceLocked (harmless_policy hgoverns)) fun _ => ?_
  refine until_first i none (takes_clearEdits trivial) fun _ => ?_
  refine until_operation i none (closes_fromBackend (until_mutate _ _ _)) (fun operation => ?_)
    fun operation hclosed => ?_
  · refine takes_run_bind (takes_outcome (takes_resume (harmless_policy hgoverns)))
      fun resumed => ?_
    cases resumed <;> exact takes_run_pure _
  · refine Thread.returns_run_bind (Thread.returns_outcome (Thread.returns_any _))
      (fun resumed _ => ?_) ?_
    · cases resumed <;> exact settles_operation hclosed
    · rintro e ⟨r, hr, -⟩
      cases hr

theorem until_commitWipe (hgoverns : governs) (params : WipeParams) :
    (commitWipe P H i params owner).run.Until (Spares P governs) Settles := by
  rw [commitWipe]
  split
  · trivial
  refine until_first i owner (takes_onAuthority trivial (Authority.local_redeemWipe _))
    fun challenge => ?_
  refine until_first i owner (takes_onAuthority trivial (Authority.local_unexpired _ _)) fun _ => ?_
  exact until_settled (until_wipeLocked hgoverns)

/-! ## Dispatch -/

theorem until_dispatchEntry (i : Nat) (owner : Owner) {m : Nat → Act F Answer}
    (hm : ∀ maxBytes, (m maxBytes).run.Until (Spares P governs) Settles) :
    (dispatchEntry m).run.Until (Spares P governs) Settles := by
  refine until_first i owner (takes_onAuthority trivial Authority.each_maxEntryBytes)
    fun maxBytes => ?_
  exact until_first i owner (takes_onAuthority trivial Authority.local_purgeEdits) fun _ =>
    hm maxBytes

theorem until_dispatchMethod (method : Method) :
    (dispatchMethod P H i method owner).run.Until (Spares P method.Governs) Settles := by
  cases method with
  | entryAction params => exact until_dispatchEntry i owner fun _ => until_action _ _
  | editCommit params => exact until_dispatchEntry i owner fun _ => until_commitEdit _ _
  | deleteEntries targets => exact until_deleteEntries _
  | wipeCommit params => exact until_commitWipe trivial params
  | setPaused paused priv =>
      exact until_takes i owner (takes_setPaused (harmless_policy trivial) trivial _ _)
  | updateSettings update =>
      exact until_takes i owner (takes_updateSettings (harmless_policy trivial) trivial _)
  | _ => exact until_takes i owner (takes_dispatchMethod harmless_aside id (fun _ => trivial)
      fun _ => trivial)

theorem until_dispatchReserved (method : Method) :
    (dispatchReserved P H i method owner).run.Until (Spares P method.Governs) Settles := by
  refine Thread.until_run_bind (until_dispatchMethod method)
    (fun answer => until_takes i owner (takes_track answer)) ?_ ?_
  · rintro answer ⟨a, ha, hclosed⟩
    cases ha
    have htrack : track i answer owner = (pure answer : Act F Answer) := by
      cases answer with
      | operation operation => exact if_neg (hclosed operation rfl)
      | _ => rfl
    rw [htrack]
    exact ⟨answer, rfl, hclosed⟩
  · rintro e ⟨a, ha, -⟩
    cases ha

theorem until_dispatchOwned (reserves : Bool) (method : Method) :
    (dispatchOwned P H i reserves method owner).Until (Spares P method.Governs) Succeeds := by
  have hreserved : (dispatchReserved P H i method owner).run.Until
      (Spares P method.Governs) Succeeds := by
    refine (until_dispatchReserved method).mono (fun _ _ h => h) ?_
    rintro r ⟨a, rfl, -⟩
    exact Thread.failsWith_ok a
  have hjobs : ∀ {β : Type} (m : Jobs.Work β), (onJobs m : Work F β).Each
      (Spares P method.Governs) :=
    fun m =>
      each_spares (show Takes P (harmless i method.Governs) i owner (onJobs m) from takes_onJobs m)
  refine Thread.until_after (hjobs _) fun _ => ?_
  split
  · refine Thread.until_after (hjobs _) fun reserved => ?_
    cases reserved with
    | error error => trivial
    | ok _ =>
        refine Thread.until_bind hreserved
          (fun reply => until_takes i owner ?_) fun reply hreply => ?_
        · exact takes_bind (takes_onJobs _) fun _ => takes_pure _
        · exact Thread.returns_bind (Thread.returns_any _) fun _ _ => hreply
  · exact hreserved

theorem until_callerDispatch (transport : Transport) (reserves : Bool) (method : Method)
    (name : String) :
    (callerDispatch P H i transport reserves method name).Until
      (Spares P method.Governs) Succeeds := by
  have hrelease : Takes P (harmless i method.Governs) i (some name)
      (releaseOwner i name : Act F Unit).run :=
    takes_releaseOwner name
  have halive : Takes P (harmless i method.Governs) i (some name)
      (alive transport name : Work F Bool) :=
    takes_alive transport name
  refine Thread.until_after (each_spares halive) fun there => ?_
  split
  · refine Thread.until_bind (until_dispatchOwned reserves method)
      (fun reply => until_takes i (some name) ?_)
      fun reply hreply => ?_
    · refine takes_bind (takes_alive _ _) fun there => ?_
      dsimp only
      split
      · exact takes_bind hrelease fun _ => takes_pure _
      · exact takes_pure _
    · refine Thread.returns_bind (Thread.returns_any _) fun there _ => ?_
      dsimp only
      split
      · exact Thread.returns_bind (Thread.returns_any _) fun _ _ => hreply
      · exact hreply
  · dsimp only
    split
    · exact until_takes i (some name) (takes_bind hrelease fun _ => takes_pure _)
    · trivial

theorem until_request (client : Option (Transport × String)) (reserves : Bool) (method : Method) :
    (program P H i (.request client reserves method)).Until (Spares P method.Governs) Succeeds := by
  cases client with
  | none => exact until_dispatchOwned reserves method
  | some client => exact until_callerDispatch client.1 reserves method client.2

end Spares

/-! ## All runs -/

/-- What thread `i` finds between two of its statements. -/
structure Beside (i : Nat) (s t : Daemon F) : Prop where
  commits : ∃ more, t.commits = s.commits ++ more ∧ ∀ commit ∈ more, commit.source ≠ .request i
  fenced : s.fenced = true → t.fenced = true ∧ t.commits = s.commits

theorem Beside.of_same {i : Nat} {s t : Daemon F} (hcommits : t.commits = s.commits)
    (hfenced : s.fenced = true → t.fenced = true) : Beside i s t :=
  ⟨⟨[], by rw [hcommits, List.append_nil], fun _ h => absurd h List.not_mem_nil⟩,
    fun h => ⟨hfenced h, hcommits⟩⟩

/-- Every change by request `i` is harmless, or the last one, and the store is fenced after it. -/
def Spared (P : Platform) (governs : Prop) (i : Nat) (s : Daemon F) : Prop :=
  ∀ commit ∈ s.commits, commit.source = .request i →
    Harmless P governs commit ∨ s.fenced = true ∧ s.commits.getLast? = some commit

/-- Nothing is asked of the state, only that threads are beside each other. -/
def faults : Discipline (Daemon F) where
  valid _ := True
  grows _ _ := True
  rely := Beside
  fresh i s := ∀ commit ∈ s.commits, commit.source ≠ .request i
  grows_refl _ := trivial
  grows_trans _ _ := trivial
  rely_refl _ _ := .of_same rfl id
  rely_trans := by
    rintro i s t u ⟨⟨more, hmore, hothers⟩, hfenced⟩ ⟨⟨more', hmore', hothers'⟩, hfenced'⟩
    refine ⟨⟨more ++ more', by rw [hmore', hmore, List.append_assoc], fun commit hcommit => ?_⟩,
      fun h => ?_⟩
    · exact (List.mem_append.mp hcommit).elim (hothers commit) (hothers' commit)
    · obtain ⟨ht, hcommits⟩ := hfenced h
      obtain ⟨hu, hcommits'⟩ := hfenced' ht
      exact ⟨hu, hcommits'.trans hcommits⟩
  fresh_rely := by
    rintro i s t ⟨⟨more, hmore, hothers⟩, -⟩ h commit hcommit
    rw [hmore] at hcommit
    exact (List.mem_append.mp hcommit).elim (h commit) (hothers commit)

section Runs

variable {P : Platform} {H : Machine F} {governs : Prop} {i j : Nat} {s t : Daemon F}

/-- A request makes requests to the store under its own number. -/
theorem Call.rights_request {call : Call F} {r : Request}
    (h : (call.rights i).requests (.request j) r) :
    j = i := by
  cases call with
  | request _ _ _ | publish _ _ | startup | shutdown => exact Source.request.inj h.1
  | annotate _ => exact absurd h.1 (by simp)
  | ingest _ _ => cases h.1
  | setAdmission _ => exact absurd h.1 (by simp)
  | _ => exact h.elim

theorem Turn.beside {rights : Rights} {owner : Owner} (h : Turn P rights i owner s t)
    (hrequests : ∀ r, ¬rights.requests (.request j) r) : Beside j s t := by
  rcases h.recorded with ⟨-, hcommits⟩ | ⟨source, r, env, reply, hr, -, -, hcommits⟩
  · exact .of_same hcommits fun hs => (h.fenced hs).1
  · refine ⟨⟨_, hcommits, fun commit hcommit => ?_⟩, h.fenced⟩
    obtain rfl := List.mem_singleton.mp hcommit
    rintro rfl
    exact hrequests r hr

theorem Goes.beside {call : Call F} (h : Goes P i call s t) (hne : j ≠ i) : Beside j s t := by
  rcases h with h | ⟨name, -, rfl⟩
  · exact h.beside fun r hr => hne (Call.rights_request hr)
  · exact .of_same rfl id

theorem Goes.allows {call : Call F} (h : Goes P i call s t) :
    (faults : Discipline (Daemon F)).Allows i s t :=
  ⟨trivial, trivial, fun _ hne => h.beside hne⟩

theorem Goes.fenced {call : Call F} (h : Goes P i call s t) (hs : s.fenced = true) :
    t.fenced = true ∧ t.commits = s.commits := by
  rcases h with h | ⟨name, -, rfl⟩
  · exact h.fenced hs
  · exact ⟨hs, rfl⟩

theorem Spared.beside (h : Spared P governs i s) (hmove : Beside i s t) : Spared P governs i t := by
  obtain ⟨⟨more, hmore, hothers⟩, hfenced⟩ := hmove
  intro commit hcommit hsource
  rw [hmore] at hcommit
  rcases List.mem_append.mp hcommit with hold | hnew
  · rcases h commit hold hsource with hharmless | ⟨hs, hlast⟩
    · exact .inl hharmless
    · obtain ⟨ht, hsame⟩ := hfenced hs
      exact .inr ⟨ht, by rw [hsame]; exact hlast⟩
  · exact absurd hsource (hothers commit hnew)

theorem Spared.own {call : Call F} (h : Spared P governs i s) (hstep : Spares P governs s t)
    (hgoes : Goes P i call s t) : Spared P governs i t := by
  intro commit hcommit hsource
  rcases hstep with hsame | ⟨made, hmade, hmadeOk⟩
  · rw [hsame] at hcommit
    rcases h commit hcommit hsource with hharmless | ⟨hs, hlast⟩
    · exact .inl hharmless
    · exact .inr ⟨(hgoes.fenced hs).1, by rw [hsame]; exact hlast⟩
  · rw [hmade] at hcommit
    rcases List.mem_append.mp hcommit with hold | hnew
    · rcases h commit hold hsource with hharmless | ⟨hs, hlast⟩
      · exact .inl hharmless
      · obtain ⟨ht, hsame⟩ := hgoes.fenced hs
        exact .inr ⟨ht, by rw [hsame]; exact hlast⟩
    · obtain rfl := List.mem_singleton.mp hnew
      exact hmadeOk.imp_right fun ht => ⟨ht, by rw [hmade, List.getLast?_concat]⟩

/-- What is so of a request that has failed. -/
def Reported (P : Platform) (i : Nat) : Call F → Reply → Daemon F → Prop
  | .request _ _ method, .error _ => Spared P method.Governs i
  | _, _ => fun _ => True

theorem reported_beside {call : Call F} {reply : Reply} (hmove : Beside i s t)
    (h : Reported P i call reply s) : Reported P i call reply t := by
  unfold Reported at h ⊢
  split at h
  · exact h.beside hmove
  · trivial

theorem keeps_reported (i : Nat) (call : Call F)
    (hs : ∀ commit ∈ s.commits, commit.source ≠ .request i) :
    (program P H i call).Keeps faults i (Reported P i call) s := by
  have hgoes : (program P H i call).Each (Goes P i call) := program_goes i call
  cases call with
  | request client reserves method =>
      have huntil := (until_request (P := P) (H := H) (i := i) client reserves method).and hgoes
      have hspared : Spared P method.Governs i s := fun commit hcommit hsource =>
        absurd hsource (hs commit hcommit)
      refine (huntil.keeps hgoes (fun s t _ h => h.allows) (fun s t hmove h => h.beside hmove)
        (fun s t _ hstep h => h.own hstep.1 hstep.2) hspared).weaken fun reply u hu => ?_
      cases reply with
      | ok answer => trivial
      | error e => exact hu.resolve_right fun hsucceeds => hsucceeds e rfl
  | _ => exact (hgoes.keeps fun s t _ h => h.allows).weaken fun _ _ _ => trivial

/-- An error answer means that nothing was done to the history.  In every run, what a request
that failed has committed leaves the entries and their payloads as they were.  The exceptions are
a policy of the store, if the request is about the settings or the wipe, and the last commit of
all if the store does not know whether it landed, and is fenced. -/
theorem error_changes_nothing {ops : List DatabaseOp} {files : F} {clock now : Nat}
    {preferences : ClipboardSettings} {moves : List (Pool.Move (Call F) Chance)}
    {client : Option (Transport × String)} {reserves : Bool} {method : Method} {error : ApiError}
    (hfailed : (running P H ops files clock now preferences moves).Returned i
      (.request client reserves method) (.error error)) :
    ∀ commit ∈ (running P H ops files clock now preferences moves).shared.commits,
      commit.source = .request i → Harmless P method.Governs commit ∨
        (running P H ops files clock now preferences moves).shared.fenced = true ∧
        (running P H ops files clock now preferences moves).shared.commits.getLast? = some
          commit := by
  have hstart : (faults : Discipline (Daemon F)).Keeps (Reported P)
      (service (Store.fresh.after P ops) files clock now preferences :
        Pool (Daemon F) Chance (Call F) Reply) :=
    Discipline.keeps_start trivial fun _ _ h => absurd h List.not_mem_nil
  exact (Discipline.run_keeps (fun i call s _ hfresh => keeps_reported i call hfresh)
    (fun i call reply s t _ _ hmove h => reported_beside hmove h) moves hstart).1.threads
      i _ _ hfailed

/-- Nothing fails but the end of a transaction, which may have landed. -/
def uncertain : Chance :=
  { calm with backend := { calm.backend with faults := { Faults.none with commit := some true } } }

/-- A copied text is deleted by a request whose outcome is lost. -/
def deleting : List (Pool.Move (Call Unit) Chance) :=
  .call 0 (.request none false (.deleteEntries [⟨"entry-a", 2⟩])) ::
    List.replicate 8 (.step 0 uncertain)

set_option maxRecDepth 100000 in
theorem deletion_without_outcome :
    (running .png emptyMachine copied () 0 0 .default deleting).shared.fenced = true ∧
    ∀ commit ∈ (running .png emptyMachine copied () 0 0 .default deleting).shared.commits,
      commit.source = .request 0 →
        Harmless .png (Method.deleteEntries [⟨"entry-a", 2⟩]).Governs commit ∨
        (running .png emptyMachine copied () 0 0 .default deleting).shared.fenced = true ∧
        (running .png emptyMachine copied () 0 0 .default deleting).shared.commits.getLast? =
          some commit := by
  have hfailed : ∃ error, (running .png emptyMachine copied () 0 0 .default deleting).Returned 0
      (.request none false (.deleteEntries [⟨"entry-a", 2⟩])) (.error error) := ⟨_, rfl⟩
  obtain ⟨error, hfailed⟩ := hfailed
  exact ⟨rfl, error_changes_nothing hfailed⟩

end Runs

end ClipDaemon.Daemon
