import ClipDaemon.Api.SingleUse
import ClipDaemon.Daemon.Failures
import ClipDaemon.Lib.Refinement

/-!
# The daemon refines its authority

The model of sessions, edit leases and wipe challenges (`ClipDaemon.Api.Authority`) leaves the
backend, the settings and the book of the operations to chance.  Here they are all there.  Every
request of the daemon that uses what its caller holds follows the request of the same name on
the authority; every other statement leaves that part alone, or drops what belongs to an owner, or
lets time pass.

So what is so of every run of the authority is so of every run of the daemon
(`authority_after`), as far as both tell it: the daemon keeps no record of publications and
refusals.  In particular what a caller holds works once, and for nobody else
(`held_works_once`).
-/

namespace ClipDaemon

open Thread (attempt outcome result)

/-! ## What the daemon keeps of the log -/

/-- The daemon records the effect. -/
def Effect.kept : Effect → Bool
  | .published | .unprepared .. | .used .. => false
  | _ => true

namespace Authority

/-- The authority, as far as the daemon records what happens. -/
def seen (s : Authority) : Authority := { s with log := s.log.filter fun entry => entry.2.kept }

/-- The first is what is seen of the second. -/
def Alike (x s : Authority) : Prop := x = s.seen

theorem Alike.record {x s : Authority} (h : Alike x s) {i : Nat} {effect : Effect}
    (hkept : effect.kept = true) : Alike (x.record i effect) (s.record i effect) := by
  cases h
  simp [Alike, seen, Authority.record, hkept]

theorem seen_unkept {i : Nat} {effect : Effect} (h : effect.kept = false) (s : Authority) :
    (s.record i effect).seen = s.seen := by
  simp [seen, record, h]

section Alike

variable {x s : Authority} (h : Alike x s)
include h

theorem Alike.held : held x = held s := by
  cases h
  rfl

theorem Alike.sublist : x.log.Sublist s.log := by
  cases h
  exact List.filter_sublist

theorem Alike.mem {i : Nat} {effect : Effect} (hkept : effect.kept = true)
    (hmem : (i, effect) ∈ s.log) : (i, effect) ∈ x.log := by
  cases h
  exact List.mem_filter.mpr ⟨hmem, hkept⟩

theorem Alike.issuedTo {kind : TokenKind} {id : Uuid} {owner : Owner} :
    IssuedTo kind id owner x.log ↔ IssuedTo kind id owner s.log :=
  exists_congr fun _ => ⟨fun hmem => h.sublist.subset hmem, h.mem rfl⟩

end Alike

section Blind

variable {α : Type} {i : Nat} {owner : Owner}

/-- No statement reads the log. -/
theorem blind_attempt {op : Chance → Authority → Option (ApiResult α × Authority)}
    (h : ∀ c s, op c s.seen = (op c s).map fun done => (done.1, done.2.seen)) :
    (attempt op).run.Blind Alike := by
  refine Thread.blind_attempt fun c x s r t hx hop => ?_
  cases hx
  rw [h] at hop
  obtain ⟨⟨r', t'⟩, hop', heq⟩ := Option.map_eq_some_iff.mp hop
  cases heq
  exact ⟨t', hop', rfl⟩

theorem blind_settings (reply : Chance → α) : (settings reply).run.Blind Alike :=
  blind_attempt fun _ _ => rfl

theorem blind_purgeEdits : purgeEdits.run.Blind Alike := blind_attempt fun _ _ => rfl

theorem blind_validatePaste (id : Uuid) : (validatePaste id owner).run.Blind Alike :=
  blind_attempt fun _ _ => rfl

theorem blind_validateSession (session : Option Uuid) :
    (validateSession session owner).run.Blind Alike := by
  cases session with
  | none => exact Thread.blind_pure _
  | some id => exact blind_validatePaste id

theorem blind_armPaste (id : Uuid) : (armPaste i id owner).run.Blind Alike := by
  refine blind_attempt fun c s => ?_
  rcases harmed : s.sessions.armPaste id owner s.now with ⟨_ | _, sessions⟩ <;>
    simp [seen, record, Effect.kept, harmed]

theorem blind_prepareSession (session : Option Uuid) (ready : Bool) :
    (prepareSession i owner session ready).run.Blind Alike := by
  cases session with
  | none => exact Thread.blind_pure _
  | some id =>
      cases ready with
      | false => exact Thread.blind_pure _
      | true => exact Thread.blind_run_bind (blind_armPaste id) fun _ => Thread.blind_pure _

theorem blind_redeemEdit (id : Uuid) : (redeemEdit i id owner).run.Blind Alike := by
  refine blind_attempt fun c s => ?_
  rcases hredeemed : s.edits.redeem id owner with ⟨_ | lease, edits⟩ <;>
    simp [seen, record, Effect.kept, hredeemed]

theorem blind_redeemWipe (id : Uuid) : (redeemWipe i id owner).run.Blind Alike := by
  refine blind_attempt fun c s => ?_
  rcases hredeemed : s.challenges.redeem id owner with ⟨_ | challenge, challenges⟩ <;>
    simp [seen, record, Effect.kept, hredeemed]

theorem blind_unexpired (expires : Nat) (error : ApiError) :
    (unexpired expires error).run.Blind Alike := blind_attempt fun _ _ => rfl

theorem blind_cancelLease (id : Uuid) : (cancelLease owner id).run.Blind Alike :=
  blind_attempt fun _ _ => rfl

theorem blind_clearEdits : clearEdits.run.Blind Alike := blind_attempt fun _ _ => rfl

theorem blind_sessionBegin : (sessionBegin i owner).run.Blind Alike := by
  refine Thread.blind_run_bind (blind_attempt fun _ _ => rfl) fun _ => ?_
  refine Thread.blind_run_bind (blind_attempt fun _ _ => rfl) fun target => ?_
  exact blind_attempt fun c s => by simp [seen, record, Effect.kept]

theorem blind_sessionHidden (id : Uuid) : (sessionHidden i owner id).run.Blind Alike := by
  refine blind_attempt fun c s => ?_
  rcases hhidden : s.sessions.hideWith id owner s.now with ⟨_ | ⟨view, _ | target⟩, sessions⟩ <;>
    simp [seen, record, Effect.kept, hhidden]

theorem blind_sessionEnd (id : Uuid) : (sessionEnd owner id).run.Blind Alike :=
  blind_attempt fun _ _ => rfl

theorem blind_sessionWait (id : Uuid) (rounds : Nat) :
    (sessionWait owner id rounds).run.Blind Alike := by
  induction rounds with
  | zero => exact Thread.blind_pure _
  | succ rounds ih =>
      refine Thread.blind_run_bind (blind_attempt fun _ _ => rfl) fun polled => ?_
      split
      · exact Thread.blind_pure _
      · exact Thread.blind_pure _
      · exact ih

theorem blind_wipePrepare : (wipePrepare i owner).run.Blind Alike :=
  blind_attempt fun c s => by simp [seen, record, Effect.kept]

end Blind

end Authority

namespace Daemon

open Authority (Alike)
open Thread (Agree FailsWith Follows Matches Succeeds)

variable {F α β : Type}

/-! ## Rules -/

/-- The authority of the daemon is what is seen of the other one. -/
def matching : Matching (Daemon F) Authority where
  related t s := Alike t.authority s
  aside := Aside

section Rules

variable {P : Platform} {H : Machine F} {rights : Rights} {i : Nat} {owner : Owner}

theorem Turn.idle {s t : Daemon F} (h : Turn P rights i owner s t) (hrights : ¬rights.tokens) :
    matching.Idle s t := by
  intro a ha
  have hseen : s.authority = a.seen := ha
  rcases h.aside with htokens | heq | ⟨held, name, heq⟩ | ⟨time, heq⟩
  · exact absurd htokens hrights
  · exact .inl (heq.trans hseen)
  · refine .inr ⟨a.drop name held, .inl ⟨held, name, rfl⟩, ?_⟩
    change t.authority = (a.drop name held).seen
    rw [heq, hseen]
    cases held <;> rfl
  · refine .inr ⟨{ a with now := a.now + time }, .inr ⟨time, rfl⟩, ?_⟩
    change t.authority = Authority.seen { a with now := a.now + time }
    rw [heq, hseen]
    rfl

/-- A program that does not use what callers hold. -/
theorem idle_of {m : Work F α} (hm : Serving P i True True True False owner m) :
    m.Each matching.Idle :=
  hm.mono fun _ _ h => h.idle id

theorem idle_onJobs (m : Jobs.Work α) : (onJobs m : Work F α).Each matching.Idle :=
  Thread.each_zoom (Thread.each_any m) fun _ _ _ _ h => .inl h

theorem matches_onAuthority {m : Authority.Act α} (hm : m.run.Blind Alike) :
    Matches matching Eq (onAuthority m : Act F α).run m.run :=
  Thread.follows_zoom (fun _ _ => rfl) hm

/-- What a statement of the authority leaves to chance is chosen as it has come. -/
theorem matches_chosen {T : α → β → Prop} {Q : ApiResult α → Prop} {m : Act F α}
    {op : Authority.Chance → Authority → Option (ApiResult β × Authority)}
    (hm : Serving P i True True True False none m.run) (hreturns : m.run.Returns Q)
    (h : ∀ r, Q r → ∀ s, ∃ c r' s', op c s = some (r', s') ∧ s'.seen = s.seen ∧ Agree T r r') :
    Matches matching (Agree T) m.run (attempt op).run := by
  refine Thread.follows_chosen (idle_of hm) hreturns fun r hr t s hrelated => ?_
  obtain ⟨c, r', s', hop, hseen, hagree⟩ := h r hr s
  exact ⟨r', s', Thread.reaches_attempt hop, Eq.trans hrelated hseen.symm, hagree⟩

theorem returns_fromBackend {Q : BackendResult α → Prop} {m : BackendAct F α}
    (h : m.run.Returns Q) :
    (fromBackend m).run.Returns fun r => ∃ r', Q r' ∧ r = r'.mapError ApiError.ofBackend :=
  Thread.returns_bind h fun r hr => ⟨r, hr, rfl⟩

/-- What the backend returns is chosen as it has come. -/
theorem matches_fromBackend {T : α → β → Prop} {Q : BackendResult α → Prop} {m : BackendAct F α}
    {op : Authority.Chance → Authority → Option (ApiResult β × Authority)}
    (hm : Serving P i True True True False none m.run) (hreturns : m.run.Returns Q)
    (hok : ∀ a, Q (.ok a) → ∀ s, ∃ c b s', op c s = some (.ok b, s') ∧ s'.seen = s.seen ∧ T a b)
    (herror : ∀ error s, ∃ c s',
      op c s = some (.error (.ofBackend error), s') ∧ s'.seen = s.seen) :
    Matches matching (Agree T) (fromBackend m).run (attempt op).run := by
  refine matches_chosen (takes_fromBackend hm) (returns_fromBackend hreturns) fun r hr s => ?_
  obtain ⟨r, hr, rfl⟩ := hr
  cases r with
  | ok a =>
      obtain ⟨c, b, s', hop, hseen, hab⟩ := hok a hr s
      exact ⟨c, .ok b, s', hop, hseen, hab⟩
  | error error =>
      obtain ⟨c, s', hop, hseen⟩ := herror error s
      exact ⟨c, .error _, s', hop, hseen, rfl⟩

/-- A call to the backend. -/
theorem matches_backend {m : BackendAct F α} {reply : Authority.Chance → α}
    (hm : Serving P i True True True False none m.run)
    (hreply : ∀ a, ∃ c : Authority.Chance, c.refuses = none ∧ reply c = a) :
    Matches matching (Agree Eq) (fromBackend m).run (Authority.backend reply).run := by
  refine matches_fromBackend hm (Thread.returns_any m.run) (fun a _ s => ?_) fun error s =>
    ⟨{ calm.authority with refuses := some error }, s, rfl, rfl⟩
  obtain ⟨c, hc, rfl⟩ := hreply a
  exact ⟨c, reply c, s, by rw [hc], rfl, rfl⟩

/-- A call to anything else. -/
theorem matches_outside {T : α → β → Prop} {m : Act F α} {reply : Authority.Chance → β}
    (hm : Serving P i True True True False none m.run)
    (hreply : ∀ a, ∃ c : Authority.Chance, c.fails = none ∧ T a (reply c)) :
    Matches matching (Agree T) m.run (Authority.outside reply).run := by
  refine matches_chosen hm (Thread.returns_any m.run) fun r _ s => ?_
  cases r with
  | ok a =>
      obtain ⟨c, hc, ha⟩ := hreply a
      exact ⟨c, .ok (reply c), s, by rw [hc], rfl, ha⟩
  | error e => exact ⟨{ calm.authority with fails := some e }, .error e, s, rfl, rfl, rfl⟩

theorem matches_settled {T : α → β → Prop} {m : Act F α} {n : Authority.Act β}
    (h : Matches matching (Agree T) m.run n.run) :
    Matches matching (Agree T) (settled i m).run n.run := by
  have hlock : Serving .plain i True True True False none (lockSettings i : Act F Unit).run :=
    takes_lockSettings trivial
  have hunlock : Serving .plain i True True True False none (unlockSettings : Act F Unit).run :=
    takes_unlockSettings trivial
  refine Thread.Follows.run_held (idle_of hlock) ?_ (idle_of hunlock) succeeds_unlock h
  refine Thread.returns_attempt fun c s r t hop => ?_
  split at hop <;> cases hop
  exact Thread.failsWith_ok _

end Rules

/-! ## Requests -/

/-- The reply of the daemon and the answer of the authority say the same of what the caller
holds; any other reply goes with an answer that says nothing of that. -/
def Fits : Reply → ApiResult Authority.Answer → Prop
  | .ok (.authority answer), .ok answer' => answer = answer'
  | _, .ok .none => True
  | .error e, .error e' => e = e'
  | .ok (.operation operation), .ok (.pasted status message) =>
      operation.status = status ∧ operation.message = message
  | .ok (.operation _), .ok (.wiped _) => True
  | .ok (.replaced replacement paste), .ok (.committed published paste') =>
      replacement.selectionPublished = published ∧ paste = paste'
  | _, _ => False

/-- The answers fit, and the reply is not one of an operation that goes on. -/
def FitsClosed (answer : Answer) (answer' : Authority.Answer) : Prop :=
  Fits (.ok answer) (.ok answer') ∧
    (answer' = .none ∨ ∀ operation, answer = .operation operation → Closed operation)

section Requests

variable {P : Platform} {H : Machine F} {i : Nat} {owner : Owner}

theorem fitsClosed_authority (answer : Authority.Answer) :
    FitsClosed (.authority answer) answer := by
  refine ⟨?_, .inr fun operation heq => by cases heq⟩
  cases answer <;> exact rfl

/-- A request that is about sessions only. -/
theorem matches_authorized {m : Authority.Act Authority.Answer} (hm : m.run.Blind Alike) :
    Matches matching (Agree FitsClosed) (authorized m : Act F Answer).run m.run := by
  refine Thread.Follows.run_map ((matches_onAuthority hm).mono (fun _ h => h) fun _ _ =>
    Thread.agree_eq) ?_
  rintro answer _ rfl
  exact fitsClosed_authority answer

theorem matches_loadDetails (entryId : String) (revision : Option Nat) :
    Matches matching (Agree Eq) (loadDetails P H i entryId revision).run
      (Authority.loadDetails entryId revision).run := by
  refine Thread.matches_run_same (Thread.matches_run_result _) fun _ => ?_
  refine Thread.matches_run_bind (matches_backend (takes_transacted_aside asked_of_aside
    (HistoryBackend.serves_detailsSync (fun _ h => h) _ _)) fun details =>
      ⟨{ calm.authority with details }, rfl, rfl⟩) ?_
  rintro details _ rfl
  refine Thread.matches_run_same (Thread.matches_run_result _) fun _ => ?_
  exact Thread.matches_run_pure rfl

/-! ### Actions -/

theorem requiredMutation_of_pastes {params : Authority.ActionParams} (h : params.pastes = true)
    (maxBytes : Nat) : ∃ mutation, requiredMutation params.action maxBytes = .ok mutation := by
  have hmem : params.action = "paste" ∨ params.action = "image-as-file" := by
    simpa [Authority.ActionParams.pastes] using h
  rcases hmem with heq | heq
  · exact ⟨_, by rw [heq]; rfl⟩
  · exact ⟨_, by rw [heq]; rfl⟩

/-- What the backend publishes is published. -/
theorem matches_restore {m : BackendAct F OperationResult}
    (hm : Serving P i True True True False none m.run) :
    Matches matching (Agree fun _ _ => True) (fromBackend m).run (Authority.restore i).run :=
  matches_fromBackend hm (Thread.returns_any m.run)
    (fun _ _ s => ⟨calm.authority, (), _, rfl, Authority.seen_unkept rfl s, trivial⟩)
    fun error s => ⟨{ calm.authority with refuses := some error }, s, rfl, rfl⟩

theorem matches_paste {params : Authority.ActionParams} (hpastes : params.pastes = true)
    (maxBytes : Nat) :
    Matches matching (Agree FitsClosed) (paste P H i params maxBytes owner).run
      (Authority.paste i owner params).run := by
  obtain ⟨mutation, hmutation⟩ := requiredMutation_of_pastes hpastes maxBytes
  rw [paste, Authority.paste]
  cases params.sessionId with
  | none => exact Thread.matches_run_throw _
  | some session =>
      refine Thread.matches_run_same (matches_onAuthority (Authority.blind_validatePaste session))
        fun hasTarget => ?_
      rw [hmutation, Thread.result_ok_bind]
      refine Thread.matches_run_bind (matches_restore (serving_mutate _ _ fun _ => trivial))
        fun operation _ _ => ?_
      have hdone : ∀ armed, FitsClosed
          (.operation { operation with
            status := (pasteFeedback armed params.action).1
            message := (pasteFeedback armed params.action).2
            action := params.action })
          (.pasted (pasteFeedback armed params.action).1
            (pasteFeedback armed params.action).2) := by
        refine fun armed => ⟨⟨rfl, rfl⟩, .inr fun other heq => ?_⟩
        cases heq
        exact pasteFeedback_closed armed params.action
      cases hasTarget with
      | false => exact Thread.matches_run_pure (hdone false)
      | true =>
          exact Thread.matches_run_same (matches_onAuthority (Authority.blind_armPaste session))
            fun armed => Thread.matches_run_pure (hdone armed)

theorem matches_executeAction (params : Authority.ActionParams) (details : EntryDetails)
    (maxBytes : Nat) :
    Matches matching (Agree FitsClosed) (executeAction P H i params details maxBytes owner).run
      (if params.pastes then Authority.paste i owner params
        else Authority.outside fun _ => .none).run := by
  have hother : ∀ {m : Act F OperationResult} {f : OperationResult → OperationResult},
      Serving P i True True True False none m.run →
      Matches matching (Agree FitsClosed)
        (m >>= fun operation => pure (Answer.operation (f operation))).run
        (Authority.outside fun _ => Authority.Answer.none).run := fun hm =>
    .run_map (matches_outside (T := fun _ answer => answer = .none) hm fun _ =>
      ⟨calm.authority, rfl, rfl⟩) fun _ _ heq => heq ▸ ⟨trivial, .inl rfl⟩
  rw [executeAction]
  cases hpastes : params.pastes with
  | true =>
      have hmem : params.action ∈ ["paste", "image-as-file"] := of_decide_eq_true hpastes
      have hlaunch : params.action ∉ ["open-url", "open-file", "reveal-file"] := by
        rcases List.mem_pair.mp hmem with heq | heq <;> rw [heq] <;> decide
      rw [if_neg hlaunch, if_pos hmem]
      exact matches_paste hpastes maxBytes
  | false =>
      rw [if_neg (of_decide_eq_false hpastes)]
      split
      · exact hother (f := id) (takes_launchAction _ _)
      · cases requiredMutation params.action maxBytes with
        | error e =>
            refine matches_chosen (P := P) (i := i) (Q := (· = .error e)) (takes_run_throw e) rfl ?_
            rintro _ rfl s
            exact ⟨{ calm.authority with fails := some e }, .error e, s, rfl, rfl, rfl⟩
        | ok mutation => exact hother (takes_fromBackend (serving_mutate _ _ fun _ => trivial))

/-- What every request on entries begins with. -/
theorem matches_dispatchEntry {m : Nat → Act F Answer} {n : Nat → Authority.Act Authority.Answer}
    (h : ∀ maxBytes, Matches matching (Agree FitsClosed) (m maxBytes).run (n maxBytes).run) :
    Matches matching (Agree FitsClosed) (dispatchEntry m).run
      (do let maxBytes ← Authority.maxEntryBytes; Authority.purgeEdits; n maxBytes :
        Authority.Act Authority.Answer).run := by
  refine Thread.matches_run_same (matches_onAuthority (Authority.blind_settings _))
    fun maxBytes => ?_
  refine Thread.matches_run_same (matches_onAuthority Authority.blind_purgeEdits) fun _ => ?_
  exact h maxBytes

/-- The authority notes what a request that names a session was answered. -/
theorem matches_answering {m : Act F Answer} {n : Authority.Act Authority.Answer}
    {session : Option Uuid} (h : Matches matching (Agree FitsClosed) m.run n.run) :
    Matches matching (Agree FitsClosed) m.run (Authority.answering i session owner n) := by
  refine Thread.Follows.then_more h fun r answer hr t s hrelated => ?_
  cases session with
  | none => exact ⟨answer, s, .refl _ _, hrelated, hr⟩
  | some id =>
      dsimp only
      split
      · exact ⟨answer, s, .refl _ _, hrelated, hr⟩
      · exact ⟨answer, _, .act (c := calm.authority) rfl (.refl _ _),
          Eq.trans hrelated (Authority.seen_unkept rfl s).symm, hr⟩

theorem matches_entryAction (params : Authority.ActionParams) :
    Matches matching (Agree FitsClosed)
      (dispatchEntry fun maxBytes => action P H i params maxBytes owner).run
      (Authority.program i (.entryAction owner params)) := by
  refine matches_answering (matches_dispatchEntry fun maxBytes => ?_)
  refine Thread.matches_run_bind (matches_loadDetails _ _) ?_
  rintro details _ rfl
  refine Thread.matches_run_same (Thread.matches_run_result _) fun _ => ?_
  exact matches_executeAction params details maxBytes

/-! ### Edits -/

theorem matches_beginEdit (params : EntryParams) :
    Matches matching (Agree FitsClosed)
      (dispatchEntry fun _ => beginEdit P H i params owner).run
      (Authority.program i (.editBegin owner params)) := by
  refine matches_dispatchEntry fun _ => ?_
  refine Thread.matches_run_bind (matches_loadDetails _ _) ?_
  rintro details _ rfl
  refine Thread.matches_run_same (Thread.matches_run_result _) fun value => ?_
  refine Thread.Follows.run_map (T := fun answer answer' => answer = answer')
    (Thread.matches_attempt fun c t s r t' hrelated hop => ?_) ?_
  · cases hop
    have hseen : t.authority = s.seen := hrelated
    refine ⟨calm.authority, _, _, rfl, ?_, ?_⟩
    · change Alike (Authority.record { t.authority with edits := _ } i _) _
      rw [hseen]
      exact Alike.record (by rfl) rfl
    · rw [hseen]
      exact (rfl : Agree Eq (.ok _) (.ok _))
  · rintro answer _ rfl
    exact fitsClosed_authority answer

/-- The backend replaces the entry, and may publish it. -/
theorem matches_replace {m : BackendAct F ReplacementResult} {id : Uuid} {checked : Nat}
    (hm : Serving P i True True True False none m.run) :
    Matches matching (Agree fun replacement published => replacement.selectionPublished = published)
      (fromBackend m).run
      (do Authority.carryOut i .edit id owner checked; Authority.publishReplacement i :
        Authority.Act Bool).run := by
  refine Thread.follows_chosen (idle_of (takes_fromBackend hm))
    (returns_fromBackend (Thread.returns_any m.run)) fun r hr t s hrelated => ?_
  obtain ⟨r, -, rfl⟩ := hr
  have hseen : t.authority = s.seen := hrelated
  have hused : (s.record i (.used .edit id owner checked)).seen = s.seen :=
    Authority.seen_unkept rfl s
  cases r with
  | ok replacement =>
      refine ⟨.ok replacement.selectionPublished, _, .run_bind (Thread.reaches_attempt
        (c := calm.authority) rfl) (Thread.reaches_attempt
          (c := { calm.authority with flag := replacement.selectionPublished }) rfl), ?_, rfl⟩
      change t.authority = Authority.seen (if replacement.selectionPublished then _ else _)
      split
      · rw [Authority.seen_unkept rfl, hused, hseen]
      · rw [hused, hseen]
  | error error =>
      exact ⟨.error _, _, .run_bind_error (Thread.reaches_attempt
        (c := { calm.authority with refuses := some error }) rfl), hseen.trans hused.symm, rfl⟩

theorem matches_replaceLeased {id : Uuid} (lease : EditLease) (value : String) (maxBytes : Nat) :
    Matches matching (Agree fun replacement published => replacement.selectionPublished = published)
      (replaceLeased P H i lease value maxBytes).run
      (Authority.EditLease.replace i id owner lease value maxBytes).run := by
  refine Thread.matches_run_same (matches_onAuthority (Authority.blind_unexpired _ _))
    fun checked => ?_
  split
  · exact Thread.matches_run_throw _
  · refine Thread.matches_run_bind (matches_backend (takes_transacted_aside asked_of_aside
      (HistoryBackend.serves_revisionSync (fun _ h => h) _)) fun number =>
        ⟨{ calm.authority with number }, rfl, rfl⟩) ?_
    rintro revision _ rfl
    refine Thread.matches_run_same (Thread.matches_run_result _) fun _ => ?_
    exact matches_replace (takes_transacted (HistoryBackend.serves_replaceSync _ _ _ _ _
      HistoryBackend.ordinary_of_aside trivial) asked_of_ordinary)

theorem matches_commitEdit (params : EditCommitParams) :
    Matches matching (Agree FitsClosed)
      (dispatchEntry fun maxBytes => commitEdit P H i params maxBytes owner).run
      (Authority.program i (.editCommit owner params)) := by
  refine matches_answering (matches_dispatchEntry fun maxBytes => ?_)
  refine Thread.matches_run_same (matches_onAuthority (Authority.blind_validateSession _))
    fun pasteTarget => ?_
  refine Thread.matches_run_same (matches_onAuthority (Authority.blind_redeemEdit _))
    fun lease => ?_
  refine Thread.matches_run_bind (matches_replaceLeased lease params.value maxBytes) ?_
  rintro replacement _ rfl
  refine Thread.matches_run_same (matches_onAuthority (Authority.blind_prepareSession _ _))
    fun paste => ?_
  exact Thread.matches_run_pure ⟨⟨rfl, rfl⟩, .inr fun operation heq => by cases heq⟩

theorem matches_cancelEdit (id : Uuid) :
    Matches matching (Agree FitsClosed)
      (dispatchEntry fun _ => cancelEdit id owner : Act F Answer).run
      (Authority.program i (.editCancel owner id)) := by
  exact matches_dispatchEntry fun _ => matches_authorized (Authority.blind_cancelLease id)

/-! ### The wipe -/

/-- A wipe that was carried out does not go on. -/
theorem returns_mutateWipe : (mutate P H i "" none .wipe).run.Returns
    fun r => ∀ operation, r = .ok operation → Closed operation := by
  have herror : ∀ e : BackendError, ∀ operation,
      (.error e : BackendResult OperationResult) = .ok operation → Closed operation :=
    fun e operation heq => by cases heq
  have hgated : (mutateGated P H i "" none .wipe).run.Returns
      fun r => ∀ operation, r = .ok operation → Closed operation := by
    refine Thread.returns_held (Thread.returns_run_last (fun _ => ?_) herror) herror
    refine Thread.returns_zoom ((HistoryBackend.returns_mutateSync i "" none .wipe).mono ?_)
    intro r hr operation heq
    rw [Closed, hr operation heq]
    decide
  refine Thread.returns_run_last (fun _ => ?_) herror
  exact Thread.returns_held (Thread.returns_run_last (fun _ => hgated) herror) herror

/-- The history is wiped, or the backend refuses. -/
theorem matches_carryOutWipe {id : Uuid} {checked : Nat} :
    Matches matching (Agree fun operation _ => Closed operation)
      (fromBackend (mutate P H i "" none .wipe)).run
      (Authority.carryOut i .wipe id owner checked).run :=
  matches_fromBackend (serving_mutate _ _ fun _ => trivial) returns_mutateWipe
    (fun operation hr s =>
      ⟨calm.authority, (), _, rfl, Authority.seen_unkept rfl s, hr operation rfl⟩)
    fun error s =>
      ⟨{ calm.authority with refuses := some error }, _, rfl, Authority.seen_unkept rfl s⟩

theorem matches_wipeLocked {id : Uuid} {checked : Nat} :
    Matches matching (Agree FitsClosed) (wipeLocked P H i).run
      (do
        let _ ← Authority.outside (·.flag)
        Authority.clearEdits
        Authority.carryOut i .wipe id owner checked
        match ← outcome (Authority.outside (·.flag)) with
        | .ok _ => return Authority.Answer.wiped none
        | .error error =>
            return .wiped (some ("History was wiped; capture remains stopped: " ++ error.message)) :
        Authority.Act Authority.Answer).run := by
  have hgoverns : (asking i True True True False).Governs (.request i) := governs_asking trivial
  refine Thread.matches_run_bind (matches_outside (T := fun _ _ => True)
    (takes_quiesceLocked hgoverns) fun _ => ⟨calm.authority, rfl, trivial⟩) fun _ _ _ => ?_
  refine Thread.matches_run_same (matches_onAuthority Authority.blind_clearEdits) fun _ => ?_
  refine Thread.matches_run_bind matches_carryOutWipe fun operation _ hclosed => ?_
  refine Thread.matches_run_bind (Thread.matches_outcome (matches_outside (T := fun _ _ => True)
    (takes_resume hgoverns) fun _ => ⟨calm.authority, rfl, trivial⟩)) fun r r' hr => ?_
  match r, r', hr with
  | .ok _, .ok _, _ =>
      refine Thread.matches_run_pure ⟨trivial, .inr fun other heq => ?_⟩
      cases heq
      exact hclosed
  | .error _, .error _, rfl =>
      refine Thread.matches_run_pure ⟨trivial, .inr fun other heq => ?_⟩
      cases heq
      exact hclosed

theorem matches_commitWipe (params : WipeParams) :
    Matches matching (Agree FitsClosed) (commitWipe P H i params owner).run
      (Authority.program i (.wipeCommit owner params)) := by
  change Matches _ _ (commitWipe P H i params owner).run (Authority.wipeCommit i owner params).run
  rw [commitWipe, Authority.wipeCommit]
  split
  · exact Thread.matches_run_throw _
  · refine Thread.matches_run_same (matches_onAuthority (Authority.blind_redeemWipe _))
      fun challenge => ?_
    refine Thread.matches_run_same (matches_onAuthority (Authority.blind_unexpired _ _))
      fun checked => ?_
    exact matches_settled matches_wipeLocked

/-! ## Dispatch -/

/-- The request on the authority that a method is, if it uses what the caller holds. -/
def Method.authority (owner : Owner) : Method → Option AuthorityCall
  | .entryAction params => some (.entryAction owner params)
  | .editBegin params => some (.editBegin owner params)
  | .editCommit params => some (.editCommit owner params)
  | .editCancel id => some (.editCancel owner id)
  | .sessionBegin => some (.sessionBegin owner)
  | .sessionHidden id => some (.sessionHidden owner id)
  | .sessionEnd id => some (.sessionEnd owner id)
  | .sessionWait id rounds => some (.sessionWait owner id rounds)
  | .wipePrepare => some (.wipePrepare owner)
  | .wipeCommit params => some (.wipeCommit owner params)
  | _ => none

theorem Method.not_holds {method : Method} (h : method.authority owner = none) :
    ¬method.Holds := by
  cases method <;> first | exact id | cases h

theorem matches_dispatchMethod {method : Method} {call : AuthorityCall}
    (h : method.authority owner = some call) :
    Matches matching (Agree FitsClosed) (dispatchMethod P H i method owner).run
      (Authority.program i call) := by
  cases method <;> cases h
  case entryAction params => exact matches_entryAction params
  case editBegin params => exact matches_beginEdit params
  case editCommit params => exact matches_commitEdit params
  case editCancel id => exact matches_cancelEdit id
  case sessionBegin => exact matches_authorized Authority.blind_sessionBegin
  case sessionHidden id => exact matches_authorized (Authority.blind_sessionHidden id)
  case sessionEnd id => exact matches_authorized (Authority.blind_sessionEnd id)
  case sessionWait id rounds => exact matches_authorized (Authority.blind_sessionWait id rounds)
  case wipePrepare => exact matches_authorized Authority.blind_wipePrepare
  case wipeCommit params => exact matches_commitWipe params

/-- An operation that does not go on is not tracked. -/
theorem track_of_closed {answer : Answer}
    (h : ∀ operation, answer = .operation operation → Closed operation) :
    (track i answer owner : Act F Answer) = pure answer := by
  cases answer with
  | operation operation =>
      rw [track]
      exact if_neg (h operation rfl)
  | _ => rfl

theorem returns_track {answer : Answer} {answer' : Authority.Answer}
    (h : FitsClosed answer answer') :
    (track i answer owner : Act F Answer).run.Returns (Fits · (.ok answer')) := by
  obtain ⟨hfits, hanswer⟩ := h
  by_cases hclosed : ∀ operation, answer = .operation operation → Closed operation
  · rw [track_of_closed hclosed]
    exact hfits
  · obtain rfl := hanswer.resolve_right hclosed
    cases answer with
    | operation operation =>
        rw [track]
        split
        · exact Thread.returns_run_last (fun _ => Thread.returns_run_last (fun _ =>
            Thread.returns_run_last (fun _ => trivial) fun _ => trivial) fun _ => trivial)
            fun _ => trivial
        · exact hfits
    | _ => exact hfits

theorem matches_dispatchReserved {method : Method} {call : AuthorityCall}
    (h : method.authority owner = some call) :
    Matches matching Fits (dispatchReserved P H i method owner).run
      (Authority.program i call) := by
  have htrack : ∀ answer, Takes P (asking i True True True False) i owner
      (track i answer owner : Act F Answer).run := takes_track
  exact Thread.Follows.run_then_idle (matches_dispatchMethod h)
    (fun answer => idle_of (htrack answer)) (fun _ _ => returns_track) fun _ => rfl

/-- The daemon refused to begin with the request. -/
def Unserved (reply : Reply) : Prop :=
  reply = .error ownerUnavailable ∨
    reply = .error (.new "busy" "Too many active clipboard operations")

theorem unserved_of_reserve {now : Nat} {book book' : Book} {e : ApiError}
    (h : book.reserve i owner now = (.error e, book')) : Unserved (.error e) := by
  rw [Book.reserve] at h
  split at h
  · cases h
    exact .inr rfl
  · cases h

theorem returns_reserve : (onJobs (Jobs.reserve i owner) : Work F (ApiResult Unit)).Returns
    fun r => ∀ e, r = .error e → Unserved (.error e) := by
  refine Thread.returns_zoom fun c s r t hop => ?_
  rcases hreserved : s.book.reserve i owner s.now with ⟨e | _, book⟩
  · simp only [hreserved, Option.some.injEq, Prod.mk.injEq] at hop
    obtain ⟨rfl, -⟩ := hop
    rintro _ ⟨⟩
    exact unserved_of_reserve hreserved
  · simp only [hreserved, Option.some.injEq, Prod.mk.injEq] at hop
    obtain ⟨rfl, -⟩ := hop
    exact nofun

theorem follows_dispatchOwned (reserves : Bool) {method : Method} {call : AuthorityCall}
    (h : method.authority owner = some call) :
    Follows matching Unserved Fits (dispatchOwned P H i reserves method owner)
      (Authority.program i call) := by
  have hreserved : Follows matching Unserved Fits (dispatchReserved P H i method owner).run
      (Authority.program i call) :=
    (matches_dispatchReserved h).mono (fun _ hgiven => hgiven.elim) fun _ _ hfits => hfits
  refine .after_idle (idle_onJobs _) (Thread.returns_any _) fun _ _ => ?_
  split
  · refine .after_idle (idle_onJobs _) returns_reserve fun r hr => ?_
    cases r with
    | error e => exact .inl (hr e rfl)
    | ok _ =>
        exact hreserved.then_idle
          (fun _ => Thread.each_bind (idle_onJobs _) fun _ => Thread.each_pure _)
          (fun _ _ hfits => Thread.returns_bind (Thread.returns_any _) fun _ _ => hfits)
          fun _ hgiven => Thread.returns_bind (Thread.returns_any _) fun _ _ => hgiven
  · exact hreserved

/-! ## Transports -/

theorem idle_alive (transport : Transport) (name : String) :
    (alive transport name : Work F Bool).Each matching.Idle := by
  refine Thread.each_atomic fun c s b t hop _ hrelated => ?_
  cases hop
  exact .inl hrelated

theorem idle_releaseOwner (name : String) :
    (releaseOwner i name : Act F Unit).run.Each matching.Idle := by
  have htakes : Serving .plain i True True True False none (releaseOwner i name : Act F Unit).run :=
    takes_releaseOwner name
  exact idle_of htakes

theorem follows_callerDispatch (transport : Transport) (reserves : Bool) {name : String}
    {method : Method} {call : AuthorityCall} (h : method.authority (some name) = some call) :
    Follows matching Unserved Fits (callerDispatch P H i transport reserves method name)
      (Authority.program i call) := by
  have hreturns : ∀ {Q : Reply → Prop} {c : Prop} [Decidable c] {reply : Reply}, Q reply →
      (if c then (releaseOwner i name : Act F Unit).run >>= fun _ => pure reply
        else pure reply : Work F Reply).Returns Q := by
    intro Q c _ reply hreply
    split
    · exact Thread.returns_bind (Thread.returns_any _) fun _ _ => hreply
    · exact hreply
  have hidle : ∀ {c : Prop} [Decidable c] (reply : Reply),
      (if c then (releaseOwner i name : Act F Unit).run >>= fun _ => pure reply
        else pure reply : Work F Reply).Each matching.Idle := by
    intro c _ reply
    split
    · exact Thread.each_bind (idle_releaseOwner name) fun _ => Thread.each_pure _
    · exact Thread.each_pure _
  refine .after_idle (idle_alive _ _) (Thread.returns_any _) fun there _ => ?_
  split
  · exact (follows_dispatchOwned reserves h).then_idle
      (fun reply => Thread.each_bind (idle_alive _ _) fun _ => hidle reply)
      (fun _ _ hfits => Thread.returns_bind (Thread.returns_any _) fun _ _ => hreturns hfits)
      fun _ hgiven => Thread.returns_bind (Thread.returns_any _) fun _ _ => hreturns hgiven
  · exact Thread.follows_given (hidle _) (hreturns (.inl rfl))

end Requests

/-! ## Calls -/

/-- The request on the authority that a call is, if it uses what callers hold. -/
def Call.authority : Call F → Option AuthorityCall
  | .request client _ method => method.authority (client.map Prod.snd)
  | _ => none

section Calls

variable {P : Platform} {H : Machine F}

theorem Call.not_tokens {i : Nat} {call : Call F} (h : call.authority = none) :
    ¬(call.rights i).tokens := by
  cases call with
  | request client reserves method => exact Method.not_holds h
  | _ => exact id

theorem program_idle (i : Nat) {call : Call F} (h : call.authority = none) :
    (program P H i call).Each matching.Idle := by
  refine (program_goes i call).mono fun s t hgoes => ?_
  rcases hgoes with hturn | ⟨name, -, rfl⟩
  · exact hturn.idle (Call.not_tokens h)
  · exact fun _ hrelated => .inl hrelated

theorem program_follows (i : Nat) {call : Call F} {call' : AuthorityCall}
    (h : call.authority = some call') :
    Follows matching Unserved Fits (program P H i call) (Authority.program i call') := by
  cases call with
  | request client reserves method =>
      rcases client with _ | ⟨transport, name⟩
      · exact follows_dispatchOwned reserves h
      · exact follows_callerDispatch transport reserves h
  | _ => cases h

/-- What is done aside is a call of its own on the authority. -/
theorem exists_aside {s s' : Authority} (h : Aside s s') :
    ∃ call, ∀ j, ∃ answer, Thread.Reaches (fun _ _ => False) (Authority.program j call) s
      (.done answer) s' := by
  rcases h with ⟨held, name, rfl⟩ | ⟨time, rfl⟩
  · exact ⟨.release held name, fun _ => ⟨_, .act (c := calm.authority) rfl (.refl _ _)⟩⟩
  · exact ⟨.elapse time, fun _ => ⟨_, .act (c := calm.authority) rfl (.refl _ _)⟩⟩

/-- Every call of the daemon follows a request on the authority, or does nothing to it. -/
def refinement (P : Platform) (H : Machine F) :
    Pool.Refinement (program P H) Authority.program matching where
  call := Call.authority
  given := Unserved
  answers _ := Fits
  idle i _ h := program_idle i h
  follows i _ _ h := program_follows i h
  aside _ _ := exists_aside

/-- Every run of the daemon, in two parts, is a run of the authority: what callers hold is the
same after both parts, and the requests are answered alike. -/
theorem authority_after (store : Store) (files : F) (clock now : Nat)
    (preferences : ClipboardSettings) (moves later : List (Pool.Move (Call F) Chance)) :
    let pool := (service store files clock now preferences).after (program P H) moves
    let pool' := pool.after (program P H) later
    ∃ moves' later',
      let shadow := (Authority.service now).after Authority.program moves'
      let shadow' := shadow.after Authority.program later'
      Alike pool.shared.authority shadow.shared ∧ Alike pool'.shared.authority shadow'.shared ∧
      ∀ i call call' reply, call.authority = some call' → pool'.Returned i call reply →
        (pool.threads i = none → shadow.threads i = none) ∧
        (Unserved reply ∨ ∃ answer, shadow'.Returned i call' answer ∧ Fits reply answer) :=
  (refinement P H).after (by rfl) moves later

end Calls

/-! ## What callers hold -/

/-- The token that the method is to spend. -/
def Method.commits : Method → Option (TokenKind × Uuid)
  | .editCommit params => some (.edit, params.editId)
  | .wipeCommit params => some (.wipe, params.challengeId)
  | _ => none

/-- A commit is refused because of the settings or its paste session, or for its response word. -/
def Method.Refuses : Method → Reply → Prop
  | .editCommit _, reply =>
      ∃ message, reply = .error (settingsError message) ∨ reply = .error (staleTarget message)
  | .wipeCommit params, _ => params.response ≠ "WIPE"
  | _, _ => False

section Held

variable {P : Platform} {H : Machine F} {method : Method} {kind : TokenKind} {id : Uuid}
  {owner : Owner}

/-- A commit is one on the authority. -/
theorem Method.authority_commits (h : method.commits = some (kind, id)) :
    ∃ call, method.authority owner = some call ∧
      Authority.commits call = some (kind, id, owner) := by
  cases method <;> cases h
  case editCommit params => exact ⟨_, rfl, rfl⟩
  case wipeCommit params => exact ⟨_, rfl, rfl⟩

theorem Method.refuses {call : AuthorityCall} {reply : Reply} {answer : ApiResult Authority.Answer}
    (hcall : method.authority owner = some call) (hrefused : Authority.Refused call answer)
    (hfits : Fits reply answer) : method.Refuses reply := by
  cases method <;> cases hcall
  case wipeCommit params => exact hrefused
  case editCommit params =>
    obtain ⟨message, rfl | rfl⟩ := hrefused
    · cases reply with
      | error e => exact ⟨message, .inl (congrArg Except.error hfits)⟩
      | ok a => cases a <;> cases hfits
    · cases reply with
      | error e => exact ⟨message, .inr (congrArg Except.error hfits)⟩
      | ok a => cases a <;> cases hfits
  all_goals cases hrefused

/-- A success is answered with a success. -/
theorem Fits.ok {answer : Answer} {answer' : ApiResult Authority.Answer}
    (h : Fits (.ok answer) answer') : ∃ a, answer' = .ok a := by
  cases answer' with
  | ok a => exact ⟨a, rfl⟩
  | error e => cases answer <;> cases h

theorem Unserved.not_ok {answer : Answer} (h : Unserved (.ok answer)) : False := by
  rcases h with h | h <;> cases h

/-- A session pastes at most once, for the caller that began it and before it expires.  A lease or
challenge was handed out to one caller; at most one request redeems it, which is of that caller,
and no commit succeeds for another.  A commit that its owner calls while it holds the token spends
it, unless the daemon refused to begin with it, or the commit was refused early. -/
theorem held_works_once (store : Store) (files : F) (clock now : Nat)
    (preferences : ClipboardSettings) (moves : List (Pool.Move (Call F) Chance)) :
    let pool := (service store files clock now preferences).after (program P H) moves
    let log := pool.shared.authority.log
    (∀ id, log.countP (Authority.isPaste id) ≤ 1) ∧
    (∀ j id owner time, (j, .pasted id owner time) ∈ log →
      ∃ expires, (id, .began owner expires) ∈ log ∧ time < expires ∧
        ∀ owner' expires', (id, .began owner' expires') ∈ log → owner' = owner) ∧
    (∀ kind id owner owner', Authority.IssuedTo kind id owner log →
      Authority.IssuedTo kind id owner' log → owner = owner') ∧
    (∀ kind j id owner, (j, .redeemed kind id owner) ∈ log →
      Authority.IssuedTo kind id owner log ∧
        ∀ j' owner', (j', .redeemed kind id owner') ∈ log → j' = j) ∧
    (∀ i client reserves method kind id answer, method.commits = some (kind, id) →
      pool.Returned i (.request client reserves method) (.ok answer) →
        Authority.IssuedTo kind id (client.map Prod.snd) log) ∧
    (∀ i client reserves id id',
      pool.Returned i (.request client reserves (.editCancel id))
        (.ok (.authority (.cancelled id' true))) →
        Authority.IssuedTo .edit id (client.map Prod.snd) log) ∧
    ∀ later i client reserves method kind id expires reply,
      Authority.held pool.shared.authority kind id = some (client.map Prod.snd, expires) →
      pool.threads i = none → method.commits = some (kind, id) →
      (pool.after (program P H) later).Returned i (.request client reserves method) reply →
      Unserved reply ∨ method.Refuses reply ∨
        Authority.held (pool.after (program P H) later).shared.authority kind id = none := by
  intro pool log
  obtain ⟨moves', later', -, hseen, hanswers⟩ :=
    authority_after (P := P) (H := H) store files clock now preferences moves []
  have hkeeps := Authority.service_keeps now (moves' ++ later')
  rw [Pool.after_append] at hkeeps
  have hpaste := hkeeps.valid.paste
  have htokens := hkeeps.valid.tokens
  refine ⟨fun id => ?_, fun j id owner time hj => ?_, fun kind id owner owner' h h' => ?_,
    fun kind j id owner hj => ?_,
      fun i client reserves method kind id answer hcommits hreturned => ?_,
    fun i client reserves id id' hreturned => ?_,
    fun later i client reserves method kind id expires reply hheld hnew hcommits hreturned => ?_⟩
  · exact hseen.sublist.countP_le.trans (hpaste.once id)
  · obtain ⟨-, expires, hbegan, hlt⟩ := hpaste.pasted j id owner time (hseen.sublist.subset hj)
    refine ⟨expires, hseen.mem rfl hbegan, hlt, fun owner' expires' hbegan' => ?_⟩
    exact (hpaste.beganOnce id _ _ _ _ (hseen.sublist.subset hbegan') hbegan).1
  · obtain ⟨expires, hissued⟩ := hseen.issuedTo.mp h
    obtain ⟨expires', hissued'⟩ := hseen.issuedTo.mp h'
    exact ((htokens kind).issuedOnce id _ _ _ _ hissued hissued').1
  · obtain ⟨-, hissued⟩ := (htokens kind).redeemed j id owner (hseen.sublist.subset hj)
    refine ⟨hseen.issuedTo.mpr hissued, fun j' owner' hj' => ?_⟩
    exact (htokens kind).redeemedOnce j' j id owner' owner (hseen.sublist.subset hj')
      (hseen.sublist.subset hj)
  · obtain ⟨call, hcall, hcommit⟩ := Method.authority_commits hcommits
    obtain ⟨-, hunserved | ⟨answer', hreturned', hfits⟩⟩ :=
      hanswers i (.request client reserves method) call _ hcall hreturned
    · exact hunserved.not_ok.elim
    · obtain ⟨a, rfl⟩ := hfits.ok
      have hpost : Authority.Post [] i call (.ok a) _ := hkeeps.threads i call _ hreturned'
      exact hseen.issuedTo.mpr ((hpost.commits hcommit).owned a rfl)
  · obtain ⟨-, hunserved | ⟨answer', hreturned', hfits⟩⟩ :=
      hanswers i _ (.editCancel _ id) _ rfl hreturned
    · exact hunserved.not_ok.elim
    · obtain ⟨a, rfl⟩ := hfits.ok
      have hpost : Authority.Post [] i (.editCancel _ id) (.ok a) _ :=
        hkeeps.threads i _ _ hreturned'
      have heq : a = .cancelled id' true := Eq.symm hfits
      exact hseen.issuedTo.mpr (hpost id' (congrArg Except.ok heq))
  · obtain ⟨moves', later', hseen, hseen', hanswers⟩ :=
      authority_after (P := P) (H := H) store files clock now preferences moves later
    obtain ⟨call, hcall, hcommit⟩ := Method.authority_commits hcommits
    obtain ⟨hnew', hresult⟩ := hanswers i (.request client reserves method) call _ hcall hreturned
    refine hresult.imp_right fun ⟨answer, hreturned', hfits⟩ => ?_
    rw [hseen.held] at hheld
    rw [hseen'.held]
    exact (Authority.commit_spends now moves' later' hheld (hnew' hnew) hcommit hreturned').imp_left
      fun hrefused => Method.refuses hcall hrefused hfits

/-- A challenge is handed out in the process. -/
def challenged : List (Pool.Move (Call Unit) Chance) :=
  .call 0 (.request none false .wipePrepare) :: steps 0 3

/-- A caller of the socket answers it, and then the process does. -/
def answered : List (Pool.Move (Call Unit) Chance) :=
  .call 1 (.request (some (.socket, "a")) false (.wipeCommit ⟨0, "WIPE"⟩)) :: steps 1 6 ++
  .call 2 (.request none false (.wipeCommit ⟨0, "WIPE"⟩)) :: steps 2 40

set_option maxRecDepth 100000 in
/-- The wipe of the other caller fails, and that of the holder spends the challenge. -/
theorem stranger_answers_in_vain :
    Authority.held ((service .fresh () 0 0 .default).after (program .plain emptyMachine)
      challenged).shared.authority .wipe 0 = some (none, 30000) ∧
    (∃ reply, (((service .fresh () 0 0 .default).after (program .plain emptyMachine)
      challenged).after (program .plain emptyMachine) answered).Returned 1
        (.request (some (.socket, "a")) false (.wipeCommit ⟨0, "WIPE"⟩)) reply) ∧
    (∀ answer, ¬(((service .fresh () 0 0 .default).after (program .plain emptyMachine)
      challenged).after (program .plain emptyMachine) answered).Returned 1
        (.request (some (.socket, "a")) false (.wipeCommit ⟨0, "WIPE"⟩)) (.ok answer)) ∧
    Authority.held (((service .fresh () 0 0 .default).after (program .plain emptyMachine)
      challenged).after (program .plain emptyMachine) answered).shared.authority .wipe
        0 = none := by
  have hheld : Authority.held ((service .fresh () 0 0 .default).after (program .plain emptyMachine)
      challenged).shared.authority .wipe 0 = some (none, 30000) := rfl
  refine ⟨hheld, ⟨_, rfl⟩, fun answer hreturned => ?_, ?_⟩
  · rw [← Pool.after_append] at hreturned
    obtain ⟨-, -, hone, -, hsucceeds, -⟩ := held_works_once (P := .plain) (H := emptyMachine)
      .fresh () 0 0 .default (challenged ++ answered)
    have hstranger := hsucceeds 1 (some (.socket, "a")) false (.wipeCommit ⟨0, "WIPE"⟩) .wipe 0
      answer rfl hreturned
    have hholder : (0, .issued .wipe none 30000) ∈ ((service .fresh () 0 0 .default).after
        (program .plain emptyMachine) (challenged ++ answered)).shared.authority.log :=
      List.mem_cons_self
    cases hone .wipe 0 _ _ hstranger ⟨30000, hholder⟩
  · obtain ⟨-, -, -, -, -, -, hspends⟩ := held_works_once (P := .plain) (H := emptyMachine)
      .fresh () 0 0 .default challenged
    have hreturned : ∃ operation, (((service .fresh () 0 0 .default).after
        (program .plain emptyMachine) challenged).after (program .plain emptyMachine)
          answered).Returned 2 (.request none false (.wipeCommit ⟨0, "WIPE"⟩))
            (.ok (.operation operation)) := ⟨_, rfl⟩
    obtain ⟨operation, hreturned⟩ := hreturned
    rcases hspends answered 2 none false (.wipeCommit ⟨0, "WIPE"⟩) .wipe 0 30000 _ hheld rfl rfl
      hreturned with hunserved | hrefused | hspent
    · exact hunserved.not_ok.elim
    · exact (hrefused rfl).elim
    · exact hspent

end Held

end Daemon

end ClipDaemon
