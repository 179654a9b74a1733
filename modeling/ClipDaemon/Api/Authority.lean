import ClipDaemon.Api.Edits
import ClipDaemon.Lib.Threads

/-!
# Requests that use authority

Sessions, edit leases and wipe challenges are what a caller holds in the daemon
(`api.rs`, `actions.rs`).  Every request on them is a thread whose statements are the
critical sections on the three maps and the calls to the backend, the settings and the
compositor; what such a call answers is a `Chance`.

The state keeps a log of what the requests did, each entry with the thread it belongs to.
A request that generates an id is known by it, so the number of the thread is the id.

What the backend, the settings and the compositor answer is left to chance here.  The daemon as a
whole, which has them all, refines this model (`ClipDaemon.Daemon.Refinement`).
-/

namespace ClipDaemon

open Thread (attempt outcome result)

/-- What a caller holds. -/
inductive Authority.Held
  | sessions
  | edits
  | challenges
deriving DecidableEq

/-- The two kinds of single-use tokens. -/
inductive TokenKind
  | edit
  | wipe
deriving DecidableEq

/-- What the requests do that others can see. -/
inductive Effect
  /-- `clipboard.session.begin` answers with the session of its thread. -/
  | began (owner : Owner) (expires : Nat)
  /-- A request has published its content. -/
  | published
  /-- A request that names the session prepares the paste. -/
  | prepared (session : Uuid) (owner : Owner)
  /-- A request that names the session is answered otherwise, while the session is armed or
  not. -/
  | unprepared (session : Uuid) (owner : Owner) (armed : Bool)
  /-- The delayed paste is dispatched. -/
  | pasted (session : Uuid) (owner : Owner) (time : Nat)
  /-- A request answers with the token of its thread. -/
  | issued (kind : TokenKind) (owner : Owner) (expires : Nat)
  /-- A commit has removed the token. -/
  | redeemed (kind : TokenKind) (id : Uuid) (owner : Owner)
  /-- The replacement or the wipe is carried out; the expiry was compared at `checked`. -/
  | used (kind : TokenKind) (id : Uuid) (owner : Owner) (checked : Nat)
deriving DecidableEq

/-- What callers hold, the time, and what was done with it. -/
structure Authority where
  now : Nat
  sessions : SessionManager
  edits : Tokens EditLease
  challenges : Tokens WipeChallenge
  /-- What happened, oldest first, with the thread that did it. -/
  log : List (Nat × Effect)

/-- Nobody holds anything. -/
def Authority.initial (now : Nat) : Authority where
  now := now
  sessions := fun _ => none
  edits := fun _ => none
  challenges := fun _ => none
  log := []

/-- What the surroundings answer to one call. -/
structure Authority.Chance where
  fails : Option ApiError
  /-- The error of a call to the backend. -/
  refuses : Option BackendError
  /-- A limit of the settings, or a revision of the backend. -/
  number : Nat
  target : Option Target
  details : EntryDetails
  /-- Whether the selection was published, or the dispatched paste is over. -/
  flag : Bool

/-! ## Requests -/

/-- The parameters of `clipboard.entry.action`. -/
structure Authority.ActionParams where
  entryId : String
  revision : Nat
  action : String
  sessionId : Option Uuid
  fileIndex : Option Nat

/-- The action pastes. -/
def Authority.ActionParams.pastes (params : ActionParams) : Bool :=
  params.action ∈ ["paste", "image-as-file"]

/-- The session that the action is to paste in. -/
def Authority.ActionParams.pasteSession (params : ActionParams) : Option Uuid :=
  if params.pastes then params.sessionId else none

/-- The parameters of a read and of `clipboard.entry.edit.begin`. -/
structure EntryParams where
  entryId : String
  revision : Option Nat

/-- The parameters of `clipboard.entry.edit.commit`. -/
structure EditCommitParams where
  editId : Uuid
  value : String
  pasteSessionId : Option Uuid

/-- The parameters of `clipboard.wipe.commit`. -/
structure WipeParams where
  challengeId : Uuid
  response : String

/-- The requests on what callers hold, and what goes on beside them. -/
inductive AuthorityCall
  | sessionBegin (owner : Owner)
  | sessionHidden (owner : Owner) (id : Uuid)
  | sessionEnd (owner : Owner) (id : Uuid)
  /-- A caller waits for so many rounds at most. -/
  | sessionWait (owner : Owner) (id : Uuid) (rounds : Nat)
  | entryAction (owner : Owner) (params : Authority.ActionParams)
  | editBegin (owner : Owner) (params : EntryParams)
  | editCommit (owner : Owner) (params : EditCommitParams)
  | editCancel (owner : Owner) (id : Uuid)
  | wipePrepare (owner : Owner)
  | wipeCommit (owner : Owner) (params : WipeParams)
  /-- The caller has left: `release_owner` drops one kind after another. -/
  | release (held : Authority.Held) (owner : String)
  /-- The daemon asks who still holds something. -/
  | resourceOwners
  /-- Time passes. -/
  | elapse (time : Nat)

/-- A successful answer. -/
inductive Authority.Answer
  | session (view : SessionView)
  /-- `operation.status` and `operation.message`. -/
  | pasted (status message : String)
  | edit (id : Uuid) (entryId : String) (revision : Nat) (mime value : String)
  /-- `paste.prepared`, if a session was named. -/
  | committed (published : Bool) (paste : Option Bool)
  | cancelled (id : Uuid) (cancelled : Bool)
  | challenge (id : Uuid)
  | wiped (warning : Option String)
  | none
deriving DecidableEq

/-- The answer says that the paste is prepared. -/
def Authority.Answer.prepares : ApiResult Authority.Answer → Bool
  | .ok (.pasted status _) => status = "paste-prepared"
  | .ok (.committed _ paste) => paste = some true
  | _ => false

/-- `operation.status` and `operation.message` of a paste. -/
def pasteFeedback (hasTarget : Bool) (action : String) : String × String :=
  match hasTarget, decide (action = "image-as-file") with
  | true, true => ("paste-prepared", "Image file link prepared; hide the picker")
  | true, false => ("paste-prepared", "Paste prepared; hide the picker")
  | false, true => ("completed", "Image file link copied; paste manually")
  | false, false => ("completed", "Copied; paste manually")

/-- Is the action safe for what the entry stores? -/
def validateAction (details : EntryDetails) (action : String) : ApiResult Unit :=
  let kind := details.entry.kind
  let allowed : Bool := match action with
    | "copy" | "delete" | "favorite" | "unfavorite" | "pin-current" | "cleanup" => true
    | "paste" => kind ≠ .binary
    | "image-as-file" | "annotate" => kind = .image
    | "open-url" => kind = .link
    | "open-file" | "reveal-file" => !details.files.isEmpty
    | _ => false
  if allowed then .ok () else .error (.validation "action is unsafe for this clipboard type")

namespace Authority

/-! ## Statements -/

/-- A program of a request, with the errors of the API. -/
abbrev Act := ExceptT ApiError (Thread Authority Chance)

/-- What thread `i` did is logged. -/
def record (s : Authority) (i : Nat) (effect : Effect) : Authority :=
  { s with log := s.log ++ [(i, effect)] }

/-- A call to the settings. -/
def settings {α : Type} (reply : Chance → α) : Act α :=
  attempt fun chance s =>
    some (match chance.fails with
      | some error => .error (settingsError error.message)
      | none => .ok (reply chance), s)

/-- The settings refuse while the service shuts down. -/
def maxEntryBytes : Act Nat := settings (·.number)

/-- A call to anything else. -/
def outside {α : Type} (reply : Chance → α) : Act α :=
  attempt fun chance s =>
    some (match chance.fails with
      | some error => .error error
      | none => .ok (reply chance), s)

/-- A call to the backend. -/
def backend {α : Type} (reply : Chance → α) : Act α :=
  attempt fun chance s =>
    some (match chance.refuses with
      | some error => .error (.ofBackend error)
      | none => .ok (reply chance), s)

/-- The backend restores the entry and publishes it, or fails. -/
def restore (i : Nat) : Act Unit :=
  attempt fun chance s =>
    match chance.refuses with
    | some error => some (.error (.ofBackend error), s)
    | none => some (.ok (), s.record i .published)

/-- The backend publishes a replacement, which may fail. -/
def publishReplacement (i : Nat) : Act Bool :=
  attempt fun chance s =>
    some (.ok chance.flag, if chance.flag then s.record i .published else s)

/-- Leases that have expired are dropped. -/
def purgeEdits : Act Unit :=
  attempt fun _ s => some (.ok (), { s with edits := s.edits.purge s.now })

/-- The session is there and is the caller's; does it have a target? -/
def validatePaste (id : Uuid) (owner : Owner) : Act Bool :=
  attempt fun _ s =>
    let validated := s.sessions.validatePaste id owner s.now
    some (validated.1.mapError staleTarget, { s with sessions := validated.2 })

/-- A paste that is armed is prepared. -/
def armPaste (i : Nat) (id : Uuid) (owner : Owner) : Act Bool :=
  attempt fun _ s =>
    let armed := s.sessions.armPaste id owner s.now
    let s := { s with sessions := armed.2 }
    some (.ok armed.1, if armed.1 then s.record i (.prepared id owner) else s)

/-- The session would paste if it was hidden now. -/
def armed (s : Authority) (id : Uuid) (owner : Owner) : Bool :=
  (s.sessions id).any fun session =>
    session.owner = owner && session.pastePending && !session.hidden && s.now < session.expires

/-- The answer to a request that names a session. -/
def answering (i : Nat) (session : Option Uuid) (owner : Owner) (m : Act Answer) :
    Thread Authority Chance (ApiResult Answer) := do
  let answer ← m.run
  match session with
  | some id =>
      if Answer.prepares answer then return answer
      else
        Thread.modify fun s => ((), s.record i (.unprepared id owner (s.armed id owner)))
        return answer
  | none => return answer

/-- The lease is taken out, by its owner. -/
def redeemEdit (i : Nat) (id : Uuid) (owner : Owner) : Act EditLease :=
  attempt fun _ s =>
    match s.edits.redeem id owner with
    | (some lease, edits) => some (.ok lease, { s with edits }.record i (.redeemed .edit id owner))
    | (none, edits) =>
        some (.error (editError "Edit session is unknown or already used"), { s with edits })

/-- The challenge is taken out, by its owner. -/
def redeemWipe (i : Nat) (id : Uuid) (owner : Owner) : Act WipeChallenge :=
  attempt fun _ s =>
    match s.challenges.redeem id owner with
    | (some challenge, challenges) =>
        some (.ok challenge, { s with challenges }.record i (.redeemed .wipe id owner))
    | (none, challenges) =>
        some (.error (.new "stale-action" "wipe challenge is unknown or already used"),
          { s with challenges })

/-- The time, unless the token has expired by now. -/
def unexpired (expires : Nat) (error : ApiError) : Act Nat :=
  attempt fun _ s => some (if expires ≤ s.now then .error error else .ok s.now, s)

/-- The backend replaces an entry, or wipes the history. -/
def carryOut (i : Nat) (kind : TokenKind) (id : Uuid) (owner : Owner) (checked : Nat) : Act Unit :=
  attempt fun chance s =>
    some (match chance.refuses with | some error => .error (.ofBackend error) | none => .ok (),
      s.record i (.used kind id owner checked))

/-! ## Sessions -/

/-- `clipboard.session.begin`: the target is asked for between two critical sections. -/
def sessionBegin (i : Nat) (owner : Owner) : Act Answer := do
  attempt fun _ s => some (.ok (), { s with sessions := s.sessions.removeExpired s.now })
  let target ← attempt fun chance s => some (.ok chance.target, s)
  attempt fun _ s =>
    let started := s.sessions.start i owner target s.now
    some (.ok (.session started.1),
      { s with sessions := started.2 }.record i (.began owner (s.now + SESSION_TTL)))

/-- `clipboard.session.hidden`: an armed session pastes. -/
def sessionHidden (i : Nat) (owner : Owner) (id : Uuid) : Act Answer :=
  attempt fun _ s =>
    match s.sessions.hideWith id owner s.now with
    | (.ok (view, some _), sessions) =>
        some (.ok (.session view), { s with sessions }.record i (.pasted id owner s.now))
    | (.ok (view, none), sessions) => some (.ok (.session view), { s with sessions })
    | (.error error, sessions) => some (.error (staleTarget error), { s with sessions })

/-- `clipboard.session.end`. -/
def sessionEnd (owner : Owner) (id : Uuid) : Act Answer :=
  attempt fun _ s =>
    let finished := s.sessions.finish id owner
    some (.ok (.session finished.1), { s with sessions := finished.2 })

/-- `clipboard.session.wait`: the session is looked at again until it is over. -/
def sessionWait (owner : Owner) (id : Uuid) : Nat → Act Answer
  | 0 => return .none
  | rounds + 1 => do
      let polled ← attempt fun chance s =>
        some (.ok (s.sessions.waitPoll id owner s.now chance.flag), s)
      match polled with
      | some (.ok view) => return .session view
      | some (.error error) => throw (staleTarget error)
      | none => sessionWait owner id rounds

/-! ## Entries -/

def loadDetails (entryId : String) (revision : Option Nat) : Act EntryDetails := do
  result (validateEntryId entryId)
  let details ← backend (·.details)
  result (validateRevision revision details.entry.revision)
  return details

/-- The entry is published, and then the session is armed. -/
def paste (i : Nat) (owner : Owner) (params : ActionParams) : Act Answer :=
  match params.sessionId with
  | none => throw (.validation "session_id is required for paste")
  | some id => do
      let hasTarget ← validatePaste id owner
      restore i
      let hasTarget ← if hasTarget then armPaste i id owner else pure false
      let (status, message) := pasteFeedback hasTarget params.action
      return .pasted status message

/-- `action`; one that does not paste is nothing to what callers hold. -/
def entryAction (i : Nat) (owner : Owner) (params : ActionParams) : Act Answer := do
  let _ ← maxEntryBytes
  purgeEdits
  let details ← loadDetails params.entryId (some params.revision)
  result (validateAction details params.action)
  if params.pastes then paste i owner params else outside fun _ => .none

def editBegin (i : Nat) (owner : Owner) (params : EntryParams) : Act Answer := do
  let _ ← maxEntryBytes
  purgeEdits
  let details ← loadDetails params.entryId params.revision
  let value ← result (editableValue details)
  attempt fun _ s =>
    let lease : EditLease :=
      { owner, entryId := details.entry.id, revision := details.entry.revision
        mime := details.entry.mime, expires := s.now + EDIT_TTL }
    some (.ok (.edit i lease.entryId lease.revision lease.mime value),
      { s with edits := s.edits.insert i lease }.record i (.issued .edit owner lease.expires))

/-- `EditLease::replace`; the result says whether the selection was published. -/
def EditLease.replace (i : Nat) (id : Uuid) (owner : Owner) (lease : EditLease) (value : String)
    (maxBytes : Nat) : Act Bool := do
  let checked ← unexpired lease.expires (editError "Edit session expired")
  if byteLen value > min MAX_EDIT_BYTES maxBytes then
    throw (editError "Edited text exceeds the configured limit")
  let revision ← backend (·.number)
  result (validateRevision (some lease.revision) revision)
  carryOut i .edit id owner checked
  publishReplacement i

/-- Arm the session only when the edit was published. -/
def prepareSession (i : Nat) (owner : Owner) (session : Option Uuid) (ready : Bool) :
    Act (Option Bool) := do
  match session with
  | none => return none
  | some id => if ready then return some (← armPaste i id owner) else return some false

/-- A session that is named is validated before anything is done. -/
def validateSession (session : Option Uuid) (owner : Owner) : Act Bool :=
  match session with
  | some id => validatePaste id owner
  | none => return false

def editCommit (i : Nat) (owner : Owner) (params : EditCommitParams) : Act Answer := do
  let maxBytes ← maxEntryBytes
  purgeEdits
  let pasteTarget ← validateSession params.pasteSessionId owner
  let lease ← redeemEdit i params.editId owner
  let published ← EditLease.replace i params.editId owner lease params.value maxBytes
  let paste ← prepareSession i owner params.pasteSessionId (published && pasteTarget)
  return .committed published paste

/-- The lease is dropped, by its owner. -/
def cancelLease (owner : Owner) (id : Uuid) : Act Answer :=
  attempt fun _ s =>
    let removed := s.edits.redeem id owner
    some (.ok (.cancelled id removed.1.isSome), { s with edits := removed.2 })

def editCancel (owner : Owner) (id : Uuid) : Act Answer := do
  let _ ← maxEntryBytes
  purgeEdits
  cancelLease owner id

/-! ## Wipe -/

/-- `clipboard.wipe.prepare`. -/
def wipePrepare (i : Nat) (owner : Owner) : Act Answer :=
  attempt fun _ s =>
    let challenge : WipeChallenge := { owner, expires := s.now + CHALLENGE_TTL }
    some (.ok (.challenge i),
      { s with challenges := (s.challenges.purge s.now).insert i challenge }.record i
        (.issued .wipe owner challenge.expires))

/-- All edits are over. -/
def clearEdits : Act Unit := attempt fun _ s => some (.ok (), { s with edits := fun _ => none })

def wipeCommit (i : Nat) (owner : Owner) (params : WipeParams) : Act Answer := do
  if params.response ≠ "WIPE" then throw (.validation "wipe confirmation must be WIPE")
  let challenge ← redeemWipe i params.challengeId owner
  let checked ← unexpired challenge.expires (.new "stale-action" "wipe challenge expired")
  -- `quiesce`, whose guard is resumed below
  let _ ← outside (·.flag)
  clearEdits
  carryOut i .wipe params.challengeId owner checked
  match ← outcome (outside (·.flag)) with
  | .ok _ => return .wiped none
  | .error error =>
      return .wiped (some ("History was wiped; capture remains stopped: " ++ error.message))

/-! ## Owners and time -/

/-- What the owner holds of a kind is dropped. -/
def drop (owner : String) (s : Authority) : Held → Authority
  | .sessions => { s with sessions := s.sessions.releaseOwner owner }
  | .edits => { s with edits := s.edits.release owner }
  | .challenges => { s with challenges := s.challenges.release owner }

def release (held : Held) (owner : String) : Act Answer :=
  attempt fun _ s => some (.ok .none, s.drop owner held)

/-- What has expired is dropped before the owners are listed. -/
def resourceOwners : Act Answer := do
  attempt fun _ s => some (.ok (), { s with sessions := s.sessions.removeExpired s.now })
  purgeEdits
  attempt fun _ s => some (.ok (), { s with challenges := s.challenges.purge s.now })
  return .none

/-- Time passes. -/
def elapse (time : Nat) : Act Answer :=
  attempt fun _ s => some (.ok .none, { s with now := s.now + time })

/-- The thread that executes a call. -/
def program (i : Nat) : AuthorityCall → Thread Authority Chance (ApiResult Answer)
  | .sessionBegin owner => (sessionBegin i owner).run
  | .sessionHidden owner id => (sessionHidden i owner id).run
  | .sessionEnd owner id => (sessionEnd owner id).run
  | .sessionWait owner id rounds => (sessionWait owner id rounds).run
  | .entryAction owner params => answering i params.pasteSession owner (entryAction i owner params)
  | .editBegin owner params => (editBegin i owner params).run
  | .editCommit owner params => answering i params.pasteSessionId owner (editCommit i owner params)
  | .editCancel owner id => (editCancel owner id).run
  | .wipePrepare owner => (wipePrepare i owner).run
  | .wipeCommit owner params => (wipeCommit i owner params).run
  | .release held owner => (release held owner).run
  | .resourceOwners => resourceOwners.run
  | .elapse time => (elapse time).run

/-- The pool of requests on a service that starts at a time. -/
def service (now : Nat) : Pool Authority Chance AuthorityCall (ApiResult Answer) :=
  .start (.initial now)

end Authority

end ClipDaemon
