import ClipDaemon.Text

/-!
# Paste sessions

A picker opens a session, publishes something, and hides; the daemon then pastes into the
window that was active when the session began (`session.rs`).  The sessions are a map
behind one lock, and each request on it is one critical section.

An id holds a v4 UUID, generated by one request and never again; it is the number of that
request here.
-/

namespace ClipDaemon

/-- The number of the request that generated it. -/
abbrev Uuid := Nat

/-- The unique name of a caller on the bus; in-process callers have none. -/
abbrev Owner := Option String

/-- Milliseconds. -/
def SESSION_TTL : Nat := 300000

/-- The window that a paste goes to. -/
structure Target where
  address : String
  windowClass : String
deriving DecidableEq

/-- An interaction session. -/
structure Session where
  target : Option Target
  owner : Owner
  expires : Nat
  pastePending : Bool
  hidden : Bool
  /-- The delayed paste that was dispatched. -/
  pasteTask : Option Target
deriving DecidableEq

/-- What its owner is told of a session. -/
structure SessionView where
  id : Uuid
  targetAvailable : Bool
  pasteMode : String
  expiresInMs : Nat
  state : String
deriving DecidableEq

/-- What the owner is told; without a target it may only copy. -/
def view (id : Uuid) (targetAvailable : Bool) (state : String) : SessionView where
  id := id
  targetAvailable := targetAvailable
  pasteMode := if targetAvailable then "copy-paste" else "copy-only"
  expiresInMs := SESSION_TTL
  state := state

/-- The map of sessions. -/
abbrev SessionManager := Uuid → Option Session

namespace SessionManager

/-- Sessions that have expired are dropped. -/
def removeExpired (sessions : SessionManager) (now : Nat) : SessionManager :=
  fun id => (sessions id).filter fun session => session.expires > now

/-- The part of `begin` after the active window is known. -/
def start (sessions : SessionManager) (id : Uuid) (owner : Owner) (target : Option Target)
    (now : Nat) : SessionView × SessionManager :=
  (view id target.isSome "active",
    Function.update sessions id (some
      { target, owner, expires := now + SESSION_TTL, pastePending := false, hidden := false
        pasteTask := none }))

/-- The session that a request of `owner` names, if it is not hidden. -/
def lookup (sessions : SessionManager) (id : Uuid) (owner : Owner) : Option Session :=
  (sessions id).filter fun session => session.owner = owner && !session.hidden

/-- A session is used by its owner, unless it has expired. -/
def withSession {α : Type} (sessions : SessionManager) (id : Uuid) (owner : Owner) (now : Nat)
    (useSession : Session → α × Session) : Except String α × SessionManager :=
  match sessions.lookup id owner with
  | none => (.error "Paste session is unknown or expired", sessions)
  | some session =>
      if session.expires ≤ now then
        (.error "Paste session expired", Function.update sessions id none)
      else
        let (a, session) := useSession session
        (.ok a, Function.update sessions id (some session))

/-- Does the session have a target? -/
def validatePaste (sessions : SessionManager) (id : Uuid) (owner : Owner) (now : Nat) :
    Except String Bool × SessionManager :=
  sessions.withSession id owner now fun session => (session.target.isSome, session)

/-- Arm automatic paste only after the requested clipboard publication has succeeded. -/
def armPaste (sessions : SessionManager) (id : Uuid) (owner : Owner) (now : Nat) :
    Bool × SessionManager :=
  match sessions.withSession id owner now fun session =>
    (session.target.isSome, { session with pastePending := session.target.isSome }) with
  | (.ok armed, sessions) => (armed, sessions)
  | (.error _, sessions) => (false, sessions)

/-- What `hide_with` does to its session, and the target it pastes to. -/
def hide (id : Uuid) (session : Session) : (SessionView × Option Target) × Session :=
  let paste := if session.pastePending then session.target else none
  ((view id session.target.isSome "hidden", paste),
    { session with
      hidden := true
      pasteTask := if session.pastePending && session.target.isSome then session.target
        else session.pasteTask })

/-- The session is hidden, and pastes if it was armed. -/
def hideWith (sessions : SessionManager) (id : Uuid) (owner : Owner) (now : Nat) :
    Except String (SessionView × Option Target) × SessionManager :=
  sessions.withSession id owner now (hide id)

/-- One round of `wait`: `none` says that the paste still runs. -/
def waitPoll (sessions : SessionManager) (id : Uuid) (owner : Owner) (now : Nat)
    (finished : Bool) : Option (Except String SessionView) :=
  match (sessions id).filter fun session => session.owner = owner && session.hidden with
  | none => some (.error "Hidden paste session is unknown or cancelled")
  | some session =>
      if session.expires ≤ now then some (.error "Paste session expired")
      else if session.pasteTask.isNone || finished then
        some (.ok (view id session.target.isSome "finished"))
      else none

/-- The session is over. -/
def finish (sessions : SessionManager) (id : Uuid) (owner : Owner) :
    SessionView × SessionManager :=
  if (sessions id).any fun session => session.owner = owner then
    (view id ((sessions id).any fun session => session.target.isSome) "ended",
      Function.update sessions id none)
  else (view id false "ended", sessions)

/-- The sessions of an owner that has left are dropped. -/
def releaseOwner (sessions : SessionManager) (owner : String) : SessionManager :=
  fun id => (sessions id).filter fun session => session.owner ≠ some owner

/-! ## The session that a request changes -/

variable {sessions : SessionManager} {id : Uuid} {owner : Owner} {now : Nat}

theorem lookup_some {session : Session} (h : sessions.lookup id owner = some session) :
    sessions id = some session ∧ session.owner = owner ∧ session.hidden = false := by
  obtain ⟨hid, hfilter⟩ := Option.filter_eq_some_iff.mp h
  simp only [Bool.and_eq_true, decide_eq_true_eq, Bool.not_eq_true'] at hfilter
  exact ⟨hid, hfilter.1, hfilter.2⟩

/-- A session survives the purge of the expired ones unless it is one of them. -/
theorem removeExpired_some {session : Session} {j : Uuid}
    (h : sessions.removeExpired now j = some session) :
    sessions j = some session ∧ now < session.expires := by
  obtain ⟨hid, hfilter⟩ := Option.filter_eq_some_iff.mp h
  exact ⟨hid, of_decide_eq_true hfilter⟩

/-- What `with_session` does: it refuses, it drops an expired session, or it uses one that
the owner holds. -/
theorem withSession_cases {α : Type} (sessions : SessionManager) (id : Uuid) (owner : Owner)
    (now : Nat) (useSession : Session → α × Session) :
    (∃ e, sessions.withSession id owner now useSession = (.error e, sessions)) ∨
    (∃ e session, sessions id = some session ∧ session.expires ≤ now ∧
      sessions.withSession id owner now useSession =
        (.error e, Function.update sessions id none)) ∨
    ∃ session, sessions id = some session ∧ session.owner = owner ∧ session.hidden = false ∧
      now < session.expires ∧
      sessions.withSession id owner now useSession =
        (.ok (useSession session).1,
          Function.update sessions id (some (useSession session).2)) := by
  rw [withSession]
  cases h : sessions.lookup id owner with
  | none => exact .inl ⟨_, rfl⟩
  | some session =>
      obtain ⟨hid, howner, hhidden⟩ := lookup_some h
      rcases Nat.lt_or_ge now session.expires with hlive | hexpired
      · refine .inr (.inr ⟨session, hid, howner, hhidden, hlive, ?_⟩)
        simp only [Nat.not_le.mpr hlive, if_false]
      · refine .inr (.inl ⟨"Paste session expired", session, hid, hexpired, ?_⟩)
        simp only [hexpired, if_true]

end SessionManager

end ClipDaemon
