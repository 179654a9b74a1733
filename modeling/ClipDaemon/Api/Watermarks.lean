import ClipDaemon.Api.QueryHistory
import ClipDaemon.Lib.Transition

/-!
# Watermarks

Every read of the history returns a revision of the observation clock, and a client drops
what has a smaller one than it has seen (`api.rs`, `api/history.rs`).  The clock is behind
a lock that a read holds from its first look at the token of the store to its last.

`Readers` runs the reads statement by statement: the read that holds the lock, and the log
of what was returned and how the clock has moved.  The store makes operations between any
two statements, and its reads may fail.

The clock moves forward with each new token, so the responses in the order of the log have
growing watermarks, and equal ones stand for one token (`watermarks_order_reads`).
-/

namespace ClipDaemon

open Versions Relation

/-! ## Observations -/

/-- The next token is a new one, whatever it is. -/
def Clock.invalidate (clock : Clock) : Clock := { clock with token := none }

/-- The state of the observation clock that an answer tells. -/
structure Watermark where
  epoch : String
  revision : Nat
deriving DecidableEq

/-- A token and the watermark that it was observed at. -/
structure Observation where
  /-- The token. -/
  historyRevision : UInt64
  history : Watermark
deriving DecidableEq

/-- The answer to `clipboard.history.revision`. -/
structure RevisionData where
  revision : Option UInt64
  snapshotRevision : UInt64
  history : Watermark
deriving DecidableEq

def Service.invalidate : Api Unit := Prog.update fun s =>
  .ok { s with clock := s.clock.invalidate }

/-- `ApiService::observe_history`: a token that cannot be read invalidates the clock. -/
def observeHistory (epoch : String) : Api Observation := do
  match ← Service.changeToken.attempt with
  | .ok token =>
      let revision ← Service.observe token
      pure ⟨token, epoch, revision⟩
  | .error error =>
      Service.invalidate
      throw error

/-- `ApiService::history_revision`. -/
def historyRevision (epoch : String) : Api RevisionData := do
  let observation ← observeHistory epoch
  pure ⟨some observation.historyRevision, observation.historyRevision, observation.history⟩

/-! ## Readers -/

/-- The requests that read under the lock of the clock. -/
inductive ReadRequest
  | query (params : QueryParams) (owner : Option String) (collapse : Bool)
  | revision
  | observation

/-- Their answers, with what was asked. -/
inductive ReadReply
  | query (params : QueryParams) (owner : Option String) (collapse : Bool) (data : QueryData)
  | revision (data : RevisionData)
  | observation (data : Observation)

namespace ReadReply

/-- The token that the reply is labelled with. -/
def token : ReadReply → UInt64
  | .query _ _ _ data => data.snapshotRevision
  | .revision data => data.snapshotRevision
  | .observation data => data.historyRevision

/-- The revision of the clock that the reply is labelled with. -/
def watermark : ReadReply → Nat
  | .query _ _ _ data => data.observed
  | .revision data => data.history.revision
  | .observation data => data.history.revision

end ReadReply

/-- What a request does while it holds the lock. -/
def ReadRequest.program (P : Platform) (C : CursorCodec) (epoch : String) :
    ReadRequest → Api ReadReply
  | .query params owner collapse => do
      let data ← queryHistory P C params owner collapse
      pure (.query params owner collapse data)
  | .revision => do
      let data ← historyRevision epoch
      pure (.revision data)
  | .observation => do
      let data ← observeHistory epoch
      pure (.observation data)

/-- What is recorded of the readers. -/
inductive ReadEntry
  | response (reply : ReadReply)
  | failed (error : ApiError)
  /-- The clock has taken a new token. -/
  | token (token : UInt64)
  /-- The clock was invalidated. -/
  | outage

/-- How the clock has moved. -/
def Clock.moved (before after : Clock) : List ReadEntry :=
  if after = before then []
  else
    match after.token with
    | some token => [.token token]
    | none => [.outage]

/-- The readers of the history: the one that holds the lock, and the log. -/
structure Readers where
  service : Service
  running : Option (Api ReadReply)
  log : List ReadEntry

namespace Readers

/-- The turns of the readers and of others. -/
inductive Turn
  /-- A request of any caller takes the lock, if it is free. -/
  | enter (request : ReadRequest)
  /-- The next statement of the request that holds the lock. -/
  | statement
  /-- An operation on the store. -/
  | store (op : DatabaseOp)
  /-- Time passes, searches start and end, and reads of the store fail or work again. -/
  | other (elapsed : UInt64) (permits : Nat) (refused : Bool) (faults : List (Option BackendError))

def start (s : Service) : Readers := ⟨s, none, []⟩

variable (P : Platform) (C : CursorCodec) (epoch : String)

/-- A request takes the lock. -/
def enter (request : ReadRequest) (r : Readers) : Readers :=
  match r.running with
  | none => { r with running := some (request.program P C epoch) }
  | some _ => r

/-- The next statement of the request that holds the lock. -/
def statement (r : Readers) : Readers :=
  match r.running with
  | none => r
  | some (.pure reply) => { r with running := none, log := r.log ++ [.response reply] }
  | some (.throw error) => { r with running := none, log := r.log ++ [.failed error] }
  | some (.stmt op next) =>
      match op r.service with
      | .ok (b, service) =>
          { service, running := some (next b)
            log := r.log ++ r.service.clock.moved service.clock }
      | .error error => { r with running := none, log := r.log ++ [.failed error] }

def step (r : Readers) : Turn → Readers
  | .enter request => r.enter P C epoch request
  | .statement => r.statement
  | .store op => { r with service := { r.service with store := r.service.store.step P op } }
  | .other elapsed permits refused faults =>
      { r with service := { r.service with elapsed, permits, refused, faults } }

def after (turns : List Turn) (r : Readers) : Readers := turns.foldl (step P C epoch) r

end Readers

/-! ## The clock -/

/-- How the clock can move: not at all, by an outage, or to a new token. -/
inductive Clock.Ticks (c : Clock) : Clock → Prop
  | stay : Ticks c c
  | outage : Ticks c c.invalidate
  | token (token : UInt64) : c.token ≠ some token → c.revision < MAX_OBSERVATION →
      Ticks c ⟨some token, c.revision + 1⟩

theorem Clock.observe_ok {c c' : Clock} {token : UInt64} {revision : Nat}
    (h : c.observe token = .ok (revision, c')) : c.Ticks c' ∧ c' = ⟨some token, revision⟩ := by
  unfold Clock.observe at h
  split at h
  next htoken =>
    cases h
    refine ⟨.stay, ?_⟩
    rw [← htoken]
  next htoken =>
    split at h
    · cases h
    next hroom =>
      cases h
      exact ⟨.token token htoken (by omega), rfl⟩

theorem Clock.observe_error {c : Clock} {token : UInt64} {e : ApiError}
    (h : c.observe token = .error e) : c.token ≠ some token ∧ MAX_OBSERVATION ≤ c.revision := by
  unfold Clock.observe at h
  split at h
  · cases h
  next htoken =>
    split at h
    next hend => exact ⟨htoken, hend⟩
    · cases h

/-- A statement moves the clock, and leaves the store alone. -/
def Service.Ticks (s t : Service) : Prop := s.clock.Ticks t.clock ∧ t.store = s.store

theorem Service.Ticks.refl (s : Service) : s.Ticks s := ⟨.stay, rfl⟩

section Statements

variable {P : Platform} {C : CursorCodec} {params : QueryParams} {owner : Option String}
  {collapse : Bool}

theorem each_changeToken : Service.changeToken.Each Service.Ticks :=
  Prog.each_bind (Prog.each_query Service.Ticks.refl _) fun _ => Prog.each_pure _

theorem each_observe (token : UInt64) : (Service.observe token).Each Service.Ticks := by
  refine Prog.each_action fun s revision t hop => ?_
  cases hclock : s.clock.observe token with
  | error e => rw [hclock] at hop; cases hop
  | ok p =>
      rw [hclock] at hop
      cases hop
      exact ⟨(Clock.observe_ok hclock).1, rfl⟩

theorem each_page (query : HistoryQuery) : (Service.page P query).Each Service.Ticks := by
  unfold Service.page
  split
  · exact Prog.each_throw _
  · exact Prog.each_query Service.Ticks.refl _

theorem each_search : (HistorySearch.query P C params owner collapse).Each Service.Ticks := by
  refine Prog.each_bind (Prog.each_query Service.Ticks.refl _) fun _ => ?_
  refine Prog.each_bind each_changeToken fun _ => ?_
  refine Prog.each_bind (Prog.each_query Service.Ticks.refl _) fun _ => ?_
  refine Prog.each_bind (Prog.each_ofExcept _) fun _ => ?_
  refine Prog.each_bind (Prog.each_ofExcept _) fun _ => ?_
  refine Prog.each_bind (each_page _) fun _ => ?_
  refine Prog.each_bind each_changeToken fun _ => ?_
  exact Prog.each_bind (Prog.each_ofExcept _) fun _ => Prog.each_pure _

theorem each_clipboardQuery :
    (ClipboardService.query P C params owner collapse).Each Service.Ticks := by
  unfold ClipboardService.query
  split
  · exact Prog.each_throw _
  · split
    · exact Prog.each_throw _
    · split
      · split
        · exact Prog.each_throw _
        · exact Prog.each_bind each_search fun _ => Prog.each_pure _
      · split
        · exact Prog.each_throw _
        · exact Prog.each_bind (each_page _) fun _ => Prog.each_pure _

theorem each_queryHistory : (queryHistory P C params owner collapse).Each Service.Ticks := by
  refine Prog.each_bind each_changeToken fun before => ?_
  refine Prog.each_bind (each_observe before) fun _ => ?_
  refine Prog.each_bind each_clipboardQuery fun _ => ?_
  refine Prog.each_bind each_changeToken fun after => ?_
  refine Prog.each_bind (each_observe after) fun _ => ?_
  show Prog.Each Service.Ticks (ite _ _ _)
  split
  · exact Prog.each_throw _
  · exact Prog.each_pure _

theorem each_observeHistory (epoch : String) : (observeHistory epoch).Each Service.Ticks := by
  refine Prog.each_bind (Prog.each_attempt Service.Ticks.refl each_changeToken) fun result => ?_
  cases result with
  | ok token => exact Prog.each_bind (each_observe token) fun _ => Prog.each_pure _
  | error error =>
      refine Prog.each_bind (Prog.each_action fun s _ t hop => ?_) fun _ => Prog.each_throw _
      cases hop
      exact ⟨.outage, rfl⟩

theorem each_program (epoch : String) (request : ReadRequest) :
    (request.program P C epoch).Each Service.Ticks := by
  cases request with
  | query params owner collapse => exact Prog.each_bind each_queryHistory fun _ => Prog.each_pure _
  | revision =>
      refine Prog.each_bind ?_ fun _ => Prog.each_pure _
      exact Prog.each_bind (each_observeHistory epoch) fun _ => Prog.each_pure _
  | observation =>
      exact Prog.each_bind (each_observeHistory epoch) fun _ => Prog.each_pure _

end Statements

/-! ## What a reply shows -/

/-- The history is what the query answers in the state `t`. -/
def QueryParams.Shows (P : Platform) (C : CursorCodec) (params : QueryParams)
    (owner : Option String) (collapse : Bool) (t : Service) : History → Prop
  | .page page => page = Database.pageOf P (params.historyQuery params.offset collapse) t.committed
  | .search found => ∃ cursor elapsed,
      HistorySearch.openCursor C params owner collapse t.token elapsed = .ok cursor ∧
        cursor.token = t.token ∧
        found = HistorySearch.page C
          (Database.pageOf P (params.historyQuery cursor.offset.toNat collapse) t.committed)
          cursor params owner collapse

/-- The reply was computed in the state `t`: `t` had its token, and a query shows the history
of `t`. -/
def ReadReply.Shows (P : Platform) (C : CursorCodec) (t : Service) (reply : ReadReply) : Prop :=
  t.token = reply.token ∧
    ∀ params owner collapse data, reply = .query params owner collapse data →
      params.Shows P C owner collapse t data.history

/-- Equal tokens show equal histories. -/
theorem ReadReply.Shows.congr {P : Platform} {C : CursorCodec} {t t' : Service} {reply : ReadReply}
    (h : reply.Shows P C t) (htoken : t.token = t'.token)
    (hrevision : t.committed.storeMeta.revision = t'.committed.storeMeta.revision)
    (hview : t.committed.view = t'.committed.view) : reply.Shows P C t' := by
  refine ⟨htoken.symm.trans h.1, fun params owner collapse data hreply => ?_⟩
  have hshows := h.2 params owner collapse data hreply
  cases hhistory : data.history with
  | page page =>
      rw [hhistory] at hshows
      exact hshows.trans (pageOf_congr P _ hview hrevision)
  | search found =>
      rw [hhistory] at hshows
      obtain ⟨cursor, elapsed, hcursor, hsame, hfound⟩ := hshows
      refine ⟨cursor, elapsed, htoken ▸ hcursor, hsame.trans htoken, ?_⟩
      rw [hfound, pageOf_congr P _ hview hrevision]

section Replies

variable {P : Platform} {C : CursorCodec} {params : QueryParams} {owner : Option String}
  {collapse : Bool} {s : Service}

theorem ensures_shows (hs : s.Sane P) :
    (ClipboardService.query P C params owner collapse).Ensures (Move P) s fun r u =>
      ∀ history, r = .ok history → ∃ t, ReflTransGen (Move P) s t ∧ ReflTransGen (Move P) t u ∧
        params.Shows P C owner collapse t history := by
  unfold ClipboardService.query
  have hfail (e : ApiError) : (throw e : Api History).Ensures (Move P) s fun r u =>
      ∀ history, r = .ok history → ∃ t, ReflTransGen (Move P) s t ∧ ReflTransGen (Move P) t u ∧
        params.Shows P C owner collapse t history :=
    Prog.ensures_throw fun _ _ _ h => by cases h
  split
  · exact hfail _
  next hlength =>
    split
    · exact hfail _
    · split
      · split
        · exact hfail _
        · refine Prog.ensures_bind fun r u hsearch => ?_
          have hfound := ensures_search hs (Nat.le_of_not_lt hlength) r u hsearch
          cases r with
          | error e => exact fun _ h => by cases h
          | ok found =>
              refine Prog.ensures_pure fun v hv history h => ?_
              cases h
              obtain ⟨x, t, cursor, elapsed, hx, ht, hu, hcursor, hxt, htt, heq⟩ := hfound
              refine ⟨t, hx.trans ht, hu.trans hv, cursor, elapsed, ?_, htt, heq⟩
              rw [← htt, hxt]
              exact hcursor
      · split
        · exact hfail _
        · refine Prog.ensures_bind (ensures_page hs (Nat.le_of_not_lt hlength)
            (fun t u ht hu => ?_) fun b u history h => by cases h)
          refine Prog.ensures_pure fun v hv history h => ?_
          cases h
          exact ⟨t, ht, hu.trans hv, rfl⟩

/-- A query that finds the token unmoved shows the history of a state with that token. -/
theorem ensures_queryHistory (hs : s.Sane P) :
    (queryHistory P C params owner collapse).Ensures (Move P) s fun r u =>
      ∀ data, r = .ok data → ∃ t, ReflTransGen (Move P) s t ∧ ReflTransGen (Move P) t u ∧
        (ReadReply.query params owner collapse data).Shows P C t := by
  unfold queryHistory
  refine Prog.ensures_bind (ensures_changeToken hs (fun x s₁ hx h₁ => ?_)
    fun b u data h => by cases h)
  refine Prog.ensures_bind (ensures_observe (fun _ s₂ h₂ => ?_) fun u data h => by cases h)
  have hx₂ : ReflTransGen (Move P) x s₂ := h₁.trans h₂
  have hxs := hs.moves hx
  refine Prog.ensures_bind fun r s₃ hquery => ?_
  have hshows := ensures_shows (hxs.moves hx₂) r s₃ hquery
  cases r with
  | error e => exact fun data h => by cases h
  | ok history =>
      obtain ⟨t, ht, ht₃, hshows⟩ := hshows history rfl
      have hs₃ := ((hxs.moves hx₂).moves ht).moves ht₃
      refine Prog.ensures_bind (ensures_changeToken hs₃ (fun y s₄ hy h₄ => ?_)
        fun b u data h => by cases h)
      refine Prog.ensures_bind (ensures_observe (fun _ s₅ h₅ => ?_) fun u data h => by cases h)
      show Prog.Ensures (Move P) (ite _ _ _) s₅ _
      by_cases hmoved : x.token ≠ y.token
      · rw [if_pos hmoved]
        exact Prog.ensures_throw fun u _ data h => by cases h
      · rw [if_neg hmoved]
        have hstill := hxs.still (hx₂.trans ht) (ht₃.trans hy) (not_not.mp hmoved)
        refine Prog.ensures_pure fun u hu data h => ?_
        cases h
        refine ⟨t, hx.trans (hx₂.trans ht), (((ht₃.trans hy).trans h₄).trans h₅).trans hu, ?_, ?_⟩
        · exact hstill.1.symm.trans (not_not.mp hmoved)
        · intro params' owner' collapse' data' h
          cases h
          exact hshows

theorem ensures_observeHistory (hs : s.Sane P) (epoch : String) :
    (observeHistory epoch).Ensures (Move P) s fun r u =>
      ∀ data, r = .ok data → ∃ t, ReflTransGen (Move P) s t ∧ ReflTransGen (Move P) t u ∧
        t.token = data.historyRevision := by
  unfold observeHistory
  refine Prog.ensures_bind (Prog.ensures_attempt
    (ensures_changeToken hs (fun x s₁ hx h₁ => ?_) fun b u => ?_))
  · refine Prog.ensures_bind (ensures_observe (fun _ s₂ h₂ => ?_) fun u data h => by cases h)
    refine Prog.ensures_pure fun u hu data h => ?_
    cases h
    exact ⟨x, hx, (h₁.trans h₂).trans hu, rfl⟩
  · refine Prog.ensures_bind_any (fun _ v => ?_) fun e v data h => by cases h
    exact Prog.ensures_throw fun v _ data h => by cases h

/-- Every reply shows a state that was there while the lock was held. -/
theorem ensures_program (hs : s.Sane P) (epoch : String) (request : ReadRequest) :
    (request.program P C epoch).Ensures (Move P) s fun r u =>
      ∀ reply, r = .ok reply → ∃ t, ReflTransGen (Move P) s t ∧ ReflTransGen (Move P) t u ∧
        reply.Shows P C t := by
  cases request with
  | query params owner collapse =>
      refine Prog.ensures_bind fun r u hr => ?_
      have hquery := ensures_queryHistory hs r u hr
      cases r with
      | error e => exact fun reply h => by cases h
      | ok data =>
          refine Prog.ensures_pure fun v hv reply h => ?_
          cases h
          obtain ⟨t, ht, hu, hshows⟩ := hquery data rfl
          exact ⟨t, ht, hu.trans hv, hshows⟩
  | revision =>
      refine Prog.ensures_bind (Prog.ensures_bind fun r u hr => ?_)
      have hobserve := ensures_observeHistory hs epoch r u hr
      cases r with
      | error e => exact fun reply h => by cases h
      | ok data =>
          refine Prog.ensures_pure fun v hv => Prog.ensures_pure fun w hw reply h => ?_
          cases h
          obtain ⟨t, ht, hu, htoken⟩ := hobserve data rfl
          exact ⟨t, ht, (hu.trans hv).trans hw, htoken, fun _ _ _ _ h => by cases h⟩
  | observation =>
      refine Prog.ensures_bind fun r u hr => ?_
      have hobserve := ensures_observeHistory hs epoch r u hr
      cases r with
      | error e => exact fun reply h => by cases h
      | ok data =>
          refine Prog.ensures_pure fun v hv reply h => ?_
          cases h
          obtain ⟨t, ht, hu, htoken⟩ := hobserve data rfl
          exact ⟨t, ht, hu.trans hv, htoken, fun _ _ _ _ h => by cases h⟩

end Replies

/-! ## While the lock is held -/

/-- A move of the surroundings of the reader that holds the lock. -/
inductive Held (P : Platform) : Service → Service → Prop
  | store (s : Service) (op : DatabaseOp) : Held P s { s with store := s.store.step P op }
  | other (s : Service) (elapsed : UInt64) (permits : Nat) (refused : Bool)
      (faults : List (Option BackendError)) :
      Held P s { s with elapsed, permits, refused, faults }

section Held

variable {P : Platform} {C : CursorCodec} {s t : Service}

theorem Held.move (h : Held P s t) : Move P s t := by
  cases h with
  | store op => exact .store s op
  | other elapsed permits refused faults =>
      exact .other s s.clock elapsed permits refused faults

theorem Held.clock (h : Held P s t) : t.clock = s.clock := by
  cases h <;> rfl

theorem held_clock (h : ReflTransGen (Held P) s t) : t.clock = s.clock := by
  induction h with
  | refl => rfl
  | tail _ hmove ih => exact hmove.clock.trans ih

theorem ensures_observe_clock {token : UInt64} {Φ : ApiResult Nat → Service → Prop}
    (hok : ∀ revision u, u.clock = ⟨some token, revision⟩ → Φ (.ok revision) u)
    (herror : ∀ e u, Φ (.error e) u) : (Service.observe token).Ensures (Held P) s Φ := by
  refine Prog.ensures_action (fun t a t' u _ hop hmove => ?_) fun t e u _ _ _ => herror e u
  cases hclock : t.clock.observe token with
  | error e => rw [hclock] at hop; cases hop
  | ok p =>
      rw [hclock] at hop
      cases hop
      exact hok _ u ((held_clock hmove).trans (Clock.observe_ok hclock).2)

theorem ensures_observeHistory_clock (epoch : String) :
    (observeHistory epoch).Ensures (Held P) s fun r u =>
      ∀ data, r = .ok data → u.clock = ⟨some data.historyRevision, data.history.revision⟩ := by
  refine Prog.ensures_bind_any (fun result u => ?_) fun e u data h => by cases h
  cases result with
  | ok token =>
      refine Prog.ensures_bind (ensures_observe_clock (fun revision v hclock => ?_)
        fun e v data h => by cases h)
      refine Prog.ensures_pure fun w hw data h => ?_
      cases h
      exact (held_clock hw).trans hclock
  | error e =>
      refine Prog.ensures_bind_any (fun _ v => ?_) fun e v data h => by cases h
      exact Prog.ensures_throw fun v _ data h => by cases h

/-- A reply carries the clock as the reader leaves it. -/
theorem ensures_program_clock (epoch : String) (request : ReadRequest) :
    (request.program P C epoch).Ensures (Held P) s fun r u =>
      ∀ reply, r = .ok reply → u.clock = ⟨some reply.token, reply.watermark⟩ := by
  cases request with
  | query params owner collapse =>
      refine Prog.ensures_bind ?_
      refine Prog.ensures_bind_any (fun before _ => ?_) fun e u reply h => by cases h
      refine Prog.ensures_bind_any (fun _ _ => ?_) fun e u reply h => by cases h
      refine Prog.ensures_bind_any (fun history _ => ?_) fun e u reply h => by cases h
      refine Prog.ensures_bind_any (fun after u => ?_) fun e u reply h => by cases h
      refine Prog.ensures_bind (ensures_observe_clock (fun revision v hclock => ?_)
        fun e v reply h => by cases h)
      show Prog.Ensures (Held P) (ite _ _ _) v _
      split
      · exact Prog.ensures_throw fun w _ reply h => by cases h
      · refine Prog.ensures_pure fun w hw => Prog.ensures_pure fun w' hw' reply h => ?_
        cases h
        exact (held_clock (hw.trans hw')).trans hclock
  | revision =>
      refine Prog.ensures_bind (Prog.ensures_bind fun r u hr => ?_)
      have hclock := ensures_observeHistory_clock epoch r u hr
      cases r with
      | error e => exact fun reply h => by cases h
      | ok data =>
          refine Prog.ensures_pure fun v hv => Prog.ensures_pure fun w hw reply h => ?_
          cases h
          exact (held_clock (hv.trans hw)).trans (hclock data rfl)
  | observation =>
      refine Prog.ensures_bind fun r u hr => ?_
      have hclock := ensures_observeHistory_clock epoch r u hr
      cases r with
      | error e => exact fun reply h => by cases h
      | ok data =>
          refine Prog.ensures_pure fun v hv reply h => ?_
          cases h
          exact (held_clock hv).trans (hclock data rfl)

end Held

/-! ## The order of the replies -/

namespace ReadEntry

/-- The reply, if the entry is one. -/
def reply : ReadEntry → Option ReadReply
  | .response reply => some reply
  | _ => none

/-- The clock has taken another token, or an outage. -/
def IsMove : ReadEntry → Prop
  | .token _ | .outage => True
  | _ => False

end ReadEntry

/-- The replies in the order in which they were given. -/
def Readers.replies (r : Readers) : List ReadReply := r.log.filterMap ReadEntry.reply

/-- The service when the daemon starts. -/
def Service.fresh : Service where
  store := Store.fresh
  clock := ⟨none, 0⟩
  elapsed := 0
  permits := 2
  refused := false
  faults := []

/-- A state of the service since then. -/
def Service.Reached (P : Platform) (s : Service) : Prop := ReflTransGen (Move P) Service.fresh s

theorem Service.Reached.sane {P : Platform} {s : Service} (h : s.Reached P) : s.Sane P :=
  Service.Sane.moves (s := Service.fresh)
    ⟨Store.after_wellFormed P [], Store.after_settled P []⟩ h

/-- The later reply has no smaller watermark, and an equal one only for the same token and
history. -/
structure ReadReply.Before (P : Platform) (C : CursorCodec) (a b : ReadReply) : Prop where
  le : a.watermark ≤ b.watermark
  same : a.watermark = b.watermark → a.token = b.token ∧ ∃ t, a.Shows P C t ∧ b.Shows P C t

/-- A reply that is over, as the clock is now. -/
structure ReadReply.Past (P : Platform) (C : CursorCodec) (s : Service) (a : ReadReply) : Prop where
  shown : ∃ t, ReflTransGen (Move P) t s ∧ t.Reached P ∧ a.Shows P C t
  below : a.watermark ≤ s.clock.revision
  current : a.watermark = s.clock.revision → s.clock.token = none ∨ s.clock.token = some a.token

/-- What was answered is ordered by its watermarks. -/
structure Readers.Ordered (P : Platform) (C : CursorCodec) (r : Readers) : Prop where
  reached : r.service.Reached P
  bounded : r.service.clock.revision ≤ MAX_OBSERVATION
  running : ∀ rest, r.running = some rest → rest.Each Service.Ticks ∧ ∃ s, s.Reached P ∧
    (∀ a ∈ r.replies, ∃ t, ReflTransGen (Move P) t s ∧ t.Reached P ∧ a.Shows P C t) ∧
      rest.Ensures (Held P) r.service fun result u => ∀ b, result = .ok b →
        u.clock = ⟨some b.token, b.watermark⟩ ∧
          ∃ t, ReflTransGen (Move P) s t ∧ ReflTransGen (Move P) t u ∧ b.Shows P C t
  past : ∀ a ∈ r.replies, a.Past P C r.service
  sorted : r.replies.Pairwise (ReadReply.Before P C)
  since : ∀ before a later, r.log = before ++ .response a :: later →
    (∃ e ∈ later, e.IsMove) → a.watermark < r.service.clock.revision ∨ r.service.clock.token = none
  strict : ∀ before a later b rest, r.log = before ++ .response a ::
    (later ++ .response b :: rest) →
    (∃ e ∈ later, e.IsMove) → a.watermark < b.watermark

namespace Readers

variable {P : Platform} {C : CursorCodec} {epoch : String} {r : Readers}

theorem ordered_start : (start Service.fresh).Ordered P C where
  reached := .refl
  bounded := Nat.zero_le _
  running := by simp [start]
  past := by simp [replies, start]
  sorted := List.Pairwise.nil
  since := by simp [start]
  strict := by simp [start]

/-- The surroundings move. -/
theorem Ordered.held (h : r.Ordered P C) {s : Service} (hmove : Held P r.service s) :
    ({ r with service := s } : Readers).Ordered P C where
  reached := h.reached.tail hmove.move
  bounded := hmove.clock ▸ h.bounded
  running := by
    intro rest hrest
    obtain ⟨heach, s₀, hs₀, hold, hensures⟩ := h.running rest hrest
    exact ⟨heach, s₀, hs₀, hold, hensures.move (.single hmove)⟩
  past := by
    intro a ha
    have ha := h.past a ha
    obtain ⟨t, ht, hshows⟩ := ha.shown
    exact ⟨⟨t, ht.tail hmove.move, hshows⟩, hmove.clock ▸ ha.below, hmove.clock ▸ ha.current⟩
  sorted := h.sorted
  since := hmove.clock ▸ h.since
  strict := h.strict

/-- A request takes the lock. -/
theorem Ordered.enter (h : r.Ordered P C) (request : ReadRequest) :
    (r.enter P C epoch request).Ordered P C := by
  simp only [Readers.enter]
  split
  · refine ⟨h.reached, h.bounded, ?_, h.past, h.sorted, h.since, h.strict⟩
    intro rest hrest
    cases hrest
    refine ⟨each_program epoch request, r.service, h.reached, fun a ha => (h.past a ha).shown, ?_⟩
    have hclock := ensures_program_clock (P := P) (C := C) (s := r.service) epoch request
    have hshown := (ensures_program (C := C) h.reached.sane epoch request).restrict fun _ _ =>
      Held.move
    exact fun result u hresult b hb => ⟨hclock result u hresult b hb, hshown result u hresult b hb⟩
  · exact h

end Readers

/-- An entry of a list that grew by one is the last, or was there before. -/
theorem append_singleton_eq_append_cons {α : Type} {log before later : List α} {x y : α}
    (h : log ++ [x] = before ++ y :: later) :
    (later = [] ∧ x = y ∧ log = before) ∨
      ∃ later', later = later' ++ [x] ∧ log = before ++ y :: later' := by
  rcases List.eq_nil_or_concat' later with rfl | ⟨later', z, rfl⟩
  · obtain ⟨hlog, hx⟩ := List.append_inj' h rfl
    exact .inl ⟨rfl, by simpa using hx, hlog⟩
  · rw [← List.cons_append, ← List.append_assoc] at h
    obtain ⟨hlog, hx⟩ := List.append_inj' h rfl
    obtain rfl : x = z := by simpa using hx
    exact .inr ⟨later', rfl, hlog⟩

namespace Readers

variable {P : Platform} {C : CursorCodec} {epoch : String} {r : Readers}

/-- A move in a log that grew by one is the last entry, or was there before. -/
theorem move_concat {later : List ReadEntry} {x : ReadEntry}
    (h : ∃ e ∈ later ++ [x], e.IsMove) : (∃ e ∈ later, e.IsMove) ∨ x.IsMove := by
  obtain ⟨e, he, hmove⟩ := h
  rcases List.mem_append.mp he with he | he
  · exact .inl ⟨e, he, hmove⟩
  · exact .inr (List.mem_singleton.mp he ▸ hmove)

/-- An entry that is no reply is appended. -/
theorem Ordered.strict_concat (h : r.Ordered P C) {x : ReadEntry} (hx : x.reply = none)
    {before later rest : List ReadEntry} {a b : ReadReply}
    (hlog : r.log ++ [x] = before ++ .response a :: (later ++ .response b :: rest))
    (hmoved : ∃ e ∈ later, e.IsMove) : a.watermark < b.watermark := by
  rw [← List.cons_append, ← List.append_assoc] at hlog
  rcases append_singleton_eq_append_cons hlog with ⟨-, rfl, -⟩ | ⟨rest', -, hlog⟩
  · cases hx
  · rw [List.append_assoc, List.cons_append] at hlog
    exact h.strict before a later b rest' hlog hmoved

theorem replies_concat {x : ReadEntry} (hx : x.reply = none) (s : Service)
    (running : Option (Api ReadReply)) :
    ({ service := s, running, log := r.log ++ [x] } : Readers).replies = r.replies := by
  simp [replies, hx]

/-- The reader that holds the lock fails. -/
theorem Ordered.failed (h : r.Ordered P C) (error : ApiError) :
    ({ r with running := none, log := r.log ++ [.failed error] } : Readers).Ordered P C := by
  have hreplies := replies_concat (r := r) (x := .failed error) rfl r.service none
  constructor
  · exact h.reached
  · exact h.bounded
  · exact fun _ hrest => by cases hrest
  · rw [hreplies]
    exact h.past
  · rw [hreplies]
    exact h.sorted
  · intro before a later hlog hmoved
    rcases append_singleton_eq_append_cons hlog with ⟨rfl, -, -⟩ | ⟨later', rfl, hold⟩
    · simp at hmoved
    · rcases move_concat hmoved with hmoved | hmoved
      · exact h.since before a later' hold hmoved
      · cases hmoved
  · exact fun before a later b rest hlog => h.strict_concat rfl hlog

/-- The reader that holds the lock returns. -/
theorem Ordered.respond (h : r.Ordered P C) {b : ReadReply}
    (hrunning : r.running = some (.pure b)) :
    ({ r with running := none, log := r.log ++ [.response b] } : Readers).Ordered P C := by
  obtain ⟨-, s, hs, hseen, hensures⟩ := h.running _ hrunning
  obtain ⟨hclock, t, hst, htu, hshows⟩ := hensures.done b rfl
  have hreplies : ({ r with running := none, log := r.log ++ [.response b] } : Readers).replies =
      r.replies ++ [b] := by
    simp [replies, ReadEntry.reply]
  constructor
  · exact h.reached
  · exact h.bounded
  · exact fun _ hrest => by cases hrest
  · rw [hreplies]
    intro a ha
    rcases List.mem_append.mp ha with ha | ha
    · exact h.past a ha
    · rw [List.mem_singleton.mp ha]
      refine ⟨⟨t, htu, hs.trans hst, hshows⟩, ?_, ?_⟩
      · rw [hclock]
      · rw [hclock]
        exact fun _ => .inr rfl
  · rw [hreplies, List.pairwise_append]
    refine ⟨h.sorted, List.pairwise_singleton _ _, fun a ha b' hb' => ?_⟩
    rw [List.mem_singleton.mp hb']
    have hpast := h.past a ha
    refine ⟨?_, fun hsame => ?_⟩
    · have hbelow := hpast.below
      rwa [hclock] at hbelow
    · have htoken : a.token = b.token := by
        have hcurrent := hpast.current
        rw [hclock] at hcurrent
        simpa using (hcurrent hsame).resolve_left (by simp)|>.symm
      obtain ⟨t', ht', hreached, hshows'⟩ := hseen a ha
      refine ⟨htoken, t', hshows', ?_⟩
      have htokens : t'.token = t.token := hshows'.1.trans (htoken.trans hshows.1.symm)
      have hmoves := ht'.trans hst
      have hrevision := hreached.sane.revision_eq (hreached.sane.moves hmoves) htokens
      exact hshows.congr htokens.symm hrevision.symm ((moves_sealed hmoves).view_eq hrevision).symm
  · intro before a later hlog hmoved
    rcases append_singleton_eq_append_cons hlog with ⟨rfl, -, -⟩ | ⟨later', rfl, hold⟩
    · simp at hmoved
    · rcases move_concat hmoved with hmoved | hmoved
      · exact h.since before a later' hold hmoved
      · cases hmoved
  · intro before a later b' rest hlog hmoved
    rw [← List.cons_append, ← List.append_assoc] at hlog
    rcases append_singleton_eq_append_cons hlog with ⟨-, hb, hold⟩ | ⟨rest', -, hold⟩
    · obtain rfl : b = b' := by simpa using hb
      have hless := h.since before a later hold hmoved
      rw [hclock] at hless
      simpa using hless
    · rw [List.append_assoc, List.cons_append] at hold
      exact h.strict before a later b' rest' hold hmoved

theorem mem_replies {a : ReadReply} {before later : List ReadEntry}
    (h : r.log = before ++ .response a :: later) : a ∈ r.replies :=
  List.mem_filterMap.mpr ⟨.response a, by simp [h], rfl⟩

/-- The clock stands still, or the log tells how it has moved. -/
theorem moved_cases (before after : Clock) :
    (after = before ∧ before.moved after = []) ∨
      (after ≠ before ∧ ∃ e, before.moved after = [e] ∧ e.reply = none) := by
  unfold Clock.moved
  split
  next h => exact .inl ⟨h, rfl⟩
  next h =>
    right
    split
    · exact ⟨h, _, rfl, rfl⟩
    · exact ⟨h, _, rfl, rfl⟩

/-- A statement is a move. -/
theorem ticks_move {s t : Service} (h : s.Ticks t) : Move P s t := by
  have hmove := Move.other (P := P) s t.clock t.elapsed t.permits t.refused t.faults
  rw [← h.2] at hmove
  exact hmove

/-- The replies that were given stay behind a clock that moves. -/
theorem past_ticks {s t : Service} {a : ReadReply} (h : a.Past P C s) (hticks : s.Ticks t) :
    a.Past P C t := by
  obtain ⟨x, hx, hshows⟩ := h.shown
  have hshown : ∃ x, ReflTransGen (Move P) x t ∧ x.Reached P ∧ a.Shows P C x :=
    ⟨x, hx.tail (ticks_move hticks), hshows⟩
  have hbelow := h.below
  have hcurrent := h.current
  have hclock := hticks.1
  generalize hc : t.clock = c at hclock
  cases hclock with
  | stay => exact ⟨hshown, hc ▸ hbelow, hc ▸ hcurrent⟩
  | outage =>
      refine ⟨hshown, hc ▸ hbelow, fun _ => .inl ?_⟩
      rw [hc]
      rfl
  | token token hne hroom =>
      refine ⟨hshown, ?_, fun hsame => ?_⟩
      · rw [hc]
        exact Nat.le_succ_of_le hbelow
      · rw [hc] at hsame
        simp only at hsame
        omega

/-- A clock that has moved is ahead of the replies, or was invalidated. -/
theorem ahead_ticks {s t : Service} {a : ReadReply} (h : a.Past P C s) (hticks : s.Ticks t)
    (hne : t.clock ≠ s.clock) : a.watermark < t.clock.revision ∨ t.clock.token = none := by
  have hbelow := h.below
  have hclock := hticks.1
  generalize hc : t.clock = c at hclock hne
  cases hclock with
  | stay => exact absurd rfl hne
  | outage => exact .inr rfl
  | token token hne hroom => exact .inl (Nat.lt_succ_of_le hbelow)

theorem bounded_ticks {s t : Service} (h : s.clock.revision ≤ MAX_OBSERVATION)
    (hticks : s.Ticks t) : t.clock.revision ≤ MAX_OBSERVATION := by
  have hclock := hticks.1
  generalize t.clock = c at hclock
  cases hclock with
  | stay => exact h
  | outage => exact h
  | token token hne hroom => exact hroom

/-- The reader that holds the lock executes a statement. -/
theorem Ordered.tick (h : r.Ordered P C) {β : Type} {op : Service → ApiResult (β × Service)}
    {next : β → Api ReadReply} {b : β} {s : Service} (hrunning : r.running = some (.stmt op next))
    (hop : op r.service = .ok (b, s)) :
    ({ service := s, running := some (next b)
       log := r.log ++ r.service.clock.moved s.clock } : Readers).Ordered P C := by
  obtain ⟨heach, s₀, hs₀, hseen, hensures⟩ := h.running _ hrunning
  have hticks : r.service.Ticks s := heach.1 _ _ _ hop
  have hmoved := moved_cases r.service.clock s.clock
  have hreplies : ({ service := s, running := some (next b)
                     log := r.log ++ r.service.clock.moved s.clock } : Readers).replies =
      r.replies := by
    rcases hmoved with ⟨-, hmoved⟩ | ⟨-, e, hmoved, he⟩
    · rw [hmoved, List.append_nil]
      rfl
    · rw [hmoved]
      exact replies_concat he ..
  constructor
  · exact h.reached.tail (ticks_move hticks)
  · exact bounded_ticks h.bounded hticks
  · intro rest hrest
    cases hrest
    rw [hreplies]
    exact ⟨heach.2 b, s₀, hs₀, hseen, hensures.next hop⟩
  · rw [hreplies]
    exact fun a ha => past_ticks (h.past a ha) hticks
  · rw [hreplies]
    exact h.sorted
  · intro before a later hlog hmove
    rcases hmoved with ⟨hclock, hmoved⟩ | ⟨hclock, e, hmoved, -⟩
    · simp only [hmoved, List.append_nil] at hlog
      simp only [hclock]
      exact h.since before a later hlog hmove
    · simp only [hmoved] at hlog
      rcases append_singleton_eq_append_cons hlog with ⟨rfl, -, -⟩ | ⟨later', rfl, hold⟩
      · simp at hmove
      · exact ahead_ticks (h.past a (mem_replies hold)) hticks hclock
  · intro before a later b' rest hlog hmove
    rcases hmoved with ⟨-, hmoved⟩ | ⟨-, e, hmoved, he⟩
    · simp only [hmoved, List.append_nil] at hlog
      exact h.strict before a later b' rest hlog hmove
    · simp only [hmoved] at hlog
      exact h.strict_concat he hlog hmove

theorem Ordered.statement (h : r.Ordered P C) : r.statement.Ordered P C := by
  simp only [Readers.statement]
  split
  · exact h
  next reply hrunning => exact h.respond hrunning
  next error hrunning => exact h.failed error
  next β op next hrunning =>
    split
    next b s hop => exact h.tick hrunning hop
    next error hop => exact h.failed error

theorem Ordered.step (h : r.Ordered P C) (turn : Turn) : (r.step P C epoch turn).Ordered P C := by
  cases turn with
  | enter request => exact h.enter request
  | statement => exact h.statement
  | store op => exact h.held (.store r.service op)
  | other elapsed permits refused faults =>
      exact h.held (.other r.service elapsed permits refused faults)

theorem ordered_after (epoch : String) (turns : List Turn) :
    ((start Service.fresh).after P C epoch turns).Ordered P C :=
  Transition.foldl_invariant (I := Ordered P C) (fun _ turn h => h.step turn) turns ordered_start

end Readers

end ClipDaemon
