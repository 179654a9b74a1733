import ClipDaemon.Api.Cursor
import ClipDaemon.Store.Search

/-!
# Queries with cursors

A history query reads the catalog token, opens its cursor, reads a page, and reads the
token twice more (`api.rs`, `actions.rs`, `history_search.rs`).  These are separate calls
of the store, and other clients change the store in between, so the query is a program
that is interleaved with the moves of its surroundings (`Move`).

Every change of what a query sees moves the token, and the token in a cursor is compared
before and after the page is read.  So a chain of cursors reads one state of the catalog
(`cursor_chain_one_snapshot`).
-/

namespace ClipDaemon

open Paging Versions Relation

/-! ## The observation clock -/

/-- The last token seen, and how often it was seen to change. -/
structure Clock where
  token : Option UInt64
  revision : Nat
deriving DecidableEq

def MAX_OBSERVATION : Nat := 9007199254740991

def clockExhausted : ApiError :=
  .new "history-unavailable" "History observation clock exhausted; restart required"

/-- A new token moves the clock on; at its bound it stops. -/
def Clock.observe (clock : Clock) (token : UInt64) : ApiResult (Nat × Clock) :=
  if clock.token = some token then .ok (clock.revision, clock)
  else if MAX_OBSERVATION ≤ clock.revision then .error clockExhausted
  else .ok (clock.revision + 1, ⟨some token, clock.revision + 1⟩)

/-! ## The service and its surroundings -/

/-- What a query reads. -/
structure Service where
  store : Store
  clock : Clock
  /-- Seconds since the start of the process. -/
  elapsed : UInt64
  /-- The searches that may start; those in progress hold the others. -/
  permits : Nat
  /-- The next call of the store is refused: its queue is full or closed. -/
  refused : Bool
  /-- The failures the next call of the store meets. -/
  faults : List (Option BackendError)

namespace Service

/-- What the store has committed. -/
def committed (s : Service) : Tables := s.store.committed

/-- The catalog revision as the API returns it. -/
def token (s : Service) : UInt64 := UInt64.ofNat s.committed.storeMeta.revision

end Service

/-- One move of the surroundings of a query: an operation on the store, of whatever
client, or a change of anything else. -/
inductive Move (P : Platform) : Service → Service → Prop
  | store (s : Service) (op : DatabaseOp) : Move P s { s with store := s.store.step P op }
  | other (s : Service) (clock : Clock) (elapsed : UInt64) (permits : Nat) (refused : Bool)
      (faults : List (Option BackendError)) :
      Move P s { s with clock, elapsed, permits, refused, faults }

def busy : ApiError := .new "busy" "Clipboard search is busy"

/-- A program of the API. -/
abbrev Api (α : Type) : Type 1 := Prog Service ApiError α

namespace Service

/-- A read through the worker of the store (`HistoryStore::call`).  Nothing runs behind
the fence. -/
def call {α : Type} (body : Sql α) : Api α := Prog.query fun s =>
  if s.refused || !s.store.isOpen then
    .error (.ofBackend (.unavailable "History queue is full or closed"))
  else if s.store.db.blocked then
    .error (.ofBackend (.unavailable "History storage is fenced; restart required"))
  else
    match (body.exec s.faults (s.store.db.pending.getD s.store.db.durable)).1 with
    | .ok a => .ok a
    | .error e => .error (.ofBackend e)

/-- The token is the revision of the store. -/
def changeToken : Api UInt64 := do
  let revision ← call Database.revision
  pure (UInt64.ofNat revision)

/-- The clock observes the token. -/
def observe (token : UInt64) : Api Nat := Prog.action fun s =>
  (s.clock.observe token).map fun (revision, clock) => (revision, { s with clock })

/-- A page of the store (`HistoryStore::query`). -/
def page (P : Platform) (query : HistoryQuery) : Api HistoryPage :=
  if byteLen query.query > MAX_QUERY_BYTES then
    throw (.ofBackend (invalidData "Search query is too long"))
  else call (Database.query P query)

def elapsedSeconds : Api UInt64 := Prog.query fun s => .ok s.elapsed

/-- Start a search. -/
def acquire : Api Unit := Prog.query fun s => if s.permits = 0 then .error busy else .ok ()

end Service

/-! ## The query -/

/-- The parameters of `clipboard.history.query`. -/
structure QueryParams where
  query : String
  generation : Nat
  offset : Nat
  limit : Nat
  cursorMode : Bool
  cursor : Option String
deriving DecidableEq

/-- A page of a cursor search. -/
structure SearchHistory where
  revision : UInt64
  generation : Nat
  current : Option EntrySummary
  entries : List EntrySummary
  hasMore : Bool
  nextCursor : Option String
  total : Nat
  searchLimited : Bool
  offset : UInt64
deriving DecidableEq

/-- A page, of a cursor or of an offset. -/
inductive History
  | search (history : SearchHistory)
  | page (history : HistoryPage)
deriving DecidableEq

/-- The answer to a query. -/
structure QueryData where
  history : History
  snapshotRevision : UInt64
  /-- The revision of the observation clock. -/
  observed : Nat
deriving DecidableEq

def staleHistory : ApiError :=
  .new "stale-history" "History changed during the query; refresh without replaying effects"

namespace QueryParams

/-- What a cursor of the request is bound to. -/
def scope (params : QueryParams) (owner : Option String) (collapse : Bool) : CursorScope where
  query := params.query
  generation := params.generation
  owner := owner
  collapse := collapse

/-- The query of the store for the page at the offset. -/
def historyQuery (params : QueryParams) (offset : Nat) (collapse : Bool) : HistoryQuery where
  query := params.query
  generation := params.generation
  offset := offset
  limit := params.limit
  collapseSelfEchoes := collapse

end QueryParams

namespace HistorySearch

/-- The page of a cursor, and the cursor of the next page. -/
def page (C : CursorCodec) (page : HistoryPage) (cursor : Cursor) (params : QueryParams)
    (owner : Option String) (collapse : Bool) : SearchHistory :=
  { revision := cursor.token, generation := params.generation, current := page.current
    entries := page.entries, hasMore := page.hasMore
    nextCursor :=
      if page.hasMore then
        some (C.encode (cursor.advance page.entries.length) (params.scope owner collapse))
      else none
    total := page.total, searchLimited := false, offset := cursor.offset }

/-- The cursor of a request: the one it carries, or one at the start of the list. -/
def openCursor (C : CursorCodec) (params : QueryParams) (owner : Option String) (collapse : Bool)
    (token elapsed : UInt64) : ApiResult Cursor :=
  match params.cursor with
  | some value => C.decode elapsed value (params.scope owner collapse)
  | none => .ok { token, offset := 0, expires := elapsed + CURSOR_SECONDS }

/-- `HistorySearch::query`: the token is compared before and after the page. -/
def query (P : Platform) (C : CursorCodec) (params : QueryParams) (owner : Option String)
    (collapse : Bool) : Api SearchHistory := do
  Service.acquire
  let token ← Service.changeToken
  let elapsed ← Service.elapsedSeconds
  let cursor ← Prog.ofExcept (openCursor C params owner collapse token elapsed)
  Prog.ofExcept (cursor.check token)
  let found ← Service.page P (params.historyQuery cursor.offset.toNat collapse)
  let token ← Service.changeToken
  Prog.ofExcept (cursor.check token)
  pure (page C found cursor params owner collapse)

end HistorySearch

/-- `ClipboardService::query`. -/
def ClipboardService.query (P : Platform) (C : CursorCodec) (params : QueryParams)
    (owner : Option String) (collapse : Bool) : Api History := do
  if byteLen params.query > MAX_QUERY_BYTES then
    throw (.validation "Search query exceeds 4096 bytes")
  else if params.limit < 1 ∨ MAX_QUERY_LIMIT < params.limit then
    throw (.validation "limit must be between 1 and 200")
  else if params.cursorMode then
    if params.offset ≠ 0 then
      throw (.validation "Use next_cursor, not offsets, in cursor mode")
    else do
      let found ← HistorySearch.query P C params owner collapse
      pure (.search found)
  else if params.cursor.isSome then throw (.validation "A cursor requires cursor mode")
  else do
    let found ← Service.page P (params.historyQuery params.offset collapse)
    pure (.page found)

/-- `ApiService::query_history`, after the settings are read. -/
def queryHistory (P : Platform) (C : CursorCodec) (params : QueryParams) (owner : Option String)
    (collapse : Bool) : Api QueryData := do
  let before ← Service.changeToken
  let _ ← Service.observe before
  let history ← ClipboardService.query P C params owner collapse
  let after ← Service.changeToken
  let observed ← Service.observe after
  if before ≠ after then throw staleHistory
  else pure { history, snapshotRevision := after, observed }

/-! ## The moves of the surroundings -/

section Moves

variable {P : Platform} {s t u : Service}

/-- However the surroundings move, the store has made some operations. -/
theorem moves_store (h : ReflTransGen (Move P) s t) : ∃ ops, t.store = s.store.after P ops := by
  induction h with
  | refl => exact ⟨[], rfl⟩
  | tail _ hmove ih =>
      obtain ⟨ops, hops⟩ := ih
      cases hmove with
      | store op =>
          refine ⟨ops ++ [op], ?_⟩
          rw [Store.after_append, ← hops]
          rfl
      | other => exact ⟨ops, hops⟩

/-- The committed state is well formed, and the connection is settled. -/
structure Service.Sane (P : Platform) (s : Service) : Prop where
  wellFormed : WellFormed P s.committed
  settled : s.store.db.Settled

theorem Service.Sane.moves (hs : s.Sane P) (h : ReflTransGen (Move P) s t) : t.Sane P := by
  induction h with
  | refl => exact hs
  | tail _ hmove ih =>
      cases hmove with
      | store op =>
          exact ⟨(Store.step_change P _ op).wellFormed ih.wellFormed,
            Store.settled_step P ih.settled op⟩
      | other => exact ⟨ih.wellFormed, ih.settled⟩

theorem moves_sealed (h : ReflTransGen (Move P) s t) :
    Sealed (·.storeMeta.revision) Tables.view s.committed t.committed := by
  obtain ⟨ops, hops⟩ := moves_store h
  have hsealed := Store.after_sealed P ops s.store
  rw [← hops] at hsealed
  exact hsealed

/-- Equal tokens are equal revisions. -/
theorem Service.Sane.revision_eq (hs : s.Sane P) (ht : t.Sane P) (h : s.token = t.token) :
    s.committed.storeMeta.revision = t.committed.storeMeta.revision := by
  have hmax : MAX_REVISION < 2 ^ 64 := by decide
  have hrev := congrArg UInt64.toNat h
  rw [token, token, UInt64.toNat_ofNat_of_lt', UInt64.toNat_ofNat_of_lt'] at hrev
  · exact hrev
  · exact ht.wellFormed.inRange.revision.trans hmax
  · exact hs.wellFormed.inRange.revision.trans hmax

/-- Between two states with one token the token and the view stay. -/
theorem Service.Sane.still (hs : s.Sane P) (h : ReflTransGen (Move P) s t)
    (h' : ReflTransGen (Move P) t u) (htoken : s.token = u.token) :
    s.token = t.token ∧ s.committed.view = t.committed.view := by
  have hrevision := hs.revision_eq (hs.moves (h.trans h')) htoken
  have hle := (moves_sealed h).clock_le
  have hle' := (moves_sealed h').clock_le
  have heq : s.committed.storeMeta.revision = t.committed.storeMeta.revision := by omega
  exact ⟨congrArg UInt64.ofNat heq, (moves_sealed h).view_eq heq⟩

end Moves

/-! ## What the calls return -/

section Calls

variable {P : Platform} {s : Service}

/-- A read of the store returns what it computes on a committed state, or fails. -/
theorem ensures_call {α : Type} {body : Sql α} {value : Tables → α}
    (hbody : ∀ t, body.eval t = .ok (value t, t)) (hs : s.Sane P) {Φ : ApiResult α → Service → Prop}
    (hok : ∀ t u, ReflTransGen (Move P) s t → ReflTransGen (Move P) t u →
      Φ (.ok (value t.committed)) u)
    (herror : ∀ b u, Φ (.error (.ofBackend b)) u) : (Service.call body).Ensures (Move P) s Φ := by
  refine Prog.ensures_query (fun t a u hmove hread hmove' => ?_) fun t e u _ hread _ => ?_
  · have ht := hs.moves hmove
    split at hread
    · cases hread
    · split at hread
      · cases hread
      next hblocked =>
        rw [ht.settled (by simpa using hblocked), Option.getD_none] at hread
        cases hexec : body.exec t.faults t.store.db.durable with
        | mk result t' =>
            rw [hexec] at hread
            cases result with
            | error e => cases hread
            | ok b =>
                cases hread
                have heval := Prog.exec_ok hexec
                rw [hbody] at heval
                cases heval
                exact hok t u hmove hmove'
  · split at hread
    · cases hread
      exact herror _ u
    · split at hread
      · cases hread
        exact herror _ u
      · split at hread
        · cases hread
        · cases hread
          exact herror _ u

theorem ensures_changeToken (hs : s.Sane P) {Φ : ApiResult UInt64 → Service → Prop}
    (hok : ∀ t u, ReflTransGen (Move P) s t → ReflTransGen (Move P) t u → Φ (.ok t.token) u)
    (herror : ∀ b u, Φ (.error (.ofBackend b)) u) :
    Service.changeToken.Ensures (Move P) s Φ := by
  refine Prog.ensures_bind (ensures_call (fun _ => rfl) hs (fun t u hmove hmove' => ?_) herror)
  exact Prog.ensures_pure fun v hmove'' => hok t v hmove (hmove'.trans hmove'')

theorem ensures_page (hs : s.Sane P) {query : HistoryQuery}
    (hlength : byteLen query.query ≤ MAX_QUERY_BYTES) {Φ : ApiResult HistoryPage → Service → Prop}
    (hok : ∀ t u, ReflTransGen (Move P) s t → ReflTransGen (Move P) t u →
      Φ (.ok (Database.pageOf P query t.committed)) u)
    (herror : ∀ b u, Φ (.error (.ofBackend b)) u) :
    (Service.page P query).Ensures (Move P) s Φ := by
  rw [Service.page, if_neg (by omega)]
  exact ensures_call (Database.eval_query P query) hs hok herror

theorem ensures_elapsedSeconds {Φ : ApiResult UInt64 → Service → Prop}
    (hok : ∀ elapsed u, ReflTransGen (Move P) s u → Φ (.ok elapsed) u) :
    Service.elapsedSeconds.Ensures (Move P) s Φ := by
  refine Prog.ensures_query (fun t a u hmove hread hmove' => ?_) fun t e u _ hread _ => ?_
  · exact hok a u (hmove.trans hmove')
  · cases hread

theorem ensures_acquire {Φ : ApiResult Unit → Service → Prop}
    (hok : ∀ u, ReflTransGen (Move P) s u → Φ (.ok ()) u) (herror : ∀ u, Φ (.error busy) u) :
    Service.acquire.Ensures (Move P) s Φ := by
  refine Prog.ensures_query (fun t a u hmove hread hmove' => ?_) fun t e u _ hread _ => ?_
  · exact hok u (hmove.trans hmove')
  · split at hread
    · cases hread
      exact herror u
    · cases hread

/-- The clock is read and advanced, and nothing else is changed. -/
theorem ensures_observe {token : UInt64} {Φ : ApiResult Nat → Service → Prop}
    (hok : ∀ observed u, ReflTransGen (Move P) s u → Φ (.ok observed) u)
    (herror : ∀ u, Φ (.error clockExhausted) u) :
    (Service.observe token).Ensures (Move P) s Φ := by
  refine Prog.ensures_action (fun t a t' u hmove hread hmove' => ?_) fun t e u _ hread _ => ?_
  · cases hclock : t.clock.observe token with
    | error e => rw [hclock] at hread; cases hread
    | ok p =>
        rw [hclock] at hread
        cases hread
        have hother := Move.other (P := P) t p.2 t.elapsed t.permits t.refused t.faults
        exact hok _ u ((hmove.tail hother).trans hmove')
  · unfold Clock.observe at hread
    split at hread
    · cases hread
    · split at hread
      · cases hread
        exact herror u
      · cases hread

end Calls

/-! ## What a query returns -/

/-- The failures of a query that do not come from its cursor. -/
inductive Outside : ApiError → Prop
  | backend (error : BackendError) : Outside (.ofBackend error)
  | busy : Outside busy
  | exhausted : Outside clockExhausted

section Queries

variable {P : Platform} {C : CursorCodec} {params : QueryParams} {owner : Option String}
  {collapse : Bool} {s : Service}

/-- The result of a cursor search: its cursor was opened in a state `x` and its page was
read in a later state `t`, and the token of the cursor was the token of both. -/
def Found (P : Platform) (C : CursorCodec) (params : QueryParams) (owner : Option String)
    (collapse : Bool) (s u : Service) (history : SearchHistory) : Prop :=
  ∃ (x t : Service) (cursor : Cursor) (elapsed : UInt64),
    ReflTransGen (Move P) s x ∧ ReflTransGen (Move P) x t ∧ ReflTransGen (Move P) t u ∧
      HistorySearch.openCursor C params owner collapse x.token elapsed = .ok cursor ∧
      cursor.token = x.token ∧ cursor.token = t.token ∧
      history = HistorySearch.page C
        (Database.pageOf P (params.historyQuery cursor.offset.toNat collapse) t.committed)
        cursor params owner collapse

theorem check_eq (cursor : Cursor) (token : UInt64) :
    cursor.check token = .ok () ∧ cursor.token = token ∨
      cursor.check token = .error staleCursor := by
  rw [Cursor.check]
  split
  next h => exact .inl ⟨rfl, h⟩
  · exact .inr rfl

theorem openCursor_error {token elapsed : UInt64} {e : ApiError}
    (h : HistorySearch.openCursor C params owner collapse token elapsed = .error e) :
    e = staleCursor := by
  unfold HistorySearch.openCursor at h
  split at h
  · exact CursorCodec.decode_error h
  · cases h

theorem ensures_search (hs : s.Sane P) (hlength : byteLen params.query ≤ MAX_QUERY_BYTES) :
    (HistorySearch.query P C params owner collapse).Ensures (Move P) s fun r u =>
      match r with
      | .ok history => Found P C params owner collapse s u history
      | .error e => e = staleCursor ∨ Outside e := by
  unfold HistorySearch.query
  refine Prog.ensures_bind (ensures_acquire (fun s₁ h₁ => ?_) fun _ => .inr .busy)
  have hs₁ := hs.moves h₁
  refine Prog.ensures_bind (ensures_changeToken hs₁ (fun x s₂ hx h₂ => ?_)
    fun b _ => .inr (.backend b))
  refine Prog.ensures_bind (ensures_elapsedSeconds fun elapsed s₃ h₃ => ?_)
  refine Prog.ensures_bind (Prog.ensures_ofExcept fun s₄ h₄ => ?_)
  cases hcursor : HistorySearch.openCursor C params owner collapse x.token elapsed with
  | error e => exact .inl (openCursor_error hcursor)
  | ok cursor =>
      refine Prog.ensures_bind (Prog.ensures_ofExcept fun s₅ h₅ => ?_)
      rcases check_eq cursor x.token with ⟨hcheck, htoken⟩ | hcheck
      case inr => rw [hcheck]; exact .inl rfl
      rw [hcheck]
      have hx₅ : ReflTransGen (Move P) x s₅ := ((h₂.trans h₃).trans h₄).trans h₅
      have hxs := hs₁.moves hx
      refine Prog.ensures_bind (ensures_page (hxs.moves hx₅) hlength (fun t s₆ ht h₆ => ?_)
        fun b _ => .inr (.backend b))
      have hts := (hxs.moves hx₅).moves ht
      refine Prog.ensures_bind (ensures_changeToken (hts.moves h₆) (fun y s₇ hy h₇ => ?_)
        fun b _ => .inr (.backend b))
      refine Prog.ensures_bind (Prog.ensures_ofExcept fun s₈ h₈ => ?_)
      rcases check_eq cursor y.token with ⟨hcheck', htoken'⟩ | hcheck'
      case inr => rw [hcheck']; exact .inl rfl
      rw [hcheck']
      refine Prog.ensures_pure fun u hu => ?_
      -- the token did not move between the two checks, so it stood while the page was read
      have hstill := hxs.still (hx₅.trans ht) (h₆.trans hy) (htoken.symm.trans htoken')
      exact ⟨x, t, cursor, elapsed, h₁.trans hx, hx₅.trans ht,
        (((h₆.trans hy).trans h₇).trans h₈).trans hu, hcursor, htoken, htoken.trans hstill.1, rfl⟩

theorem Found.moves {u : Service} {history : SearchHistory}
    (h : Found P C params owner collapse s u history) : ReflTransGen (Move P) s u := by
  obtain ⟨x, t, _, _, hx, ht, hu, -⟩ := h
  exact (hx.trans ht).trans hu

/-- The checks of a query in cursor mode. -/
def QueryParams.Valid (params : QueryParams) : Prop :=
  byteLen params.query ≤ MAX_QUERY_BYTES ∧ 1 ≤ params.limit ∧ params.limit ≤ MAX_QUERY_LIMIT

theorem ensures_clipboardQuery (hs : s.Sane P) (hmode : params.cursorMode = true)
    (hoffset : params.offset = 0) :
    (ClipboardService.query P C params owner collapse).Ensures (Move P) s fun r u =>
      match r with
      | .ok found => params.Valid ∧ ∃ history, found = .search history ∧
          Found P C params owner collapse s u history
      | .error e => params.Valid → e = staleCursor ∨ Outside e := by
  unfold ClipboardService.query
  by_cases hlength : byteLen params.query > MAX_QUERY_BYTES
  · rw [if_pos hlength]
    exact Prog.ensures_throw fun _ _ hvalid => absurd hvalid.1 (Nat.not_le_of_gt hlength)
  · rw [if_neg hlength]
    by_cases hlimit : params.limit < 1 ∨ MAX_QUERY_LIMIT < params.limit
    · rw [if_pos hlimit]
      refine Prog.ensures_throw fun _ _ hvalid => ?_
      obtain ⟨-, hpos, hmax⟩ := hvalid
      omega
    · rw [if_neg hlimit, if_pos hmode, if_neg (not_not.mpr hoffset)]
      refine Prog.ensures_bind fun r u hsearch => ?_
      have hfound := ensures_search hs (Nat.le_of_not_lt hlength) r u hsearch
      cases r with
      | error e => exact fun _ => hfound
      | ok history =>
          refine Prog.ensures_pure fun v hv => ⟨⟨by omega, by omega, by omega⟩, history, rfl, ?_⟩
          obtain ⟨x, t, c, elapsed, hx, ht, hu, hopened⟩ := hfound
          exact ⟨x, t, c, elapsed, hx, ht, hu.trans hv, hopened⟩

end Queries

/-! ## Chains -/

/-- The parameters of a cursor mode query. -/
def CursorScope.params (scope : CursorScope) (cursor : Option String) (limit : Nat) :
    QueryParams where
  query := scope.query
  generation := scope.generation
  offset := 0
  limit := limit
  cursorMode := true
  cursor := cursor

/-- A cursor mode query. -/
def CursorScope.request (P : Platform) (C : CursorCodec) (scope : CursorScope)
    (cursor : Option String) (limit : Nat) : Api QueryData :=
  queryHistory P C (scope.params cursor limit) scope.owner scope.collapse

/-- The query of a scope, at an offset. -/
def CursorScope.historyQuery (scope : CursorScope) (offset limit : Nat) : HistoryQuery where
  query := scope.query
  generation := scope.generation
  offset := offset
  limit := limit
  collapseSelfEchoes := scope.collapse

/-- The list a scope is about. -/
def CursorScope.listing (P : Platform) (scope : CursorScope) (t : Tables) : List EntryRow :=
  ClipDaemon.listing P (scope.historyQuery 0 1) t

/-- How an entry of that list is shown. -/
def CursorScope.shown (scope : CursorScope) (t : Tables) : EntryRow → EntrySummary :=
  ClipDaemon.shown (scope.historyQuery 0 1) t

/-- Successful responses, each request passing the next cursor of the response before it.
The surroundings move at any time. -/
inductive Chain (P : Platform) (C : CursorCodec) (scope : CursorScope) :
    Service → Option String → List (Nat × SearchHistory) → Service → Prop
  | last {s u : Service} {cursor : Option String} {limit : Nat} {data : QueryData}
      {history : SearchHistory} :
      (scope.request P C cursor limit).Interleaved (Move P) s (.ok data) u →
      data.history = .search history → Chain P C scope s cursor [(limit, history)] u
  | more {s u v : Service} {cursor : Option String} {limit : Nat} {data : QueryData}
      {history : SearchHistory} {next : String} {rest : List (Nat × SearchHistory)} :
      (scope.request P C cursor limit).Interleaved (Move P) s (.ok data) u →
      data.history = .search history → history.nextCursor = some next →
      Chain P C scope u (some next) rest v → Chain P C scope s cursor ((limit, history) :: rest) v

/-- The responses are slices of the list of one state, each starting where the one before
ended, and the next cursor is missing exactly where the list ends. -/
def Consecutive (P : Platform) (scope : CursorScope) (t : Tables) :
    Nat → List (Nat × SearchHistory) → Prop
  | _, [] => True
  | offset, (limit, history) :: rest =>
      history.offset.toNat = offset ∧
      history.total = (scope.listing P t).length ∧
      history.entries = (slice (scope.listing P t) offset limit).map (scope.shown t) ∧
      (history.nextCursor = none ↔ (scope.listing P t).length ≤ offset + limit) ∧
      Consecutive P scope t (offset + limit) rest

section Chains

variable {P : Platform} {C : CursorCodec} {scope : CursorScope} {cursor : Option String}
  {limit : Nat} {s u v b : Service} {history : SearchHistory}

/-- A response to a request of a chain. -/
def Answered (P : Platform) (C : CursorCodec) (scope : CursorScope) (cursor : Option String)
    (limit : Nat) : Service → Service → SearchHistory → Prop :=
  Found P C (scope.params cursor limit) scope.owner scope.collapse

/-- What a request of a chain returns. -/
theorem ensures_request (hs : s.Sane P) :
    (scope.request P C cursor limit).Ensures (Move P) s fun r u =>
      match r with
      | .ok data => (scope.params cursor limit).Valid ∧ ∃ history, data.history = .search history ∧
          ∃ s' u', ReflTransGen (Move P) s s' ∧ ReflTransGen (Move P) u' u ∧
            Answered P C scope cursor limit s' u' history
      | .error e => (scope.params cursor limit).Valid →
          e = staleCursor ∨ e = staleHistory ∨ Outside e := by
  unfold CursorScope.request queryHistory
  refine Prog.ensures_bind (ensures_changeToken hs (fun x s₁ hx h₁ => ?_)
    fun b _ _ => .inr (.inr (.backend b)))
  refine Prog.ensures_bind (ensures_observe (fun _ s₂ h₂ => ?_) fun _ _ => .inr (.inr .exhausted))
  have hs₂ : ReflTransGen (Move P) s s₂ := (hx.trans h₁).trans h₂
  refine Prog.ensures_bind fun r s₃ hquery => ?_
  have hfound := ensures_clipboardQuery (hs.moves hs₂) rfl rfl r s₃ hquery
  cases r with
  | error e => exact fun hvalid => (hfound hvalid).imp_right .inr
  | ok found =>
      obtain ⟨hvalid, history, rfl, hfound⟩ := hfound
      have hs₃ := (hs.moves hs₂).moves hfound.moves
      refine Prog.ensures_bind (ensures_changeToken hs₃ (fun y s₄ hy h₄ => ?_)
        fun b _ _ => .inr (.inr (.backend b)))
      refine Prog.ensures_bind (ensures_observe (fun _ s₅ h₅ => ?_)
        fun _ _ => .inr (.inr .exhausted))
      show Prog.Ensures (Move P) (ite _ _ _) s₅ _
      by_cases hmoved : x.token ≠ y.token
      · rw [if_pos hmoved]
        exact Prog.ensures_throw fun _ _ _ => .inr (.inl rfl)
      · rw [if_neg hmoved]
        exact Prog.ensures_pure fun s₆ h₆ => ⟨hvalid, history, rfl, s₂, s₃, hs₂,
          ((hy.trans h₄).trans h₅).trans h₆, hfound⟩

/-- The list does not depend on the offset and the limit. -/
theorem listing_historyQuery (t : Tables) (offset limit : Nat) :
    listing P (scope.historyQuery offset limit) t = scope.listing P t := by
  simp only [CursorScope.listing, listing, Database.HistoryQuery.needle, CursorScope.historyQuery]

theorem shown_historyQuery (t : Tables) (offset limit : Nat) :
    shown (scope.historyQuery offset limit) t = scope.shown t := by
  simp only [CursorScope.shown, CursorScope.historyQuery, funext_iff, shown, implies_true]

/-- A page of a well formed state is a slice of its list, and its next cursor points
behind the slice. -/
theorem page_spec (C : CursorCodec) (scope : CursorScope) (cursor : Option String) {t : Tables}
    (h : WellFormed P t) (hlimit : limit ≤ MAX_QUERY_LIMIT) (c : Cursor) :
    let history := HistorySearch.page C
      (Database.pageOf P (scope.historyQuery c.offset.toNat limit) t) c (scope.params cursor limit)
      scope.owner scope.collapse
    history.offset = c.offset ∧
      history.total = (scope.listing P t).length ∧
      history.entries = (slice (scope.listing P t) c.offset.toNat limit).map (scope.shown t) ∧
      history.nextCursor =
        if c.offset.toNat + limit < (scope.listing P t).length then
          some (C.encode (c.advance limit) scope) else none := by
  obtain ⟨htotal, hentries, hmore, -⟩ :=
    pageOf_listing h (scope.historyQuery c.offset.toNat limit)
  have hmin : min (scope.historyQuery c.offset.toNat limit).limit MAX_QUERY_LIMIT = limit :=
    Nat.min_eq_left hlimit
  have hoffset : (scope.historyQuery c.offset.toNat limit).offset = c.offset.toNat := by
    simp only [CursorScope.historyQuery]
  rw [listing_historyQuery] at htotal hmore
  rw [listing_historyQuery, shown_historyQuery, hoffset, hmin] at hentries
  rw [hoffset, hmin] at hmore
  generalize Database.pageOf P (scope.historyQuery c.offset.toNat limit) t = page at *
  refine ⟨rfl, htotal, hentries, ?_⟩
  have hlength : c.offset.toNat + limit < (scope.listing P t).length →
      page.entries.length = limit :=
    fun hlt => by rw [hentries, List.length_map, length_slice_of_lt hlt]
  simp only [HistorySearch.page, hmore]
  split
  next hlt => rw [hlength hlt]; rfl
  · rfl

theorem openCursor_some {token elapsed : UInt64} {value : String} :
    HistorySearch.openCursor C (scope.params (some value) limit) scope.owner scope.collapse token
      elapsed = C.decode elapsed value scope := rfl

/-- A response to a cursor with the token of an earlier state `b` is the page of `b`. -/
theorem Found.eq_page (hC : C.Lawful) (hb : b.Sane P) (hbs : ReflTransGen (Move P) b s) {c : Cursor}
    (htoken : c.token = b.token)
    (h : Answered P C scope (some (C.encode c scope)) limit s u history) :
    history = HistorySearch.page C
      (Database.pageOf P (scope.historyQuery c.offset.toNat limit) b.committed) c
      (scope.params (some (C.encode c scope)) limit) scope.owner scope.collapse := by
  obtain ⟨x, t, c', elapsed, hx, ht, hu, hopened, -, hpage, heq⟩ := h
  rw [openCursor_some] at hopened
  obtain rfl : c' = c := CursorCodec.decode_encode hC hopened
  have hbt : ReflTransGen (Move P) b t := (hbs.trans hx).trans ht
  have htoken' : b.token = t.token := htoken.symm.trans hpage
  have hstill := hb.still hbt .refl htoken'
  have hrevision := hb.revision_eq (hb.moves hbt) htoken'
  rw [pageOf_congr P _ hstill.2 hrevision]
  exact heq

/-- The response to a request without a cursor is the first page of some state. -/
theorem Found.first (h : Answered P C scope none limit s u history) :
    ∃ (t : Service) (c : Cursor), ReflTransGen (Move P) s t ∧ ReflTransGen (Move P) t u ∧
      c.token = t.token ∧ c.offset = 0 ∧
      history = HistorySearch.page C
        (Database.pageOf P (scope.historyQuery c.offset.toNat limit) t.committed) c
        (scope.params none limit) scope.owner scope.collapse := by
  obtain ⟨x, t, c, elapsed, hx, ht, hu, hopened, -, hpage, heq⟩ := h
  refine ⟨t, c, hx.trans ht, hu, hpage, ?_, heq⟩
  cases hopened
  rfl

/-- A cursor that a page of the state `b` offers: it carries the token of `b`. -/
def Offered (C : CursorCodec) (scope : CursorScope) (b : Service) (offset : Nat) (next : String) :
    Prop :=
  ∃ c : Cursor, next = C.encode c scope ∧ c.token = b.token ∧ c.offset.toNat = offset

/-- What a page of `b` says, for a chain that goes on. -/
theorem page_continues (hb : b.Sane P) {c : Cursor} (htoken : c.token = b.token)
    (hlimit : limit ≤ MAX_QUERY_LIMIT)
    (hhistory : history = HistorySearch.page C
      (Database.pageOf P (scope.historyQuery c.offset.toNat limit) b.committed) c
      (scope.params cursor limit) scope.owner scope.collapse) :
    history.offset.toNat = c.offset.toNat ∧
      history.total = (scope.listing P b.committed).length ∧
      history.entries = (slice (scope.listing P b.committed) c.offset.toNat limit).map
        (scope.shown b.committed) ∧
      (history.nextCursor = none ↔
        (scope.listing P b.committed).length ≤ c.offset.toNat + limit) ∧
      ∀ next, history.nextCursor = some next → Offered C scope b (c.offset.toNat + limit) next := by
  obtain ⟨hoffset, htotal, hentries, hnext⟩ :=
    page_spec C scope cursor hb.wellFormed hlimit c
  rw [← hhistory] at hoffset htotal hentries hnext
  have hlength : (scope.listing P b.committed).length ≤ 110000 :=
    length_listing_le hb.wellFormed _
  refine ⟨congrArg UInt64.toNat hoffset, htotal, hentries, ?_, fun next hnext' => ?_⟩
  · rw [hnext]
    split
    next hlt => simp only [reduceCtorEq, false_iff]; omega
    next hlt => simp only [true_iff]; omega
  · rw [hnext] at hnext'
    split at hnext'
    next hlt =>
      cases hnext'
      exact ⟨c.advance limit, rfl, htoken, Cursor.advance_offset (by omega)⟩
    · cases hnext'

/-- The cursor for the next request of a chain. -/
def lastCursor (responses : List (Nat × SearchHistory)) : Option String :=
  responses.getLast?.bind fun r => r.2.nextCursor

theorem lastCursor_cons {response response' : Nat × SearchHistory}
    {rest : List (Nat × SearchHistory)} :
    lastCursor (response :: response' :: rest) = lastCursor (response' :: rest) := by
  rw [lastCursor, List.getLast?_cons_cons, lastCursor]

/-- A chain has responses. -/
theorem Chain.eq_cons {responses : List (Nat × SearchHistory)}
    (h : Chain P C scope s cursor responses v) : ∃ r rest, responses = r :: rest := by
  cases h with
  | last => exact ⟨_, _, rfl⟩
  | more => exact ⟨_, _, rfl⟩

/-- A request of a chain that was answered. -/
theorem answered_of_request {data : QueryData} (hs : s.Sane P)
    (hrun : (scope.request P C cursor limit).Interleaved (Move P) s (.ok data) u)
    (hhistory : data.history = .search history) :
    (scope.params cursor limit).Valid ∧ ∃ s' u', ReflTransGen (Move P) s s' ∧
      ReflTransGen (Move P) u' u ∧ Answered P C scope cursor limit s' u' history := by
  obtain ⟨hvalid, history', heq, hfound⟩ := ensures_request hs (.ok data) u hrun
  cases hhistory.symm.trans heq
  exact ⟨hvalid, hfound⟩

/-- A chain that goes on with a cursor of `b` reads the rest of the list of `b`. -/
theorem Chain.consecutive (hC : C.Lawful) (hb : b.Sane P) {offset : Nat} {next : String}
    {responses : List (Nat × SearchHistory)} (h : Chain P C scope s (some next) responses v)
    (hbs : ReflTransGen (Move P) b s) (hoffered : Offered C scope b offset next) :
    Consecutive P scope b.committed offset responses ∧ ReflTransGen (Move P) b v ∧
      ∀ n, lastCursor responses = some n → ∃ o, Offered C scope b o n := by
  generalize hcursor : some next = cursor at h
  induction h generalizing offset next with
  | last hrun hhistory =>
      subst hcursor
      obtain ⟨⟨-, -, hlimit⟩, s', u', hs', hu', hfound⟩ :=
        answered_of_request (hb.moves hbs) hrun hhistory
      obtain ⟨c, rfl, htoken, rfl⟩ := hoffered
      have hpage := page_continues hb htoken hlimit
        (Found.eq_page hC hb (hbs.trans hs') htoken hfound)
      refine ⟨⟨hpage.1, hpage.2.1, hpage.2.2.1, hpage.2.2.2.1, trivial⟩,
        ((hbs.trans hs').trans hfound.moves).trans hu', fun n hn => ⟨_, hpage.2.2.2.2 n hn⟩⟩
  | more hrun hhistory hnext hrest ih =>
      subst hcursor
      obtain ⟨⟨-, -, hlimit⟩, s', u', hs', hu', hfound⟩ :=
        answered_of_request (hb.moves hbs) hrun hhistory
      obtain ⟨c, rfl, htoken, rfl⟩ := hoffered
      have hpage := page_continues hb htoken hlimit
        (Found.eq_page hC hb (hbs.trans hs') htoken hfound)
      obtain ⟨hconsecutive, hbv, hlast⟩ :=
        ih (((hbs.trans hs').trans hfound.moves).trans hu') (hpage.2.2.2.2 _ hnext) rfl
      obtain ⟨r, rest, rfl⟩ := hrest.eq_cons
      refine ⟨⟨hpage.1, hpage.2.1, hpage.2.2.1, hpage.2.2.2.1, hconsecutive⟩, hbv, ?_⟩
      rw [lastCursor_cons]
      exact hlast

/-- A chain without a cursor reads the list of some state from the start. -/
theorem Chain.from_start (hC : C.Lawful) (hs : s.Sane P) {responses : List (Nat × SearchHistory)}
    (h : Chain P C scope s none responses v) :
    ∃ b, ReflTransGen (Move P) s b ∧ ReflTransGen (Move P) b v ∧
      Consecutive P scope b.committed 0 responses ∧
        ∀ n, lastCursor responses = some n → ∃ o, Offered C scope b o n := by
  cases h with
  | last hrun hhistory =>
      obtain ⟨⟨-, -, hlimit⟩, s', u', hs', hu', hfound⟩ := answered_of_request hs hrun hhistory
      obtain ⟨b, c, hb, hbu, htoken, hoffset, heq⟩ := Found.first hfound
      have hsb := hs'.trans hb
      have hpage := page_continues (hs.moves hsb) htoken hlimit heq
      rw [hoffset] at hpage
      exact ⟨b, hsb, hbu.trans hu', ⟨hpage.1, hpage.2.1, hpage.2.2.1, hpage.2.2.2.1, trivial⟩,
        fun n hn => ⟨_, hpage.2.2.2.2 n hn⟩⟩
  | more hrun hhistory hnext hrest =>
      obtain ⟨⟨-, -, hlimit⟩, s', u', hs', hu', hfound⟩ := answered_of_request hs hrun hhistory
      obtain ⟨b, c, hb, hbu, htoken, hoffset, heq⟩ := Found.first hfound
      have hsb := hs'.trans hb
      have hpage := page_continues (hs.moves hsb) htoken hlimit heq
      rw [hoffset] at hpage
      obtain ⟨hconsecutive, hbv, hlast⟩ := hrest.consecutive hC (hs.moves hsb) (hbu.trans hu')
        (hpage.2.2.2.2 _ hnext)
      obtain ⟨r, rest, rfl⟩ := hrest.eq_cons
      refine ⟨b, hsb, hbv, ⟨hpage.1, hpage.2.1, hpage.2.2.1, hpage.2.2.2.1, hconsecutive⟩, ?_⟩
      rw [lastCursor_cons]
      exact hlast

/-- The responses and what is left make up the list from the first offset on. -/
theorem Consecutive.append_drop {t : Tables} {responses : List (Nat × SearchHistory)} {offset : Nat}
    (h : Consecutive P scope t offset responses) :
    (responses.flatMap fun r => r.2.entries) ++
        ((scope.listing P t).drop (offset + (responses.map (·.1)).sum)).map (scope.shown t) =
      ((scope.listing P t).drop offset).map (scope.shown t) := by
  induction responses generalizing offset with
  | nil => simp
  | cons r rest ih =>
      obtain ⟨limit, history⟩ := r
      obtain ⟨-, -, hentries, -, hrest⟩ := h
      have hsum : offset + ((limit, history) :: rest |>.map (·.1)).sum =
          offset + limit + (rest.map (·.1)).sum := by
        rw [List.map_cons, List.sum_cons]
        omega
      rw [List.flatMap_cons, List.append_assoc, hsum, ih hrest, hentries, ← List.map_append,
        slice_append_drop]

/-- The request after a chain: whatever it returns, it is no page of another state. -/
theorem request_after (hC : C.Lawful) (hb : b.Sane P) {offset : Nat} {next : String}
    (hoffered : Offered C scope b offset next) (hvalid : (scope.params (some next) limit).Valid)
    (hbs : ReflTransGen (Move P) b s) {result : ApiResult QueryData}
    (hrun : (scope.request P C (some next) limit).Interleaved (Move P) s result u) :
    (∀ e, result = .error e → e = staleCursor ∨ e = staleHistory ∨ Outside e) ∧
      (∀ y, ReflTransGen (Move P) b y → ReflTransGen (Move P) y s →
        y.committed.view ≠ b.committed.view → ∃ e, result = .error e) := by
  have hspec := ensures_request (hb.moves hbs) result u hrun
  cases result with
  | error e => exact ⟨fun e' he => by cases he; exact hspec hvalid, fun _ _ _ _ => ⟨e, rfl⟩⟩
  | ok data =>
      refine ⟨fun e he => (by cases he), fun y hby hys hview => absurd ?_ hview⟩
      obtain ⟨-, history, -, s', u', hs', -, x, t, c', elapsed, hx, ht, -, hopened, -, hpage, -⟩ :=
        hspec
      obtain ⟨c, rfl, htoken, -⟩ := hoffered
      rw [openCursor_some] at hopened
      obtain rfl : c' = c := CursorCodec.decode_encode hC hopened
      have hyt : ReflTransGen (Move P) y t := ((hys.trans hs').trans hx).trans ht
      exact (hb.still hby hyt (htoken.symm.trans hpage)).2.symm

/-- A cursor chain reads one snapshot.  Take any run of the store, and successful
responses of which each request passes the next cursor of the response before it, while
the surroundings move at any time.  There is one committed state such that the responses
are consecutive slices of its list from the start, the next cursor is missing exactly
where the list ends, and the entries read and the entries left are the whole list.  The
next request fails as stale, or for a reason outside of its cursor, whenever the visible
history was another one before it. -/
theorem cursor_chain_one_snapshot (hC : C.Lawful) (ops : List DatabaseOp)
    (hs : s.store = Store.fresh.after P ops) {responses : List (Nat × SearchHistory)}
    (h : Chain P C scope s none responses v) :
    ∃ ops' : List DatabaseOp,
      let t := (Store.fresh.after P (ops ++ ops')).committed
      let list := scope.listing P t
      (P.FtsLaw → list = matchList P (scope.historyQuery 0 1) t) ∧
      Consecutive P scope t 0 responses ∧
      (responses.flatMap fun r => r.2.entries) ++
          (list.drop (responses.map (·.1)).sum).map (scope.shown t) = list.map (scope.shown t) ∧
      ∀ limit next, 1 ≤ limit → limit ≤ MAX_QUERY_LIMIT → lastCursor responses = some next →
        ∀ w u result, ReflTransGen (Move P) v w →
          (scope.request P C (some next) limit).Interleaved (Move P) w result u →
          (∀ e, result = .error e → e = staleCursor ∨ e = staleHistory ∨ Outside e) ∧
          (∀ y, ReflTransGen (Move P) v y → ReflTransGen (Move P) y w →
            y.committed.view ≠ t.view → ∃ e, result = .error e) := by
  have hsane : s.Sane P := by
    refine ⟨?_, ?_⟩
    · rw [Service.committed, hs]
      exact Store.after_wellFormed P ops
    · rw [hs]
      exact Store.after_settled P ops
  obtain ⟨b, hsb, hbv, hconsecutive, hlast⟩ := h.from_start hC hsane
  have hb := hsane.moves hsb
  obtain ⟨ops', hops'⟩ := moves_store hsb
  have hcommitted : (Store.fresh.after P (ops ++ ops')).committed = b.committed := by
    rw [Service.committed, hops', hs, Store.after_append]
  have htotal := hconsecutive.append_drop
  rw [Nat.zero_add, List.drop_zero] at htotal
  refine ⟨ops', ?_⟩
  simp only [hcommitted]
  refine ⟨fun hfts => listing_eq hfts hb.wellFormed.toSound _, hconsecutive, htotal, ?_⟩
  intro limit next hpos hmax hnext w u result hvw hrun
  obtain ⟨offset, hoffered⟩ := hlast next hnext
  have hvalid : (scope.params (some next) limit).Valid := by
    cases h with
    | last hrun' hhistory =>
        exact ⟨(answered_of_request hsane hrun' hhistory).1.1, hpos, hmax⟩
    | more hrun' hhistory _ _ =>
        exact ⟨(answered_of_request hsane hrun' hhistory).1.1, hpos, hmax⟩
  obtain ⟨herror, hmoved⟩ := request_after hC hb hoffered hvalid (hbv.trans hvw) hrun
  exact ⟨herror, fun y hvy hyw hview => hmoved y (hbv.trans hvy) hyw hview⟩

end Chains

/-- Two requests with limit one, the second with the next cursor of the first. -/
def readTwo (P : Platform) (C : CursorCodec) (scope : CursorScope) (s : Service) :
    Option (SearchHistory × SearchHistory × Service) :=
  match (scope.request P C none 1).eval s with
  | .ok (⟨.search first, _, _⟩, u) =>
      match first.nextCursor with
      | some next =>
          match (scope.request P C (some next) 1).eval u with
          | .ok (⟨.search second, _, _⟩, v) => some (first, second, v)
          | _ => none
      | none => none
  | _ => none

theorem chain_of_readTwo {P : Platform} {C : CursorCodec} {scope : CursorScope} {s v : Service}
    {first second : SearchHistory} (h : readTwo P C scope s = some (first, second, v)) :
    Chain P C scope s none [(1, first), (1, second)] v := by
  unfold readTwo at h
  split at h
  next first' _ _ u hfirst =>
    split at h
    next next hnext =>
      split at h
      next second' _ _ v' hsecond =>
        cases h
        exact .more (Prog.Interleaved.of_eval hfirst) rfl hnext
          (.last (Prog.Interleaved.of_eval hsecond) rfl)
      · cases h
    · cases h
  · cases h

/-- A service over a store that captured two texts. -/
def twoCapturesService : Service where
  store := Store.fresh.after Platform.plain twoCaptures
  clock := ⟨none, 0⟩
  elapsed := 0
  permits := 2
  refused := false
  faults := []

/-- Two pages of one entry each are the list of one state. -/
theorem cursor_chain_one_snapshot_two :
    ∃ (first second : SearchHistory) (v : Service),
      readTwo Platform.plain CursorCodec.plain ⟨"", 0, none, true⟩ twoCapturesService =
        some (first, second, v) ∧
      ∃ ops' : List DatabaseOp,
        Consecutive Platform.plain ⟨"", 0, none, true⟩
          (Store.fresh.after Platform.plain (twoCaptures ++ ops')).committed 0
          [(1, first), (1, second)] := by
  have hread : (readTwo Platform.plain CursorCodec.plain ⟨"", 0, none, true⟩
      twoCapturesService).isSome = true := by decide +kernel
  refine (Option.isSome_iff_exists.mp hread).elim fun found hfound =>
    ⟨found.1, found.2.1, found.2.2, hfound, ?_⟩
  have hchain := cursor_chain_one_snapshot CursorCodec.plain_lawful twoCaptures rfl
    (chain_of_readTwo hfound)
  exact hchain.imp fun _ h => h.2.1

end ClipDaemon
