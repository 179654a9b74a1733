import ClipDaemon.Store.Runs

/-!
# The serialized store

`HistoryStore` gives its clients one worker thread that owns the database
(`history_store/mod.rs`).  A call is validated, reserves its input bytes, and is sent to
a bounded queue; the worker executes the queue in order and answers.  Each of these is a
step, and calls of any number of clients interleave.

The state keeps a log of the answers the worker gave.  `acknowledged_survives` says
what the log promises about the database found on reopening: it is what the acknowledged
calls do one after the other, except that one call may have become durable without an
acknowledgement.  That call fenced the store, and nothing executes behind the fence.
-/

namespace ClipDaemon

open Transition

def QUEUE_CAPACITY : Nat := 32
def QUEUE_BYTE_BUDGET : Nat := 128 * 1024 * 1024

/-! ## Validation -/

def validateId (id : String) : BackendResult Unit :=
  if byteLen id > 128 then .error (invalidData "Clipboard entry ID is too long") else .ok ()

def validatePath (path : FilePath) : BackendResult Unit :=
  if path.length > 32768 then .error (invalidData "Artifact path is too long") else .ok ()

def validateInput (mime : String) (bytes : Bytes) : BackendResult Unit :=
  if byteLen mime > 255 ∨ '\x00' ∈ mime.toList ∨ bytes.length > MAX_ENTRY_BYTES then
    .error (invalidData "Clipboard input exceeds storage limits")
  else .ok ()

def validateIdentity (identity : String) : BackendResult Unit :=
  if byteLen identity > 256 then .error (invalidData "Artifact identity is too long") else .ok ()

namespace Request

/-- The checks of a call before it is submitted. -/
def validate : Request → BackendResult Unit
  | query q =>
      if byteLen q.query > MAX_QUERY_BYTES then .error (invalidData "Search query is too long")
      else .ok ()
  | get id _ => validateId id
  | insert mime bytes => validateInput mime bytes
  | replace id _ mime bytes => do
      validateId id
      validateInput mime bytes
  | favorite id _ _ => validateId id
  | removeMany targets =>
      if targets.length > 10000 then .error (invalidData "Too many delete targets")
      else targets.forM fun target => validateId target.opaqueId
  | registerArtifact record => do
      validatePath record.path
      validateId record.sourceEntryId
      validateIdentity record.imageIdentity
  | forgetArtifact path => validatePath path
  | registerInlineEcho record => do
      validateId record.sourceEntryId
      validateIdentity record.imageIdentity
  | artifactGet path => do
      validatePath path
      if toStr path = none then .error (invalidData "Artifact path must be UTF-8") else .ok ()
  | _ => .ok ()

/-- `size_of::<EntryTarget>()`. -/
def TARGET_SIZE : Nat := 32

/-- The input bytes a call reserves. -/
def inputBytes : Request → Nat
  | insert _ bytes => bytes.length
  | replace _ _ _ bytes => bytes.length
  | removeMany targets => (targets.map fun target => byteLen target.opaqueId + TARGET_SIZE).sum
  | registerArtifact record =>
      record.path.length + byteLen record.sourceEntryId + byteLen record.imageIdentity
  | _ => 0

end Request

/-! ## The state -/

/-- A request, and what it takes from outside. -/
structure Call where
  request : Request
  env : Env

/-- What the worker answered to a call. -/
structure Answer where
  call : Call
  result : BackendResult Reply
  /-- The call reached the database. -/
  executed : Bool
  /-- The call left the database fenced. -/
  fenced : Bool

/-- The store as its clients see it. -/
structure HistoryStore where
  db : Database
  /-- The queue still accepts calls. -/
  sender : Bool
  /-- The input bytes reserved. -/
  bytes : Nat
  /-- The calls that hold a reservation and are not sent yet, by their threads. -/
  reserved : List (Nat × Call)
  /-- The calls accepted, oldest first. -/
  queue : List Call
  /-- The worker has shut the database down. -/
  finished : Bool
  /-- The answers of the worker, oldest first. -/
  log : List Answer

/-- A store over a database that was just opened. -/
def HistoryStore.opened (durable : Tables) : HistoryStore where
  db := Database.recovered durable
  sender := true
  bytes := 0
  reserved := []
  queue := []
  finished := false
  log := []

/-- What clients and the worker do. -/
inductive StoreEvent
  /-- A thread reserves the input bytes of its call. -/
  | reserve (thread : Nat) (call : Call)
  /-- A thread sends its call to the queue. -/
  | send (thread : Nat)
  /-- The worker executes the next call. -/
  | work (faults : Faults)
  /-- `shutdown` closes the queue. -/
  | close
  /-- The worker shuts the database down after the last call. -/
  | finish (checkpoint : Bool) (faults : Faults)

namespace HistoryStore

/-- A thread reserves the bytes of its call. -/
def reserve (s : HistoryStore) (thread : Nat) (call : Call) : HistoryStore :=
  match call.request.validate with
  | .error _ => s
  | .ok () =>
      if !s.sender || s.reserved.any (fun r => r.1 = thread) then s
      else if call.request.inputBytes > QUEUE_BYTE_BUDGET - s.bytes then s
      else
        { s with
          bytes := s.bytes + call.request.inputBytes
          reserved := (thread, call) :: s.reserved }

/-- A rejected call drops its reservation. -/
def send (s : HistoryStore) (thread : Nat) : HistoryStore :=
  match s.reserved.find? fun r => r.1 = thread with
  | none => s
  | some (_, call) =>
      let reserved := s.reserved.filter fun r => r.1 ≠ thread
      if s.sender ∧ s.queue.length < QUEUE_CAPACITY then
        { s with reserved, queue := s.queue ++ [call] }
      else { s with reserved, bytes := s.bytes - call.request.inputBytes }

/-- The job of a call: it runs only on a database that is not fenced. -/
def answer (P : Platform) (faults : Faults) (call : Call) (db : Database) : Answer × Database :=
  if db.blocked then
    (⟨call, .error (.unavailable "History storage is fenced; restart required"), false, false⟩, db)
  else
    let (result, db) := db.execute faults (call.request.job P call.env)
    (⟨call, result, true, db.blocked⟩, db)

/-- The worker runs the oldest call. -/
def work (P : Platform) (s : HistoryStore) (faults : Faults) : HistoryStore :=
  match s.queue with
  | [] => s
  | call :: queue =>
      let (answer, db) := answer P faults call s.db
      { s with db, queue, bytes := s.bytes - call.request.inputBytes, log := s.log ++ [answer] }

/-- The worker shuts the database down. -/
def finish (s : HistoryStore) (checkpoint : Bool) (faults : Faults) : HistoryStore :=
  if s.sender || s.queue ≠ [] || s.finished then s
  else { s with db := (s.db.shutdown checkpoint faults).2, finished := true }

def step (P : Platform) (s : HistoryStore) : StoreEvent → HistoryStore
  | .reserve thread call => s.reserve thread call
  | .send thread => s.send thread
  | .work faults => s.work P faults
  | .close => { s with sender := false }
  | .finish checkpoint faults => s.finish checkpoint faults

/-- The state after a sequence of events. -/
def after (P : Platform) (events : List StoreEvent) (s : HistoryStore) : HistoryStore :=
  events.foldl (step P) s

end HistoryStore

/-! ## Sequential application -/

/-- What a call does to committed tables when it succeeds. -/
def Call.apply (P : Platform) (t : Tables) (call : Call) : Option Tables :=
  match call.request.effect P call.env t with
  | .ok (_, t') => some t'
  | .error _ => none

/-- The calls one after the other, each succeeding. -/
def replay (P : Platform) (calls : List Call) (t : Tables) : Option Tables :=
  run (Call.apply P) t calls

/-- Did the caller get a result? -/
def Answer.isOk (a : Answer) : Bool :=
  match a.result with
  | .ok _ => true
  | .error _ => false

/-- The acknowledged calls, in execution order. -/
def acknowledged (log : List Answer) : List Call := (log.filter Answer.isOk).map (·.call)

theorem acknowledged_append (log : List Answer) (a : Answer) :
    acknowledged (log ++ [a]) = acknowledged log ++ if a.isOk then [a.call] else [] := by
  unfold acknowledged
  rw [List.filter_append, List.map_append]
  cases h : a.isOk <;> simp [h]

/-- The same tables up to the admission flag. -/
def SameButAdmission (t t' : Tables) : Prop := t.closeAdmission = t'.closeAdmission

/-! ## One execution -/

namespace Database

/-- Nothing is in progress and nothing is in doubt. -/
def Ready (db : Database) : Prop := db.blocked = false ∧ db.pending = none

/-- A transaction on a ready database returns what its body computes and commits it, or
fails without effect, or fences the database with its body committed or not. -/
theorem transaction_ready {α : Type} (faults : Faults) (body : Sql α) {db : Database}
    (h : db.Ready) :
    let r := db.transaction faults body
    (∃ value, r.1 = .ok value ∧ body.eval db.durable = .ok (value, r.2.durable) ∧ r.2.Ready) ∨
      (∃ error, r.1 = .error error ∧ r.2 = db) ∨
      (∃ error, r.1 = .error error ∧ r.2.blocked = true ∧
        (r.2.durable = db.durable ∨
          ∃ value, body.eval db.durable = .ok (value, r.2.durable))) := by
  obtain ⟨hblocked, hpending⟩ := h
  simp only [transaction, hblocked, hpending, Bool.false_eq_true, if_false, Option.isSome_none,
    Bool.or_false]
  split
  · exact .inr (.inl ⟨_, rfl, rfl⟩)
  · split
    next value written hexec =>
      have heval := Prog.exec_ok hexec
      split
      next landed _ =>
        refine .inr (.inr ⟨_, rfl, ?_⟩)
        cases landed
        · exact ⟨rfl, .inl rfl⟩
        · exact ⟨rfl, .inr ⟨value, heval⟩⟩
      · split
        · exact .inr (.inr ⟨_, rfl, rfl, .inr ⟨value, heval⟩⟩)
        · exact .inl ⟨value, rfl, heval, by simp [Ready]⟩
    · split
      · exact .inr (.inr ⟨_, rfl, rfl, .inl rfl⟩)
      · exact .inr (.inl ⟨_, rfl, rfl⟩)

/-- The same for a request, read or write. -/
theorem execute_ready (P : Platform) (faults : Faults) (call : Call) {db : Database}
    (h : db.Ready) :
    let r := db.execute faults (call.request.job P call.env)
    ((∃ reply, r.1 = .ok reply) ∧ call.apply P db.durable = some r.2.durable ∧ r.2.Ready) ∨
      (∃ error, r.1 = .error error ∧ r.2 = db) ∨
      (∃ error, r.1 = .error error ∧ r.2.blocked = true ∧
        (r.2.durable = db.durable ∨ call.apply P db.durable = some r.2.durable)) := by
  have happly : ∀ {reply t'}, (call.request.job P call.env).eval db.durable = .ok (reply, t') →
      call.apply P db.durable = some t' := by
    intro reply t' heval
    simp only [Call.apply, Request.effect, heval]
  cases hjob : call.request.job P call.env with
  | direct body =>
      simp only [execute, h.2, Option.getD_none]
      rw [hjob] at happly
      cases hexec : body.exec faults.statements db.durable with
      | mk result t' =>
          cases result with
          | error e => exact .inr (.inl ⟨e, rfl, trivial⟩)
          | ok reply =>
              have heval : (Job.direct body).eval db.durable = .ok (reply, db.durable) := by
                simp only [Job.eval, Prog.exec_ok hexec, Except.map]
              exact .inl ⟨⟨reply, rfl⟩, happly heval, h⟩
  | transaction body =>
      rw [hjob] at happly
      rcases transaction_ready faults body h with
        ⟨reply, hr, heval, hready⟩ | ⟨e, hr, hdb⟩ | ⟨e, hr, hfenced, hdurable⟩
      · exact .inl ⟨⟨reply, hr⟩, happly heval, hready⟩
      · exact .inr (.inl ⟨e, hr, hdb⟩)
      · refine .inr (.inr ⟨e, hr, hfenced, hdurable.imp_right ?_⟩)
        rintro ⟨reply, heval⟩
        exact happly heval

/-- Closing admission leaves the tables, up to the admission flag. -/
theorem durable_closeAdmission (faults : Faults) (db : Database) :
    SameButAdmission (db.transaction faults closeAdmission).2.durable db.durable := by
  rcases transaction_durable faults closeAdmission db with h | ⟨value, h⟩
  · rw [h]
    rfl
  · rw [eval_closeAdmission, Except.ok.injEq, Prod.mk.injEq] at h
    rw [← h.2]
    rfl

/-- Opening a database again leaves its tables, up to the admission flag. -/
theorem openExisting_durable (before after : Bool) (faults : Faults) (durable : Tables) :
    SameButAdmission (openExisting before after faults durable).2.durable durable := by
  have hclose := durable_closeAdmission faults (recovered durable)
  unfold openExisting
  split
  · rfl
  · split
    next heq => exact heq ▸ hclose
    next heq =>
      rw [heq] at hclose
      split <;> exact hclose

/-- Shutting a database down leaves its tables, up to the admission flag. -/
theorem shutdown_durable (checkpoint : Bool) (faults : Faults) (db : Database) :
    SameButAdmission (db.shutdown checkpoint faults).2.durable db.durable := by
  have hclose := durable_closeAdmission faults db
  unfold shutdown
  split
  · rfl
  · split
    next heq => exact heq ▸ hclose
    next heq =>
      rw [heq] at hclose
      split <;> exact hclose

/-- A fenced database is not shut down. -/
theorem shutdown_blocked (checkpoint : Bool) (faults : Faults) {db : Database}
    (h : db.blocked = true) : (db.shutdown checkpoint faults).2 = db := by
  unfold shutdown
  rw [if_pos h]

end Database

/-! ## The log and the database -/

theorem replay_append {P : Platform} {calls : List Call} {call : Call} {t t' t'' : Tables}
    (h : replay P calls t = some t') (h' : call.apply P t' = some t'') :
    replay P (calls ++ [call]) t = some t'' :=
  run_trans h (run_single.mpr h')

/-- An answer behind the fence: the call did not execute. -/
def Answer.Refused (a : Answer) : Prop :=
  a.executed = false ∧ a.isOk = false ∧ a.fenced = false

theorem acknowledged_refused {log : List Answer} (h : ∀ a ∈ log, a.Refused) :
    acknowledged log = [] := by
  unfold acknowledged
  rw [List.filter_eq_nil_iff.mpr fun a ha => by simp [(h a ha).2.1], List.map_nil]

/-- A list is split in one way around its only element with `p`. -/
theorem split_unique {α : Type} {p : α → Prop} {xs ys xs' ys' : List α} {a a' : α}
    (h : xs ++ a :: ys = xs' ++ a' :: ys') (hxs : ∀ x ∈ xs, ¬p x) (hys : ∀ y ∈ ys, ¬p y)
    (ha' : p a') : xs = xs' ∧ a = a' ∧ ys = ys' := by
  rcases List.append_eq_append_iff.mp h with ⟨zs, hxs', hzs⟩ | ⟨zs, hxs', hzs⟩
  · cases zs with
    | nil => simpa [hxs'] using hzs
    | cons z zs =>
        rw [List.cons_append, List.cons.injEq] at hzs
        exact absurd ha' (hys a' (by rw [hzs.2]; simp))
  · cases zs with
    | nil => simpa [hxs', eq_comm] using hzs
    | cons z zs =>
        rw [List.cons_append, List.cons.injEq] at hzs
        exact absurd ha' (hxs a' (by rw [hxs', hzs.1]; simp))

/-- How the log stands to the database, started on the tables `t₀`. -/
inductive Ledger (P : Platform) (t₀ : Tables) (s : HistoryStore) : Prop
  /-- Every acknowledged call is committed, and nothing else. -/
  | live (hready : s.db.Ready) (hfinished : s.finished = false)
      (hlog : ∀ a ∈ s.log, a.fenced = false)
      (hreplay : replay P (acknowledged s.log) t₀ = some s.db.durable)
  /-- One call fenced the store; it may be committed, and nothing executed since. -/
  | fenced (hblocked : s.db.blocked = true) (before : List Answer) (a : Answer)
      (after : List Answer) (hlog : s.log = before ++ a :: after)
      (hbefore : ∀ b ∈ before, b.fenced = false) (hfenced : a.fenced = true)
      (hok : a.isOk = false) (hafter : ∀ b ∈ after, b.Refused) (t : Tables)
      (hreplay : replay P (acknowledged before) t₀ = some t)
      (hdurable : s.db.durable = t ∨ a.call.apply P t = some s.db.durable)
  /-- The worker has stopped. -/
  | finished (hqueue : s.queue = []) (hsender : s.sender = false) (hfinished : s.finished = true)
      (hlog : ∀ a ∈ s.log, a.fenced = false) (t : Tables)
      (hreplay : replay P (acknowledged s.log) t₀ = some t)
      (hdurable : SameButAdmission s.db.durable t)

section Ledger

variable {P : Platform} {t₀ : Tables} {s s' : HistoryStore}

/-- A step that leaves the database and the log alone. -/
theorem Ledger.congr (h : Ledger P t₀ s) (hdb : s'.db = s.db) (hfinished : s'.finished = s.finished)
    (hlog : s'.log = s.log)
    (hqueue : s.finished = true → s.queue = [] → s.sender = false →
      s'.queue = [] ∧ s'.sender = false) : Ledger P t₀ s' := by
  cases h with
  | live hready hf hl hr =>
      exact .live (hdb ▸ hready) (hfinished ▸ hf) (hlog ▸ hl) (by rw [hdb, hlog]; exact hr)
  | fenced hb before a after hl hbefore hfenced hok hafter t hr hd =>
      exact .fenced (hdb ▸ hb) before a after (hlog ▸ hl) hbefore hfenced hok hafter t hr
        (by rw [hdb]; exact hd)
  | finished hq hs hf hl t hr hd =>
      obtain ⟨hq', hs'⟩ := hqueue hf hq hs
      exact .finished hq' hs' (hfinished ▸ hf) (hlog ▸ hl) t (by rw [hlog]; exact hr)
        (by rw [hdb]; exact hd)

theorem Ledger.reserve (h : Ledger P t₀ s) (thread : Nat) (call : Call) :
    Ledger P t₀ (s.reserve thread call) := by
  unfold HistoryStore.reserve
  split
  · exact h
  · split
    · exact h
    · split
      · exact h
      · exact h.congr rfl rfl rfl fun _ hq hs => ⟨hq, hs⟩

theorem Ledger.send (h : Ledger P t₀ s) (thread : Nat) : Ledger P t₀ (s.send thread) := by
  unfold HistoryStore.send
  split
  · exact h
  · split
    next hopen =>
      refine h.congr rfl rfl rfl fun _ _ hs => ?_
      rw [hs] at hopen
      exact absurd hopen.1 (by simp)
    · exact h.congr rfl rfl rfl fun _ hq hs => ⟨hq, hs⟩

/-- The step lemma of the worker. -/
theorem Ledger.work (h : Ledger P t₀ s) (faults : Faults) : Ledger P t₀ (s.work P faults) := by
  unfold HistoryStore.work
  cases hqueue : s.queue with
  | nil => exact h
  | cons call queue =>
      simp only [HistoryStore.answer]
      cases h with
      | live hready hf hlog hreplay =>
          simp only [hready.1, Bool.false_eq_true, if_false]
          rcases Database.execute_ready P faults call hready with
            ⟨⟨reply, hr⟩, happly, hready'⟩ | ⟨e, hr, hdb⟩ | ⟨e, hr, hfenced, hdurable⟩
          · refine .live hready' hf ?_ ?_
            · intro a ha
              rcases List.mem_append.mp ha with ha | ha
              · exact hlog a ha
              · rw [List.mem_singleton.mp ha]
                exact hready'.1
            · simp only [acknowledged_append, Answer.isOk, hr, if_true]
              exact replay_append hreplay happly
          · refine .live ?_ hf ?_ ?_
            · simp only [hdb]
              exact hready
            · intro a ha
              rcases List.mem_append.mp ha with ha | ha
              · exact hlog a ha
              · rw [List.mem_singleton.mp ha]
                simp only [hdb]
                exact hready.1
            · simp only [acknowledged_append, Answer.isOk, hr, hdb, Bool.false_eq_true, if_false,
                List.append_nil]
              exact hreplay
          · refine .fenced hfenced s.log _ [] rfl hlog hfenced ?_ (by simp) _ hreplay hdurable
            simp only [Answer.isOk, hr]
      | fenced hb before a after hl hbefore hfenced hok hafter t hr hd =>
          simp only [hb, if_true]
          let refusal : Answer :=
            ⟨call, .error (.unavailable "History storage is fenced; restart required"),
              false, false⟩
          refine .fenced hb before a (after ++ [refusal]) ?_ hbefore hfenced hok ?_ t hr hd
          · simp only [hl, List.append_assoc, List.cons_append, refusal]
          · intro b hb'
            rcases List.mem_append.mp hb' with hb' | hb'
            · exact hafter b hb'
            · rw [List.mem_singleton.mp hb']
              exact ⟨rfl, rfl, rfl⟩
      | finished hq _ _ _ _ _ _ =>
          rw [hqueue] at hq
          cases hq

theorem Ledger.finish (h : Ledger P t₀ s) (checkpoint : Bool) (faults : Faults) :
    Ledger P t₀ (s.finish checkpoint faults) := by
  unfold HistoryStore.finish
  split
  · exact h
  next hclosed =>
    simp only [Bool.or_eq_true, decide_eq_true_eq, not_or, Bool.not_eq_true, not_not] at hclosed
    obtain ⟨⟨hsender, hqueue⟩, hf⟩ := hclosed
    cases h with
    | live hready _ hlog hreplay =>
        exact .finished (by simpa using hqueue) hsender rfl hlog _ hreplay
          (Database.shutdown_durable checkpoint faults s.db)
    | fenced hb before a after hl hbefore hfenced hok hafter t hr hd =>
        have hdb := Database.shutdown_blocked checkpoint faults hb
        exact .fenced (by simp only [hdb]; exact hb) before a after hl hbefore hfenced hok hafter t
          hr (by simp only [hdb]; exact hd)
    | finished _ _ hf' _ _ _ _ =>
        rw [hf'] at hf
        cases hf

theorem Ledger.step (h : Ledger P t₀ s) (event : StoreEvent) : Ledger P t₀ (s.step P event) := by
  cases event with
  | reserve thread call => exact h.reserve thread call
  | send thread => exact h.send thread
  | work faults => exact h.work faults
  | close => exact h.congr rfl rfl rfl fun _ hq _ => ⟨hq, rfl⟩
  | finish checkpoint faults => exact h.finish checkpoint faults

end Ledger

/-- In every run the log stands to the database as it should. -/
theorem HistoryStore.after_ledger (P : Platform) (t₀ : Tables) (events : List StoreEvent) :
    Ledger P t₀ ((HistoryStore.opened t₀).after P events) :=
  foldl_invariant (I := Ledger P t₀) (fun _ event h => h.step event) events
    (.live ⟨rfl, rfl⟩ rfl (by simp [opened]) rfl)

/-- Acknowledged history is exactly what survives.  Whatever fails, the tables found on
reopening are, up to the admission flag, what the acknowledged calls do one after the
other in execution order, or what these and then the one call that fenced the store do.
No call before that one fenced the store, it was not acknowledged, and no later call
executes. -/
theorem HistoryStore.acknowledged_survives (P : Platform) (t₀ : Tables)
    (events : List StoreEvent) :
    let s := (HistoryStore.opened t₀).after P events
    (∃ t, replay P (acknowledged s.log) t₀ = some t ∧
      ∀ before after faults,
        let found := (Database.openExisting before after faults s.db.durable).2.durable
        SameButAdmission found t ∨
          ∃ a ∈ s.log, a.fenced = true ∧ ∃ t',
            replay P (acknowledged s.log ++ [a.call]) t₀ = some t' ∧ SameButAdmission found t') ∧
    (∀ before a after, s.log = before ++ a :: after → a.fenced = true →
      a.isOk = false ∧ (∀ b ∈ before, b.fenced = false) ∧
        ∀ b ∈ after, b.executed = false ∧ b.isOk = false) := by
  intro s
  have hfound := fun before after faults =>
    Database.openExisting_durable before after faults s.db.durable
  cases (HistoryStore.after_ledger P t₀ events : Ledger P t₀ s) with
  | live hready hf hlog hreplay =>
      refine ⟨⟨_, hreplay, fun before after faults => .inl (hfound before after faults)⟩, ?_⟩
      intro before a after hl hfenced
      rw [hlog a (hl ▸ List.mem_append_right _ (List.mem_cons_self ..))] at hfenced
      cases hfenced
  | finished _ _ _ hlog t hreplay hdurable =>
      refine ⟨⟨t, hreplay, fun before after faults =>
        .inl ((hfound before after faults).trans hdurable)⟩, ?_⟩
      intro before a after hl hfenced
      rw [hlog a (hl ▸ List.mem_append_right _ (List.mem_cons_self ..))] at hfenced
      cases hfenced
  | fenced hb before a after hl hbefore hfenced hok hafter t hreplay hdurable =>
      have hack : acknowledged s.log = acknowledged before := by
        rw [hl, List.append_cons]
        unfold acknowledged
        rw [List.filter_append, List.map_append]
        have hrest := acknowledged_refused hafter
        unfold acknowledged at hrest
        rw [hrest, List.append_nil]
        have := acknowledged_append before a
        rw [hok] at this
        simpa [acknowledged] using this
      refine ⟨⟨t, hack ▸ hreplay, fun b f faults => ?_⟩, ?_⟩
      · rcases hdurable with hsame | happly
        · exact .inl (hsame ▸ hfound b f faults)
        · refine .inr ⟨a, hl ▸ List.mem_append_right _ (List.mem_cons_self ..), hfenced, _, ?_,
            hfound b f faults⟩
          rw [hack]
          exact replay_append hreplay happly
      · intro before' a' after' hl' hfenced'
        obtain ⟨rfl, rfl, rfl⟩ := split_unique (p := fun b => b.fenced = true) (hl.symm.trans hl')
          (fun b hb => by simp [hbefore b hb]) (fun b hb => by simp [(hafter b hb).2.2]) hfenced'
        exact ⟨hok, hbefore, fun b hb => ⟨(hafter b hb).1, (hafter b hb).2.1⟩⟩

end ClipDaemon
