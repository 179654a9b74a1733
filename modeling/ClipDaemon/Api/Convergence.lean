import ClipDaemon.Api.Ownership
import ClipDaemon.Lib.Alone

/-!
# Receipts converge

What the owner of an operation sees of it: revisions that only grow, one end, and once the
backend has ended the operation, that end.  The book forgets an ended operation when it is
old, as the backend does; but a full book also forgets one that the backend still shows
(`status_evicted`).
-/

namespace ClipDaemon.Jobs

open ThreadLog

/-! ## Status reads -/

/-- What a status read returns that was made when the operation had been entered. -/
theorem status_reported (now : Nat) (moves moves' : List (Pool.Move Call Chance))
    {i : Nat} {id : Uuid}
    {owner : Owner} {result : ApiResult (OperationResult × Nat)}
    (hnew : ((service now).after program moves).threads i = none)
    (hreturned : (((service now).after program moves).after program moves').Returned i
      (.status id owner) (.status result)) :
    Reported ((service now).after program moves).shared i id owner result
      (((service now).after program moves).after program moves').shared := by
  have hkeeps := service_keeps False now moves fun h => h.elim
  generalize (service now).after program moves = pool at hkeeps hnew hreturned ⊢
  have hrefines : (discipline False pool.shared).Refines (discipline False (initial now)) :=
    ⟨fun _ h => ⟨h.1, h.2.1, hkeeps.valid.2.2.trans h.2.2⟩, fun _ _ _ h => h, fun _ _ _ h hallows =>
      ⟨⟨hallows.valid.1, hallows.valid.2.1, h.2.2.trans hallows.grows⟩, hallows.grows,
        hallows.others⟩⟩
  have hlater : (discipline False pool.shared).Keeps
      (fun j call answer s => pool.threads j = none → Post pool.shared j call answer s) pool :=
    hkeeps.refine hrefines ⟨hkeeps.valid.1, hkeeps.valid.2.1, .refl _⟩ (fun _ h => h)
      fun j call answer s hj _ hnone => absurd hnone hj
  have hdone : (discipline False pool.shared).Keeps
      (fun j call answer s => pool.threads j = none → Post pool.shared j call answer s)
      (pool.after program moves') := by
    refine (Discipline.run_keeps (fun j call s _ hfresh => ?_) ?_ moves' hlater).1
    · exact (program_keeps j call (fun h => h.elim) hfresh).weaken fun _ _ hpost _ => hpost
    · exact fun _ _ _ _ _ _ _ hrely h hj => (h hj).rely hrely
  exact (hdone.threads i _ _ hreturned hnew).2

/-- The receipts of every operation that was registered.

The parts: all that its owner sees of it, in lifecycle events and in responses, is in order
and ends once; `unknown` is only said of what the backend does not show any more; the response
of a dispatch is one of these reads; and a status read that is made after the backend has
ended the operation returns that end, as long as the book has the record and the backend shows
the operation. -/
theorem receipts_converge (now : Nat) (moves moves' : List (Pool.Move Call Chance)) :
    let pool := (service now).after program moves
    let later := pool.after program moves'
    (∀ id, SeenValid (seen id pool.shared.log)) ∧
    (∀ id, ∀ old ∈ seen id pool.shared.log, old.operation.status = "unknown" →
      Operations.Absent id pool.shared.backend) ∧
    (∀ i method params owner read,
      pool.Returned i (.dispatch method params owner) (.dispatched (.ok (some read))) →
        (i, .read owner read.2 read.1) ∈ pool.shared.log) ∧
    (∀ i id owner result, pool.threads i = none →
      later.Returned i (.status id owner) (.status result) →
        Reported pool.shared i id owner result later.shared) := by
  intro pool later
  have hkeeps := service_keeps False now moves fun h => h.elim
  have hvalid : pool.shared.Valid := hkeeps.valid.1.valid
  refine ⟨hvalid.seen, fun id old hold hstatus => ?_,
    fun i method params owner read hreturned => ?_,
    fun i id owner result hnew hreturned => status_reported now moves moves' hnew hreturned⟩
  · cases hvalid.honest id old hold with
    | started h =>
        rw [hstatus] at h
        exact absurd h (by decide)
    | ended time h =>
        have hterminal := hvalid.backend.event_status h
        rw [hstatus] at hterminal
        exact absurd hterminal (by decide)
    | unknown _ habsent => exact habsent
  · exact ((hkeeps.threads i _ _ hreturned).2 read rfl).1

/-! ## A full book -/

instance : Inhabited Chance := ⟨.none⟩

/-- A screenshot that goes on, and the one that has ended. -/
def begun (id : Uuid) : OperationResult := .withId id "screenshot" "started" "Screenshot started"

def shotDone (id : Uuid) : OperationResult := .withId id "screenshot" "completed" ""

/-- Nothing has expired at time zero. -/
theorem status_zero {b : Operations} (id : Uuid) (hnow : b.now = 0)
    (hterminal : ∀ entry ∈ b.terminal, entry.1 = 0) : (b.status id).2 = b := by
  have hkept : Retention.prune Operations.TERMINAL_AGE b.now b.terminal = b.terminal := by
    rw [Retention.prune, List.dropWhile_eq_self_iff]
    intro hlength
    rw [hnow, hterminal _ (List.getElem_mem hlength)]
    decide
  change { b with terminal := _ } = b
  rw [hkept]

theorem prune_zero {s : Jobs} (hnow : s.now = 0)
    (hupdated : ∀ entry ∈ s.book.records, entry.updated = 0) :
    s.prune = s := by
  have hkept : (s.book.records.filter fun entry =>
      entry.active || decide (s.now - entry.updated < RETENTION)) = s.book.records := by
    refine List.filter_eq_self.mpr fun entry hentry => ?_
    rw [hnow, hupdated entry hentry]
    exact Bool.or_true _
  change { s with book := { s.book with records := _ } } = s
  rw [hkept]

/-- The state while no time passes: all that is known of the backend, and the records. -/
structure Zero (s : Jobs) : Prop where
  now : s.now = 0
  terminal : ∀ entry ∈ s.backend.terminal, entry.1 = 0
  updated : ∀ entry ∈ s.book.records, entry.updated = 0
  /-- The active records are up to date. -/
  fresh : ∀ entry ∈ s.book.records, entry.active = true →
    (s.backend.status entry.id).1 = some entry.operation

theorem Zero.refresh {s : Jobs} (h : s.Zero) (i : Nat) (id : Uuid) : s.refresh i id = s := by
  rw [Jobs.refresh]
  cases hfind : s.book.find id with
  | none => rfl
  | some entry =>
      obtain ⟨hentry, rfl⟩ := find_some hfind
      cases hactive : entry.active with
      | false => simp only [hactive, Bool.false_eq_true, if_false]
      | true =>
          have hstatus := h.fresh entry hentry hactive
          have hsame := status_zero entry.id h.now h.terminal
          simp only [hactive, if_true, current, hstatus, hsame]

theorem Zero.refreshAll {s : Jobs} (h : s.Zero) (i : Nat) (ids : List Uuid) :
    (Jobs.refreshAll i ids).Runs s () s := by
  induction ids with
  | nil => exact .done () s
  | cons id ids ih =>
      have hrefresh : (refreshOperation i id).Runs s () s := by
        have hruns := Thread.runs_modify (ι := Chance) (s := s) fun s => ((), s.refresh i id)
        simp only [h.refresh] at hruns
        exact hruns
      exact hrefresh.bind ih

theorem Zero.refreshOperations {s : Jobs} (h : s.Zero) (i : Nat) :
    (Jobs.refreshOperations i).Runs s () s := by
  refine Thread.Runs.bind (t := s) (a := (s.book.records.filter fun _ => true).map (·.id)) ?_ ?_
  · exact Thread.runs_atomic (.order ((s.book.records.filter fun _ => true).map (·.id)))
      (by exact if_pos (List.Perm.refl _))
  · refine (h.refreshAll i _).bind ?_
    have hruns := Thread.runs_modify (ι := Chance) (s := s) fun s => ((), s.prune)
    simp only [prune_zero h.now h.updated] at hruns
    exact hruns

/-- A statement that only looks. -/
theorem runs_look {α : Type} {s : Jobs} {f : Jobs → α × Jobs} {a : α} (h : f s = (a, s)) :
    (Thread.modify f : Work α).Runs s a s := by
  have hruns := Thread.runs_modify (ι := Chance) (s := s) f
  rw [h] at hruns
  exact hruns

theorem runs_elsewhere (s : Jobs) : elsewhere.run.Runs s (.ok ()) s :=
  Thread.runs_atomic .none rfl

/-- The backend after a screenshot was registered, and after it was started. -/
def registering (i : Nat) (b : Operations) : Operations :=
  let b := Operations.record i (.registered (begun i))
    { b with active := Function.update b.active i (some ⟨begun i, "screenshot", []⟩) }
  { b with ids := b.ids ++ [i] }.setTask i (.ready "screenshot")

/-- The task that was registered is started. -/
def starting (i : Nat) (b : Operations) : Operations :=
  let b := Operations.record i .started (registering i b)
  { b with started := Function.update b.started i true }

/-- A task that waits for the start barrier is there to receive it. -/
theorem start_ready {i : Uuid} {b : Operations} {action : String} (h : b.task i = .ready action) :
    (match b.task i with
      | .over => (Except.error (operationError "Clipboard operation could not start"), b)
      | _ => ((.ok (), { b with started := Function.update b.started i true }) :
        BackendResult Unit × Operations)) =
      (.ok (), { b with started := Function.update b.started i true }) := by
  rw [h]

theorem runs_launch {i : Nat} {s : Jobs} (hnew : i ∉ s.backend.ids) :
    (launch i "screenshot" "Screenshot started" []).run.Runs s (.ok (begun i))
      { s with backend := starting i s.backend } := by
  have hlaunch : (onBackend i (Operations.launch "screenshot" "Screenshot started" [])).Runs s
      (.ok (begun i)) { s with backend := starting i s.backend } := by
    rw [onBackend, Operations.launch, Thread.zoom_bind]
    refine Thread.Runs.bind (a := begun i) (t := { s with backend := registering i s.backend })
      (Thread.runs_atomic .none (congrArg (Option.map _) (if_neg hnew))) ?_
    rw [Thread.zoom_bind]
    refine Thread.Runs.bind (Thread.runs_atomic .none rfl) ?_
    rw [Thread.zoom_bind]
    refine Thread.Runs.bind (a := .ok ()) (t := { s with backend := starting i s.backend })
      (Thread.runs_atomic .none ?_) (Thread.runs_pure _ _)
    have htask :
        (Operations.record i .started (registering i s.backend)).task i = .ready "screenshot" :=
      Function.update_self ..
    exact congrArg (fun r => some (r.1, { s with backend := r.2 })) (start_ready htask)
  exact (Thread.Runs.lift hlaunch).run_bind (Thread.runs_pure _ _)

/-- What is so after a screenshot was started and its request has returned. -/
structure Started (i : Nat) (kept : List Record) (s t : Jobs) : Prop where
  now : t.now = 0
  active : t.backend.active = Function.update s.backend.active i (some ⟨begun i, "screenshot", []⟩)
  cancelling : t.backend.cancelling = s.backend.cancelling
  terminal : t.backend.terminal = s.backend.terminal
  ids : t.backend.ids = s.backend.ids ++ [i]
  task : t.backend.task i = .ready "screenshot"
  started : t.backend.started i = true
  records : t.book.records = kept ++ [⟨i, none, begun i, 1, 0⟩]
  pending : t.book.pending = []

theorem runs_reserve {i : Nat} {s : Jobs} (h : s.Zero) (hpending : s.book.pending = [])
    (hended : ∀ entry ∈ s.book.records, entry.active = false) :
    (reserve i none).Runs s (.ok ())
      (record i (.reserved none) { s with book := { s.book with pending := [(i, none)] } }) := by
  have hpruned : s.book.prune s.now = s.book := congrArg Jobs.book (prune_zero h.now h.updated)
  have hidle : s.book.records.countP (·.active) = 0 :=
    List.countP_eq_zero.mpr fun entry hentry => by simp [hended entry hentry]
  have hmine : s.book.records.countP
      (fun entry => entry.active && decide (entry.owner = none)) = 0 :=
    List.countP_eq_zero.mpr fun entry hentry => by simp [hended entry hentry]
  have hreserve : s.book.reserve i none s.now =
      (.ok (), { s.book with pending := [(i, none)] }) := by
    simp only [Book.reserve, hpruned, hpending, List.length_nil, List.countP_nil, hidle, hmine]
    exact if_neg (by decide)
  have hruns : (reserve i none).Runs s _ _ := Thread.runs_modify _
  simp only [hreserve] at hruns
  exact hruns

theorem runs_interactiveScreenshot {i : Nat} {s : Jobs} (hactive : ∀ id, s.backend.active id = none)
    (hcancelling : ∀ id, s.backend.cancelling id = none) (hnew : i ∉ s.backend.ids) :
    (interactiveScreenshot i).run.Runs s (.ok (some (begun i)))
      { s with backend := starting i s.backend } := by
  have hcontains : s.backend.contains "screenshot" = false := by
    simp [Operations.contains, hactive, hcancelling]
  have hlook :
      (onBackend i (Thread.modify fun b => (b.contains "screenshot", b))).Runs s false s := by
    rw [onBackend, Thread.zoom_modify]
    exact runs_look (by rw [hcontains])
  refine (runs_elsewhere s).run_bind ((Thread.Runs.lift hlook).run_bind ?_)
  exact (runs_launch hnew).run_bind (Thread.runs_pure _ _)

/-- The state after the registration of a screenshot that has just been started. -/
theorem track_started {i : Nat} {s : Jobs} {kept : List Record} {gone victim : Option Uuid}
    (hnow : s.now = 0) (hterminal : ∀ entry ∈ s.backend.terminal, entry.1 = 0)
    (hactive : s.backend.active i = some ⟨begun i, "screenshot", []⟩)
    (hregister : Book.register victim (begun i) none 0 s.book =
      some (gone, ⟨kept ++ [⟨i, none, begun i, 1, 0⟩], [(i, none)]⟩)) :
    ∃ t, s.track i (begun i) none victim = some t ∧ t.backend = s.backend ∧
      t.book = ⟨kept ++ [⟨i, none, begun i, 1, 0⟩], [(i, none)]⟩ := by
  have hstatus : (s.backend.status i).1 = some (begun i) := by
    simp [Operations.status, Operations.prune, hactive]
  have hsame : (s.backend.status i).2 = s.backend := status_zero i hnow hterminal
  have hregister' : Book.register victim (begun i) none s.now s.book =
      some (gone, ⟨kept ++ [⟨i, none, begun i, 1, 0⟩], [(i, none)]⟩) := by
    rw [hnow]
    exact hregister
  have hid : (begun i).id = i := rfl
  simp only [Jobs.track, hid, hstatus, Option.getD_some, hregister', Option.map_some, hsame]
  refine ⟨_, rfl, ?_, ?_⟩
  · cases gone <;> rfl
  · cases gone <;> rfl

/-- A screenshot is asked for while nothing goes on. -/
theorem runs_dispatch {i : Nat} {s : Jobs} {kept : List Record} {gone victim : Option Uuid}
    (h : s.Zero) (hpending : s.book.pending = [])
    (hended : ∀ entry ∈ s.book.records, entry.active = false)
    (hactive : ∀ id, s.backend.active id = none)
    (hcancelling : ∀ id, s.backend.cancelling id = none)
    (hnew : i ∉ s.backend.ids) (hkept : ∀ entry ∈ kept, entry ∈ s.book.records ∧ entry.id ≠ i)
    (hregister : Book.register victim (begun i) none 0 ⟨s.book.records, [(i, none)]⟩ =
      some (gone, ⟨kept ++ [⟨i, none, begun i, 1, 0⟩], [(i, none)]⟩)) :
    ∃ answer t, (program i (.dispatch "clipboard.capture.interactive" .null none)).Runs s answer t ∧
      Started i kept s t := by
  obtain ⟨reserved, hreserved⟩ : ∃ reserved, reserved = record i (.reserved none)
    { s with book := { s.book with pending := [(i, none)] } } := ⟨_, rfl⟩
  have hreserve : (reserve i none).Runs s (.ok ()) reserved := by
    rw [hreserved]
    exact runs_reserve h hpending hended
  obtain ⟨launched, hlaunched⟩ : ∃ launched : Jobs, launched =
    { reserved with backend := starting i s.backend } := ⟨_, rfl⟩
  have hmethod : (interactiveScreenshot i).run.Runs reserved (.ok (some (begun i))) launched := by
    rw [hlaunched, hreserved]
    exact runs_interactiveScreenshot hactive hcancelling hnew
  have hbackend : launched.backend = starting i s.backend := by rw [hlaunched]
  have hbook : launched.book = ⟨s.book.records, [(i, none)]⟩ := by rw [hlaunched, hreserved]; rfl
  have hnow : launched.now = 0 := by
    rw [now, hbackend]
    exact h.now
  have hstarted : launched.backend.active i = some ⟨begun i, "screenshot", []⟩ := by
    rw [hbackend]
    exact Function.update_self ..
  have hterminal : ∀ entry ∈ launched.backend.terminal, entry.1 = 0 := by
    rw [hbackend]
    exact h.terminal
  rw [← hbook] at hregister
  obtain ⟨tracked, htrack, hbackend', hbook'⟩ := track_started hnow hterminal hstarted hregister
  have hzero : tracked.Zero := by
    constructor
    · rw [now, hbackend']
      exact hnow
    · rw [hbackend']
      exact hterminal
    · rw [hbook']
      intro entry hentry
      rcases List.mem_append.mp hentry with hold | hlast
      · exact h.updated entry (hkept entry hold).1
      · rw [List.mem_singleton.mp hlast]
    · rw [hbook']
      intro entry hentry hlive
      rcases List.mem_append.mp hentry with hold | hlast
      · rw [hended entry (hkept entry hold).1] at hlive
        cases hlive
      · rw [List.mem_singleton.mp hlast, hbackend']
        simp [Operations.status, Operations.prune, hstarted]
  have hfind : tracked.book.find i = some ⟨i, none, begun i, 1, 0⟩ := by
    have hnone : (kept.find? fun entry => entry.id = i) = none :=
      List.find?_eq_none.mpr fun entry hentry => by simpa using (hkept entry hentry).2
    rw [Book.find, hbook', List.find?_append, hnone]
    simp
  have hread : tracked.readRecord i i none =
      (.ok (begun i, 1), record i (.read none 1 (begun i)) tracked) := by
    simp only [readRecord, prune_zero hzero.now hzero.updated, hfind, if_true]
  have hoperation : (operationStatus i i none).Runs tracked (.ok (begun i, 1))
      (record i (.read none 1 (begun i)) tracked) := by
    have hrefresh : (refreshOperation i i).Runs tracked () tracked :=
      runs_look (by rw [hzero.refresh])
    refine hrefresh.bind ?_
    have hruns := Thread.runs_modify (ι := Chance) (s := tracked) (readRecord i i none)
    rw [hread] at hruns
    exact hruns
  obtain ⟨last, hlast⟩ : ∃ last : Jobs, last = record i (.read none 1 (begun i)) tracked := ⟨_, rfl⟩
  rw [← hlast] at hoperation
  have hdispatched :
      (dispatchReserved i "clipboard.capture.interactive" .null none).run.Runs reserved
      (.ok (some (begun i, 1))) last := by
    refine Thread.Runs.run_bind (a := some (begun i)) hmethod
      ((runs_elsewhere launched).run_bind ?_)
    have htracked : (trackOperation i (begun i) none).Runs launched () tracked :=
      Thread.runs_atomic (.victim victim) (by exact congrArg (Option.map fun t => ((), t)) htrack)
    refine (Thread.Runs.lift htracked).run_bind ((Thread.Runs.lift hoperation).run_bind ?_)
    exact Thread.Runs.run_bind (Thread.runs_pure _ _) (Thread.runs_pure _ _)
  refine ⟨.dispatched (.ok (some (begun i, 1))), { last with book := last.book.release i }, ?_, ?_⟩
  · refine (h.refreshOperations i).bind (hreserve.bind (hdispatched.bind ?_))
    exact (Thread.runs_modify _).bind (Thread.runs_pure _ _)
  · have hbackend'' : last.backend = starting i s.backend := by
      rw [hlast]
      exact hbackend'.trans hbackend
    have hbook'' : last.book = ⟨kept ++ [⟨i, none, begun i, 1, 0⟩], [(i, none)]⟩ := by
      rw [hlast]
      exact hbook'
    constructor
    · change last.backend.now = 0
      rw [hbackend'']
      exact h.now
    · change last.backend.active = _
      rw [hbackend'']
      rfl
    · change last.backend.cancelling = _
      rw [hbackend'']
      rfl
    · change last.backend.terminal = _
      rw [hbackend'']
      rfl
    · change last.backend.ids = _
      rw [hbackend'']
      rfl
    · change last.backend.task i = _
      rw [hbackend'']
      exact Function.update_self ..
    · change last.backend.started i = _
      rw [hbackend'']
      exact Function.update_self ..
    · change last.book.records = _
      rw [hbook'']
    · change (last.book.release i).pending = []
      rw [Book.release, hbook'']
      simp

/-- The tasks of the backend make a step. -/
theorem runs_poll {j : Nat} {s : Jobs} {b : Operations} {id : Uuid} {move : Operations.TaskMove}
    (h : s.backend.pollTask id move = some b) :
    (program j .poll).Runs s .done { s with backend := b } := by
  have hpoll : (onBackend j Operations.poll).Runs s () { s with backend := b } :=
    Thread.runs_atomic (.backend (.task id move)) (by
      change Option.map _ ((s.backend.pollTask id move).map fun b => ((), b)) = _
      rw [h]
      rfl)
  exact hpoll.bind (Thread.runs_pure _ _)

/-- The backend after some screenshots, all of which have ended. -/
structure Rested (ids : List Uuid) (b : Operations) : Prop where
  now : b.now = 0
  active : ∀ id, b.active id = none
  cancelling : ∀ id, b.cancelling id = none
  known : b.ids = ids
  terminal : b.terminal = ids.map fun id => (0, shotDone id)

theorem Rested.young {ids : List Uuid} {b : Operations} (h : Rested ids b) :
    ∀ entry ∈ b.terminal, entry.1 = 0 := by
  intro entry hentry
  rw [h.terminal] at hentry
  obtain ⟨id, -, rfl⟩ := List.mem_map.mp hentry
  rfl

/-- The backend shows the end of each. -/
theorem Rested.status {ids : List Uuid} {b : Operations} (h : Rested ids b) {id : Uuid}
    (hid : id ∈ ids) :
    (b.status id).1 = some (shotDone id) := by
  have hpruned : Retention.prune Operations.TERMINAL_AGE b.now b.terminal = b.terminal :=
    congrArg Operations.terminal (status_zero id h.now h.young)
  have hfound : (b.terminal.find? fun entry => entry.2.id = id).map (·.2) = some (shotDone id) := by
    cases hfind : b.terminal.find? fun entry => entry.2.id = id with
    | none =>
        have hnone := List.find?_eq_none.mp hfind (0, shotDone id) (by
          rw [h.terminal]
          exact List.mem_map_of_mem hid)
        exact absurd (decide_eq_true rfl) hnone
    | some entry =>
        have hmem := List.mem_of_find?_eq_some hfind
        have hsame := List.find?_some hfind
        rw [h.terminal] at hmem
        obtain ⟨id', -, rfl⟩ := List.mem_map.mp hmem
        have heq : id' = id := of_decide_eq_true hsame
        rw [heq]
        rfl
  simp only [Operations.status, Operations.prune, h.active, h.cancelling, hpruned, hfound,
    Option.map_none, Option.orElse_none]

/-- The critical section of work that has returned. -/
theorem complete_active {b : Operations} {id : Uuid} {task : OperationTask} {action : String}
    {result : BackendResult OperationCompletion} (h : b.active id = some task) :
    b.complete id action result =
      (((Operations.record id (.removed task.files)
        { b with active := Function.update b.active id none }).retain id
          (Operations.report id action result)).setTask id
            (.finishing (some (Operations.report id action result)))) := by
  simp only [Operations.complete, h]

/-- The work of a screenshot. -/
def shot : BackendResult OperationCompletion := .ok ⟨.completed, "", none⟩

/-- The work of the screenshot that was started returns. -/
theorem Started.completed {i : Nat} {ids : List Uuid} {kept : List Record} {s t : Jobs}
    (h : Started i kept s t) (hrested : Rested ids s.backend)
    (hroom : ids.length < Operations.MAX_TERMINAL) :
    ∃ b b' b'', t.backend.pollTask i .begin = some b ∧ b.pollTask i (.finish shot) = some b' ∧
      b'.pollTask i .next = some b'' ∧ Rested (ids ++ [i]) b'' := by
  have hterminal : t.backend.terminal = ids.map fun id => (0, shotDone id) :=
    h.terminal.trans hrested.terminal
  have hpruned : Retention.prune Operations.TERMINAL_AGE t.backend.now t.backend.terminal =
      t.backend.terminal :=
    congrArg Operations.terminal (status_zero i h.now (by
      rw [h.terminal]
      exact hrested.young))
  have hlength : t.backend.terminal.length ≠ Operations.MAX_TERMINAL := by
    rw [hterminal, List.length_map]
    exact Nat.ne_of_lt hroom
  obtain ⟨b, hb⟩ : ∃ b, b = t.backend.setTask i (.working "screenshot") := ⟨_, rfl⟩
  obtain ⟨b', hb'⟩ : ∃ b', b' =
      Operations.record i (.worked shot) (b.setTask i (.ended "screenshot" shot)) :=
    ⟨_, rfl⟩
  have htask : b.task i = .working "screenshot" := by rw [hb]; exact Function.update_self ..
  have htask' : b'.task i = .ended "screenshot" shot := by rw [hb']; exact Function.update_self ..
  refine ⟨b, b', b'.complete i "screenshot" shot, ?_, ?_, ?_, ?_⟩
  · simp only [Operations.pollTask, h.task, h.started, if_true, hb]
  · simp only [Operations.pollTask, htask, hb']
  · simp only [Operations.pollTask, htask']
  have hactive : b'.active i = some ⟨begun i, "screenshot", []⟩ := by
    rw [hb', hb]
    change t.backend.active i = _
    rw [h.active, Function.update_self]
  rw [complete_active hactive, hb', hb]
  constructor
  · exact h.now
  · intro id
    change Function.update t.backend.active i none id = none
    rw [h.active, Function.update_idem]
    rcases eq_or_ne id i with rfl | hne
    · exact Function.update_self ..
    · rw [Function.update_of_ne hne]
      exact hrested.active id
  · intro id
    change t.backend.cancelling id = none
    rw [h.cancelling]
    exact hrested.cancelling id
  · change t.backend.ids = _
    rw [h.ids, hrested.known]
  · change Retention.retain Operations.MAX_TERMINAL Operations.TERMINAL_AGE t.backend.now
      t.backend.terminal (shotDone i) = _
    rw [Retention.retain, hpruned, if_neg hlength, hterminal, List.map_append]
    exact congrArg (fun time => ids.map (fun id => (0, shotDone id)) ++ [(time, shotDone i)]) h.now

/-- The daemon after some screenshots, whose records say that they have ended. -/
structure Filled (ids : List Uuid) (s : Jobs) : Prop where
  rested : Rested ids s.backend
  records : s.book.records = ids.map fun id => ⟨id, none, shotDone id, 2, 0⟩
  pending : s.book.pending = []

theorem Filled.ended {ids : List Uuid} {s : Jobs} (h : Filled ids s) :
    ∀ entry ∈ s.book.records, entry.active = false := by
  intro entry hentry
  rw [h.records] at hentry
  obtain ⟨id, -, rfl⟩ := List.mem_map.mp hentry
  exact (by decide : decide ("completed" = "started") = false)

theorem Filled.zero {ids : List Uuid} {s : Jobs} (h : Filled ids s) : s.Zero where
  now := h.rested.now
  terminal := h.rested.young
  updated entry hentry := by
    rw [h.records] at hentry
    obtain ⟨id, -, rfl⟩ := List.mem_map.mp hentry
    rfl
  fresh entry hentry hactive := by
    rw [h.ended entry hentry] at hactive
    cases hactive

/-- The record of the screenshot that has ended is refreshed. -/
theorem Filled.refresh {i j : Nat} {ids : List Uuid} {u : Jobs}
    (hrested : Rested (ids ++ [i]) u.backend)
    (hrecords : u.book.records = (ids.map fun id => ⟨id, none, shotDone id, 2, 0⟩) ++
      [⟨i, none, begun i, 1, 0⟩]) (hpending : u.book.pending = []) (hnew : i ∉ ids) :
    Filled (ids ++ [i]) (u.refresh j i) := by
  have hothers : ∀ entry ∈ (ids.map fun id => (⟨id, none, shotDone id, 2, 0⟩ : Record)),
      entry.id ≠ i := by
    intro entry hentry
    obtain ⟨id, hid, rfl⟩ := List.mem_map.mp hentry
    exact fun heq => hnew (heq ▸ hid)
  have hfind : u.book.find i = some ⟨i, none, begun i, 1, 0⟩ := by
    rw [Book.find, hrecords, List.find?_append,
      List.find?_eq_none.mpr fun entry hentry => by simpa using hothers entry hentry]
    simp
  have hstatus : (u.backend.status i).1 = some (shotDone i) :=
    hrested.status (List.mem_append_right _ (List.mem_singleton_self i))
  have hsame : (u.backend.status i).2 = u.backend := status_zero i hrested.now hrested.young
  have hne : begun i ≠ shotDone i := fun heq =>
    absurd (congrArg OperationResult.status heq) (by decide : "started" ≠ "completed")
  have hlive : Record.active ⟨i, none, begun i, 1, 0⟩ = true := rfl
  have hrefresh : u.refresh j i = emit j ⟨i, none, shotDone i, 2, 0⟩
      { u with book := u.book.update ⟨i, none, shotDone i, 2, 0⟩ } := by
    have hnow : u.now = 0 := hrested.now
    simp only [Jobs.refresh, hfind, hlive, if_true, current, hstatus, hsame, hne, if_false,
      Record.next,
      hnow]
  rw [hrefresh]
  refine ⟨hrested, ?_, hpending⟩
  change u.book.records.map _ = _
  rw [hrecords, List.map_append, List.map_append]
  have hold : (ids.map fun id => (⟨id, none, shotDone id, 2, 0⟩ : Record)).map (fun other =>
      if other.id = i then ⟨i, none, shotDone i, 2, 0⟩ else other) =
        ids.map fun id => ⟨id, none, shotDone id, 2, 0⟩ :=
    (List.map_congr_left fun entry hentry => if_neg (hothers entry hentry)).trans
      (List.map_id'' (fun _ => rfl) _)
  rw [hold]
  exact congrArg (_ ++ [·]) (if_pos rfl)

/-- Another screenshot, by the next threads. -/
theorem Filled.next {n : Nat} {ids : List Uuid} {s : Jobs} {p : Pool Jobs Chance Call Answer}
    (h : Filled ids s) (hserves : p.Serves program n s) (hroom : ids.length < MAX_RECORDS)
    (hids : ∀ id ∈ ids, id < n) : ∃ t, p.Serves program (n + 5) t ∧ Filled (ids ++ [n]) t := by
  have hnew : n ∉ ids := fun hmem => Nat.lt_irrefl n (hids n hmem)
  have hothers : ∀ entry ∈ s.book.records, entry.id ≠ n := by
    intro entry hentry
    rw [h.records] at hentry
    obtain ⟨id, hid, rfl⟩ := List.mem_map.mp hentry
    exact Nat.ne_of_lt (hids id hid)
  have hregister : Book.register none (begun n) none 0 ⟨s.book.records, [(n, none)]⟩ =
      some (none, ⟨s.book.records ++ [⟨n, none, begun n, 1, 0⟩], [(n, none)]⟩) := by
    have hpruned : Book.prune 0 ⟨s.book.records, [(n, none)]⟩ = ⟨s.book.records, [(n, none)]⟩ := by
      have hsame := congrArg (fun s => s.book.records) (prune_zero h.zero.now h.zero.updated)
      have hnow : s.now = 0 := h.zero.now
      simp only [prune, Book.prune, hnow] at hsame
      rw [Book.prune, hsame]
    have hlength : ¬(MAX_RECORDS ≤ s.book.records.length ∧
        Book.oldest ⟨s.book.records, [(n, none)]⟩ ≠ []) := by
      rw [h.records, List.length_map]
      exact fun hfull => absurd hroom (Nat.not_lt.mpr hfull.1)
    have hkept : (s.book.records.filter fun other => other.id ≠ n) = s.book.records :=
      List.filter_eq_self.mpr fun entry hentry => by simpa using hothers entry hentry
    simp only [Book.register, hpruned, if_neg hlength, Book.insert]
    exact congrArg
      (fun records => some (none, (⟨records ++ [⟨n, none, begun n, 1, 0⟩], [(n, none)]⟩ : Book)))
      hkept
  obtain ⟨answer, t, hdispatch, hstarted⟩ := runs_dispatch h.zero h.pending h.ended h.rested.active
    h.rested.cancelling (by rw [h.rested.known]; exact hnew)
    (fun entry hentry => ⟨hentry, hothers entry hentry⟩) hregister
  obtain ⟨b, b', b'', hbegin, hfinish, hnext, hrested⟩ := hstarted.completed h.rested hroom
  have hrecords : t.book.records = (ids.map fun id => ⟨id, none, shotDone id, 2, 0⟩) ++
      [⟨n, none, begun n, 1, 0⟩] := by
    rw [hstarted.records, h.records]
  have hrefresh : (program (n + 4) (.observed n)).Runs { t with backend := b'' } .done
      (Jobs.refresh (n + 4) n { t with backend := b'' }) :=
    (Thread.runs_modify _).bind (Thread.runs_pure _ _)
  refine ⟨_, (((((hserves.call hdispatch).call (runs_poll hbegin)).call (runs_poll hfinish)).call
    (runs_poll hnext)).call hrefresh), ?_⟩
  exact Filled.refresh hrested hrecords hstarted.pending hnew

/-- The book can be filled. -/
theorem serves_filled (k : Nat) (hk : k ≤ MAX_RECORDS) :
    ∃ ids s, ids.length = k ∧ (∀ id ∈ ids, id < 5 * k) ∧
      (service 0).Serves program (5 * k) s ∧ Filled ids s := by
  induction k with
  | zero =>
      refine ⟨[], initial 0, rfl, fun _ h => (by cases h), Pool.serves_start _, ?_, rfl, rfl⟩
      exact ⟨rfl, fun _ => rfl, fun _ => rfl, rfl, rfl⟩
  | succ k ih =>
      obtain ⟨ids, s, hlength, hids, hserves, hfilled⟩ := ih (Nat.le_of_succ_le hk)
      obtain ⟨t, hserves', hfilled'⟩ := hfilled.next hserves (by rw [hlength]; exact hk) hids
      refine ⟨ids ++ [5 * k], t,
        by rw [List.length_append, hlength]; rfl, fun id hid => ?_, hserves', hfilled'⟩
      rcases List.mem_append.mp hid with hold | hlast
      · have hless := hids id hold
        omega
      · rw [List.mem_singleton.mp hlast]
        omega

/-- A full book of ended records evicts any of them. -/
theorem Filled.register {n : Nat} {ids : List Uuid} {s : Jobs} {v : Uuid} (h : Filled ids s)
    (hfull : ids.length = MAX_RECORDS) (hv : v ∈ ids) (hnew : n ∉ ids) :
    Book.register (some v) (begun n) none 0 ⟨s.book.records, [(n, none)]⟩ =
      some (some v, ⟨(s.book.records.filter fun record => record.id ≠ v) ++
        [⟨n, none, begun n, 1, 0⟩], [(n, none)]⟩) := by
  have hpruned : Book.prune 0 ⟨s.book.records, [(n, none)]⟩ = ⟨s.book.records, [(n, none)]⟩ := by
    have hsame := congrArg (fun s => s.book.records) (prune_zero h.zero.now h.zero.updated)
    have hnow : s.now = 0 := h.zero.now
    simp only [prune, Book.prune, hnow] at hsame
    rw [Book.prune, hsame]
  have hvictim : v ∈ Book.oldest ⟨s.book.records, [(n, none)]⟩ := by
    refine List.mem_map.mpr ⟨⟨v, none, shotDone v, 2, 0⟩, List.mem_filter.mpr ⟨?_, ?_⟩, rfl⟩
    · rw [h.records]
      exact List.mem_map_of_mem hv
    · have hall :
          (s.book.records.all fun other => other.active || decide (0 ≤ other.updated)) = true :=
        List.all_eq_true.mpr fun other _ => by simp
      exact hall
  have hlength : MAX_RECORDS ≤ s.book.records.length ∧
      Book.oldest ⟨s.book.records, [(n, none)]⟩ ≠ [] := by
    rw [h.records, List.length_map, ← h.records]
    exact ⟨hfull.ge, List.ne_nil_of_mem hvictim⟩
  have hkept :
      ((s.book.records.filter fun record => record.id ≠ v).filter fun other => other.id ≠ n) =
      s.book.records.filter fun record => record.id ≠ v := by
    refine List.filter_eq_self.mpr fun entry hentry => ?_
    have hmem := List.mem_of_mem_filter hentry
    rw [h.records] at hmem
    obtain ⟨id, hid, rfl⟩ := List.mem_map.mp hmem
    have hne : id ≠ n := fun heq => hnew (heq ▸ hid)
    simpa using hne
  simp only [Book.register, hpruned, if_pos hlength, if_pos hvictim, Book.insert]
  exact congrArg (fun records =>
    some (some v, (⟨records ++ [⟨n, none, begun n, 1, 0⟩], [(n, none)]⟩ : Book))) hkept

/-- The status of an operation that has no record. -/
theorem runs_status {i : Nat} {s : Jobs} {v : Uuid} (h : s.Zero) (hnone : s.book.find v = none) :
    (program i (.status v none)).Runs s (.status (.error (.new "operation-unknown"
      "Operation outcome is unknown or expired; do not replay"))) s := by
  have hrefresh : (refreshOperation i v).Runs s () s := runs_look (by rw [h.refresh])
  have hread : (Thread.modify (readRecord i v none) : Work _).Runs s
      (.error (.new "operation-unknown"
      "Operation outcome is unknown or expired; do not replay")) s := by
    refine runs_look ?_
    simp only [readRecord, prune_zero h.now h.updated, hnone]
  exact (h.refreshOperations i).bind ((hrefresh.bind hread).bind (Thread.runs_pure _ _))

/-- While the backend retains the result of an operation its status can be refused: the book
has evicted the record for that of a newer operation. -/
theorem status_evicted :
    ¬∀ now moves moves' i id owner operation result,
      let pool := (service now).after program moves
      let later := pool.after program moves'
      (id, .registered owner) ∈ pool.shared.log →
        (pool.shared.backend.status id).1 = some operation → operation.status ≠ "started" →
          (later.shared.backend.status id).1 = some operation → pool.threads i = none →
            later.Returned i (.status id owner) (.status result) →
              ∃ revision, result = .ok (operation, revision) := by
  intro hclaim
  obtain ⟨ids, s, hlength, hids, ⟨moves, hshared, hfree⟩, hfilled⟩ :=
    serves_filled MAX_RECORDS (Nat.le_refl _)
  obtain ⟨v, hv⟩ : ∃ v, v ∈ ids := List.exists_mem_of_length_pos (by rw [hlength]; decide)
  generalize hn : 5 * MAX_RECORDS = n at hids hfree
  have hnew : n ∉ ids := fun hmem => Nat.lt_irrefl n (hids n hmem)
  have hne : v ≠ n := fun heq => hnew (heq ▸ hv)
  have hvalid := (service_keeps False 0 moves fun h => h.elim).valid.1.valid
  -- one more screenshot
  obtain ⟨answer, t, hdispatch, hstarted⟩ :=
    runs_dispatch (i := n) hfilled.zero hfilled.pending hfilled.ended
    hfilled.rested.active hfilled.rested.cancelling (by rw [hfilled.rested.known]; exact hnew)
    (fun entry hentry => ⟨List.mem_of_mem_filter hentry, by
      have hmem := List.mem_of_mem_filter hentry
      rw [hfilled.records] at hmem
      obtain ⟨id, hid, rfl⟩ := List.mem_map.mp hmem
      exact fun heq => hnew (heq ▸ hid)⟩) (hfilled.register hlength hv hnew)
  have hzero : t.Zero := by
    refine ⟨hstarted.now, ?_, fun entry hentry => ?_, fun entry hentry hactive => ?_⟩
    · rw [hstarted.terminal]
      exact hfilled.rested.young
    · rw [hstarted.records] at hentry
      rcases List.mem_append.mp hentry with hold | hlast
      · exact hfilled.zero.updated entry (List.mem_of_mem_filter hold)
      · rw [List.mem_singleton.mp hlast]
    · rw [hstarted.records] at hentry
      rcases List.mem_append.mp hentry with hold | hlast
      · rw [hfilled.ended entry (List.mem_of_mem_filter hold)] at hactive
        cases hactive
      · rw [List.mem_singleton.mp hlast]
        simp [Operations.status, Operations.prune, hstarted.active]
  have hnone : t.book.find v = none := by
    refine List.find?_eq_none.mpr fun entry hentry => ?_
    rw [hstarted.records] at hentry
    rcases List.mem_append.mp hentry with hold | hlast
    · simpa using (List.mem_filter.mp hold).2
    · rw [List.mem_singleton.mp hlast]
      simpa using hne.symm
  -- the backend shows the result all the time
  have hbefore : (s.backend.status v).1 = some (shotDone v) := hfilled.rested.status hv
  have hafter : (t.backend.status v).1 = some (shotDone v) := by
    rw [← hbefore]
    have hnow : t.backend.now = s.backend.now := hstarted.now.trans hfilled.rested.now.symm
    simp only [Operations.status, Operations.prune, hstarted.active, hstarted.cancelling,
      hstarted.terminal, Function.update_of_ne hne, hnow]
  -- the two calls
  obtain ⟨moves₁, hshared₁, -, hothers₁⟩ :=
    Pool.after_of_call (k := .dispatch "clipboard.capture.interactive" .null none)
    (hfree n (Nat.le_refl n)) (by rw [hshared]; exact hdispatch)
  obtain ⟨moves₂, hshared₂, hreturned, -⟩ := Pool.after_of_call (i := n + 1) (k := .status v none)
    ((hothers₁ (n + 1) (Nat.succ_ne_self n)).trans (hfree (n + 1) (by omega)))
    (by rw [hshared₁]; exact runs_status hzero hnone)
  have hregistered : (v, .registered none) ∈ ((service 0).after program moves).shared.log := by
    have hentry : (⟨v, none, shotDone v, 2, 0⟩ : Record) ∈
        ((service 0).after program moves).shared.book.records := by
      rw [hshared, hfilled.records]
      exact List.mem_map_of_mem hv
    exact (hvalid.tracks _ hentry).entered
  obtain ⟨revision, hresult⟩ :=
    hclaim 0 moves (moves₁ ++ moves₂) (n + 1) v none (shotDone v) _ hregistered
    (by rw [hshared]; exact hbefore) (by decide : "completed" ≠ "started")
    (by rw [Pool.after_append, hshared₂]; exact hafter) (hfree (n + 1) (by omega))
    (by rw [Pool.after_append]; exact hreturned)
  cases hresult

end ClipDaemon.Jobs
