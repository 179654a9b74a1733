import ClipDaemon.History.Lifecycle

/-!
# Every operation ends once

The results about every interleaving of launches, work, cancellations and stops.  An
operation has one terminal event at most, cancellation and commit exclude each other, and
the status shows the terminal event until the bounded queue drops it.  After `stop` no
operation can begin a commit.

Two clauses fail for some schedules (`cancelled_too_late`).  The work of a cancelled operation
may return before the abortion strikes: then it finds its record gone, and wakes the waiters
before the cleanup has published.  And the abortion may strike while the work waits for a closure
on the blocking pool: the closure goes on when the staged files are removed.
-/

namespace ClipDaemon.Operations

/-! ## What only grows -/

/-- What stays true of an operation. -/
structure Grows (s t : Operations) : Prop where
  registered : ∀ id, (trace id s.log).registered ≠ [] → (trace id t.log).registered ≠ []
  claimed : ∀ id, (trace id s.log).claimed = true → (trace id t.log).claimed = true
  ended : ∀ id, (trace id s.log).ended ≠ [] → (trace id t.log).ended ≠ []
  finished : ∀ id, s.control id = .finished → t.control id = .finished

theorem Grows.refl (s : Operations) : Grows s s :=
  ⟨fun _ h => h, fun _ h => h, fun _ h => h, fun _ h => h⟩

theorem Grows.trans {s t u : Operations} (h : Grows s t) (h' : Grows t u) : Grows s u where
  registered id hs := h'.registered id (h.registered id hs)
  claimed id hs := h'.claimed id (h.claimed id hs)
  ended id hs := h'.ended id (h.ended id hs)
  finished id hs := h'.finished id (h.finished id hs)

/-- What a step of one operation leaves true. -/
theorem grows_of_step {id : Uuid} {now : Nat} {l l' : Life} (h : Life.Step id now l l') :
    (l.trace.registered ≠ [] → l'.trace.registered ≠ []) ∧
    (l.trace.claimed = true → l'.trace.claimed = true) ∧
    (l.trace.ended ≠ [] → l'.trace.ended ≠ []) ∧
    (l.control = .finished → l'.control = .finished) := by
  cases h with
  | register initial files hfresh => simp [Trace.add, hfresh]
  | commit action htask hcontrol => simp [Trace.add, hcontrol]
  | claim task hactive hcontrol => simp [Trace.add, hcontrol]
  | _ => simp [Trace.add]

theorem Moves.grows {s t : Operations} (h : Moves s t) : Grows s t := by
  have hgrows : ∀ id,
      ((s.life id).trace.registered ≠ [] → (t.life id).trace.registered ≠ []) ∧
      ((s.life id).trace.claimed = true → (t.life id).trace.claimed = true) ∧
      ((s.life id).trace.ended ≠ [] → (t.life id).trace.ended ≠ []) ∧
      ((s.life id).control = .finished → (t.life id).control = .finished) := by
    intro id
    rcases h.life id with heq | hstep
    · rw [heq]
      exact ⟨fun h => h, fun h => h, fun h => h, fun h => h⟩
    · exact grows_of_step hstep
  exact ⟨fun id => (hgrows id).1, fun id => (hgrows id).2.1, fun id => (hgrows id).2.2.1,
    fun id => (hgrows id).2.2.2⟩

/-- Runs in which some operations are known to be registered. -/
def discipline (past : Uuid → Prop) : Discipline Operations where
  valid s := s.Valid ∧ ∀ id, past id → (trace id s.log).registered ≠ []
  grows := Grows
  rely _ := Grows
  fresh _ _ := True
  grows_refl := .refl
  grows_trans := .trans
  rely_refl _ := .refl
  rely_trans := .trans
  fresh_rely _ h := h

section Discipline

variable {past : Uuid → Prop} {i : Nat} {s : Operations}

theorem allows_of_keeps (s t : Operations) (h : (discipline past).valid s) (hkeeps : Keeps s t) :
    (discipline past).Allows i s t := by
  have hmoves : Moves s t := hkeeps h.1.listed
  refine ⟨⟨h.1.moves hmoves, fun id hid => ?_⟩, hmoves.grows, fun _ _ => hmoves.grows⟩
  exact hmoves.grows.registered id (h.2 id hid)

/-! ## Stages -/

/-- A finished cleanup has published. -/
theorem Valid.of_done {id : Uuid} (h : s.Valid) (hdone : s.cleanup id = .done) :
    (trace id s.log).ended ≠ [] ∧ s.control id = .finished := by
  have hlife := h.life id
  generalize hl : s.life id = l at hlife
  have hdone' : l.cleanup = .done := by rw [← hl]; exact hdone
  have hgoal : l.trace.ended ≠ [] ∧ l.control = .finished := by
    cases hlife with
    | cancelled => exact ⟨List.cons_ne_nil _ _, rfl⟩
    | cancelling _ _ _ _ _ _ _ _ _ _ _ _ _ hcleaning => cases hcleaning <;> cases hdone'
    | _ => cases hdone'
  rw [← hl] at hgoal
  exact hgoal

/-- An operation that is in neither map has ended, or never was. -/
theorem Valid.of_absent {id : Uuid} (h : s.Valid) (hactive : s.active id = none)
    (hcancelling : s.cancelling id = none) (hregistered : (trace id s.log).registered ≠ []) :
    (trace id s.log).ended ≠ [] := by
  have hlife := h.life id
  generalize hl : s.life id = l at hlife
  have hactive' : l.active = none := by rw [← hl]; exact hactive
  have hcancelling' : l.cancelling = none := by rw [← hl]; exact hcancelling
  have hregistered' : l.trace.registered ≠ [] := by rw [← hl]; exact hregistered
  have hgoal : l.trace.ended ≠ [] := by
    cases hlife with
    | fresh => exact absurd rfl hregistered'
    | running => cases hactive'
    | cancelling => cases hcancelling'
    | _ => exact List.cons_ne_nil _ _
  rw [← hl] at hgoal
  exact hgoal

/-! ## Answers -/

/-- The operations have ended, or their waiters were woken. -/
def Over (past : Uuid → Prop) (s : Operations) : Prop :=
  ∀ id, past id → s.control id = .finished ∨ (trace id s.log).ended ≠ []

/-- What an answer tells. -/
def Post (past : Uuid → Prop) : Call → Answer → Operations → Prop
  | .cancel id, .cancelled true, s => (trace id s.log).claimed = true ∧ (trace id s.log).ended ≠ []
  | .stop, _, s => Over past s
  | _, _, _ => True

theorem Post.grows {call : Call} {answer : Answer} {t : Operations} (h : Post past call answer s)
    (hgrows : Grows s t) : Post past call answer t := by
  cases call with
  | cancel id =>
      cases answer with
      | cancelled cancelled =>
          cases cancelled with
          | true => exact ⟨hgrows.claimed id h.1, hgrows.ended id h.2⟩
          | false => trivial
      | _ => trivial
  | stop => exact fun id hid => (h id hid).imp (hgrows.finished id) (hgrows.ended id)
  | _ => trivial

theorem keeps_claim (id : Uuid) : (claim id).Keeps (discipline past) i
    (fun claimed u => claimed = true → (trace id u.log).claimed = true) s := by
  refine Thread.keeps_modify fun t hvalid _ => ?_
  split
  next task hactive hcontrol =>
    refine ⟨allows_of_keeps t _ hvalid (moves_claimed hactive hcontrol).keeps, fun _ => ?_⟩
    change (trace id (t.log ++ [(id, .claimed)])).claimed = true
    rw [trace_self]
    rfl
  next => exact ⟨.refl hvalid, fun h => by cases h⟩

/-- The cleanup has published when it is done. -/
theorem keeps_cleaned {id : Uuid} (hclaimed : (trace id s.log).claimed = true) :
    (cleaned id).Keeps (discipline past) i (fun _ u =>
      (trace id u.log).claimed = true ∧ (trace id u.log).ended ≠ [] ∧
        u.control id = .finished) s := by
  refine Thread.keeps_atomic fun t hvalid hrely _ _ u h => ?_
  split at h
  next hdone =>
    cases h
    obtain ⟨hended, hfinished⟩ := hvalid.1.of_done hdone
    exact ⟨.refl hvalid, hrely.claimed id hclaimed, hended, hfinished⟩
  next => cases h

/-- A cancellation that takes the operation returns when the operation has ended. -/
theorem keeps_cancel (id : Uuid) : (cancel id).Keeps (discipline past) i (fun cancelled u =>
    cancelled = true →
      (trace id u.log).claimed = true ∧ (trace id u.log).ended ≠ [] ∧
        u.control id = .finished) s := by
  refine Thread.keeps_bind ((keeps_claim id).weaken fun claimed u hclaimed => ?_)
  cases claimed with
  | true =>
      refine Thread.keeps_bind ((keeps_cleaned (hclaimed rfl)).weaken fun _ v hv => ?_)
      exact Thread.keeps_pure fun _ => hv
  | false => exact Thread.keeps_pure fun h => by cases h

theorem keeps_wait (id : Uuid) :
    (wait id).Keeps (discipline past) i (fun _ u => u.control id = .finished) s := by
  refine Thread.keeps_atomic fun t hvalid _ _ _ u h => ?_
  split at h
  next hfinished =>
    cases h
    exact ⟨.refl hvalid, hfinished⟩
  next => cases h

/-- The operations that were drained before stay finished. -/
theorem keeps_drain (ids done : List Uuid) (hdone : ∀ id ∈ done, s.control id = .finished) :
    (drain ids).Keeps (discipline past) i
      (fun _ u => ∀ id, id ∈ done ∨ id ∈ ids → u.control id = .finished) s := by
  induction ids generalizing s done with
  | nil => exact Thread.keeps_pure fun id h => hdone id (h.resolve_right List.not_mem_nil)
  | cons id ids ih =>
      have hframe : ∀ t u : Operations, Grows t u → (∀ j ∈ done, t.control j = .finished) →
          ∀ j ∈ done, u.control j = .finished := fun t u h hd j hj => h.finished j (hd j hj)
      have hrest : ∀ u : Operations, (u.control id = .finished) →
          (∀ j ∈ done, u.control j = .finished) → (drain ids).Keeps (discipline past) i
            (fun _ u => ∀ j, j ∈ done ∨ j ∈ id :: ids → u.control j = .finished) u := by
        intro u hid hd
        have hmore : ∀ j ∈ id :: done, u.control j = .finished := by
          intro j hj
          rcases List.mem_cons.mp hj with rfl | hj
          · exact hid
          · exact hd j hj
        refine (ih (id :: done) hmore).weaken fun _ v hv j hj => hv j ?_
        simp only [List.mem_cons] at hj ⊢
        tauto
      refine Thread.keeps_bind (((keeps_cancel id).frame hframe hframe hdone).weaken ?_)
      rintro cancelled u ⟨hcancelled, hd⟩
      cases cancelled with
      | true => exact hrest u (hcancelled rfl).2.2 hd
      | false =>
          refine Thread.keeps_bind (((keeps_wait id).frame hframe hframe hd).weaken ?_)
          rintro _ v ⟨hfinished, hd⟩
          exact hrest v hfinished hd

/-- The operations that the traversal does not find have ended. -/
theorem keeps_snapshot : snapshot.Keeps (discipline past) i
    (fun ids u => ∀ id, past id → id ∈ ids ∨ (trace id u.log).ended ≠ []) s := by
  refine Thread.keeps_atomic fun t hvalid _ chance ids u h => ?_
  split at h
  next order =>
    split at h
    next hperm =>
      cases h
      refine ⟨.refl hvalid, fun id hid => ?_⟩
      rw [hperm.mem_iff, activeIds, List.mem_filter]
      have hlisted : id ∈ t.ids := (hvalid.1.listed id).mpr (hvalid.2 id hid)
      cases hactive : t.active id with
      | some task => exact .inl ⟨hlisted, rfl⟩
      | none =>
          cases hcancelling : t.cancelling id with
          | some result => exact .inl ⟨hlisted, rfl⟩
          | none => exact .inr (hvalid.1.of_absent hactive hcancelling (hvalid.2 id hid))
    next => cases h
  next => cases h

theorem keeps_stop : stop.Keeps (discipline past) i (fun _ u => Over past u) s := by
  refine Thread.keeps_bind (keeps_snapshot.weaken fun ids u hids => ?_)
  have hframe : ∀ t v : Operations, Grows t v →
      (∀ id, past id → id ∈ ids ∨ (trace id t.log).ended ≠ []) →
      ∀ id, past id → id ∈ ids ∨ (trace id v.log).ended ≠ [] :=
    fun t v h ht id hid => (ht id hid).imp_right (h.ended id)
  refine ((keeps_drain ids [] (by simp)).frame hframe hframe hids).weaken ?_
  rintro _ v ⟨hdrained, hv⟩ id hid
  exact (hv id hid).imp_left fun hmem => hdrained id (.inr hmem)

/-- Every call keeps the discipline and returns what its answer tells. -/
theorem program_keeps (i : Nat) (call : Call) (s : Operations) :
    (program i call).Keeps (discipline past) i (Post past call) s := by
  cases call with
  | cancel id =>
      refine Thread.keeps_bind ((keeps_cancel id).weaken fun cancelled u hu => ?_)
      cases cancelled with
      | true => exact Thread.keeps_pure ⟨(hu rfl).1, (hu rfl).2.1⟩
      | false => exact Thread.keeps_pure trivial
  | stop => exact Thread.keeps_bind (keeps_stop.weaken fun _ u hu => Thread.keeps_pure hu)
  | _ => exact ((each_program i _).keeps allows_of_keeps)

end Discipline

theorem service_keeps (now : Nat) (moves : List (Pool.Move Call Chance)) :
    (discipline fun _ => False).Keeps (fun _ => Post fun _ => False)
      ((service now).after program moves) := by
  refine (Discipline.run_keeps (fun i call s _ _ => program_keeps i call s) ?_ moves ?_).1
  · exact fun _ _ _ _ _ _ _ hrely h => h.grows hrely
  · exact Discipline.keeps_start ⟨valid_initial now, fun _ h => h.elim⟩ fun _ => trivial

/-- The operations that were registered before `stop` was called are over when it
returns. -/
theorem stop_returned (now : Nat) (moves moves' : List (Pool.Move Call Chance)) {i : Nat}
    (hnew : ((service now).after program moves).threads i = none)
    (hreturned : (((service now).after program moves).after program moves').Returned i .stop .done)
    {past : Uuid → Prop}
    (hpast : ∀ id, past id →
      (trace id ((service now).after program moves).shared.log).registered ≠ []) :
    Over past (((service now).after program moves).after program moves').shared := by
  have hkeeps := service_keeps now moves
  generalize (service now).after program moves = pool at hkeeps hnew hreturned hpast ⊢
  have hlater : (discipline past).Keeps
      (fun j call answer s => pool.threads j = none → Post past call answer s) pool := by
    refine hkeeps.refine ?_ ⟨hkeeps.valid.1, hpast⟩ (fun _ _ => trivial) ?_
    · exact ⟨fun _ h => ⟨h.1, fun _ h => h.elim⟩, fun _ _ _ h => h, fun _ s t h hallows =>
        ⟨⟨hallows.valid.1, fun id hid => hallows.grows.registered id (h.2 id hid)⟩, hallows.grows,
          hallows.others⟩⟩
    · exact fun j call answer s hj _ hnone => absurd hnone hj
  have hdone : (discipline past).Keeps
      (fun j call answer s => pool.threads j = none → Post past call answer s)
      (pool.after program moves') := by
    refine (Discipline.run_keeps (fun j call s _ _ => ?_) ?_ moves' hlater).1
    · exact (program_keeps j call s).weaken fun _ _ hpost _ => hpost
    · exact fun _ _ _ _ _ _ _ hrely h hj => (h hj).grows hrely
  exact hdone.threads i .stop _ hreturned hnew

/-! ## Results -/

theorem mem_results {log : List (Uuid × OperationEffect)} {entry : Nat × OperationResult} :
    entry ∈ results log ↔ ∃ id, entry ∈ (trace id log).ended := by
  induction log using List.reverseRecOn with
  | nil => simp [results, trace, Trace.empty]
  | append_singleton log last ih =>
      obtain ⟨j, effect⟩ := last
      have hothers : ∀ id, id ≠ j →
          (trace id (log ++ [(j, effect)])).ended = (trace id log).ended :=
        fun id hne => by rw [trace_of_ne hne]
      cases effect with
      | ended time event =>
          rw [results_ended, List.mem_append, ih, List.mem_singleton]
          constructor
          · rintro (⟨id, hid⟩ | rfl)
            · rcases eq_or_ne id j with rfl | hne
              · exact ⟨id, by simp [Trace.add, hid]⟩
              · exact ⟨id, by rw [hothers id hne]; exact hid⟩
            · exact ⟨j, by simp [Trace.add]⟩
          · rintro ⟨id, hid⟩
            rcases eq_or_ne id j with rfl | hne
            · rw [trace_self] at hid
              exact (List.mem_append.mp hid).imp (fun h => ⟨id, h⟩) List.mem_singleton.mp
            · rw [hothers id hne] at hid
              exact .inl ⟨id, hid⟩
      | _ =>
          rw [results_concat j log _ (by intro _ _ h; cases h), ih]
          refine exists_congr fun id => ?_
          rcases eq_or_ne id j with rfl | hne
          · rw [trace_self]
            rfl
          · rw [hothers id hne]

/-- The terminal event of an operation carries its identity. -/
theorem Valid.event_id {s : Operations} (h : s.Valid) {id : Uuid} {entry : Nat × OperationResult}
    (hentry : entry ∈ (trace id s.log).ended) : entry.2.id = id := by
  have hlife := h.life id
  generalize hl : s.life id = l at hlife
  have hentry' : entry ∈ l.trace.ended := by rw [← hl]; exact hentry
  cases hlife with
  | completed _ result =>
      cases List.mem_singleton.mp hentry'
      cases result <;> rfl
  | cancelled =>
      cases List.mem_singleton.mp hentry'
      rfl
  | _ => cases hentry'

/-- There is one terminal event at most. -/
theorem Valid.ended_once {s : Operations} (h : s.Valid) (id : Uuid) :
    (trace id s.log).ended.length ≤ 1 := by
  have hlife := h.life id
  change (s.life id).trace.ended.length ≤ 1
  generalize s.life id = l at hlife ⊢
  cases hlife <;> simp [Trace.empty]

/-- An operation that has not ended is shown as started. -/
theorem Valid.status_started {s : Operations} (h : s.Valid) {id : Uuid} {first : OperationResult}
    (hfirst : first ∈ (trace id s.log).registered) (hended : (trace id s.log).ended = []) :
    (s.status id).1 = some first ∧ first.status = "started" := by
  have hlife := h.life id
  generalize hl : s.life id = l at hlife
  have hfirst' : first ∈ l.trace.registered := by rw [← hl]; exact hfirst
  have hended' : l.trace.ended = [] := by rw [← hl]; exact hended
  cases hlife with
  | fresh => cases hfirst'
  | running initial files state began closure started worked hid hstatus =>
      cases List.mem_singleton.mp hfirst'
      have hactive : s.active id = some ⟨first, first.action, files⟩ := congrArg Life.active hl
      exact ⟨by simp [status, prune, hactive], hstatus⟩
  | cancelling initial files state control closure started aborted removed cleanup worked hid
      hstatus =>
      cases List.mem_singleton.mp hfirst'
      have hactive : s.active id = none := congrArg Life.active hl
      have hcancelling : s.cancelling id = some first := congrArg Life.cancelling hl
      exact ⟨by simp [status, prune, hactive, hcancelling], hstatus⟩
  | completed => cases hended'
  | cancelled => cases hended'

/-- What the queue holds for an operation. -/
def found (id : Uuid) (s : Operations) : Option OperationResult :=
  ((Retention.kept MAX_TERMINAL TERMINAL_AGE s.now (results s.log)).find?
    fun entry => entry.2.id = id).map (·.2)

theorem Valid.status_found {s : Operations} (h : s.Valid) {id : Uuid}
    (hended : (trace id s.log).ended ≠ []) : (s.status id).1 = found id s := by
  have hlife := h.life id
  generalize hl : s.life id = l at hlife
  have hended' : l.trace.ended ≠ [] := by rw [← hl]; exact hended
  have hmaps : l.active = none ∧ l.cancelling = none := by
    cases hlife with
    | completed => exact ⟨rfl, rfl⟩
    | cancelled => exact ⟨rfl, rfl⟩
    | _ => exact absurd rfl hended'
  rw [← hl] at hmaps
  obtain ⟨hactive, hcancelling⟩ : s.active id = none ∧ s.cancelling id = none := hmaps
  simp only [status, prune, hactive, hcancelling, Option.map_none, Option.orElse_none, found]
  rw [h.shown.kept]

/-- An operation that has ended is shown by its terminal event while the queue holds it. -/
theorem Valid.status_ended {s : Operations} (h : s.Valid) {id : Uuid}
    {entry : Nat × OperationResult} (hentry : entry ∈ (trace id s.log).ended) :
    (entry ∈ Retention.kept MAX_TERMINAL TERMINAL_AGE s.now (results s.log) →
      (s.status id).1 = some entry.2) ∧
    (entry ∉ Retention.kept MAX_TERMINAL TERMINAL_AGE s.now (results s.log) →
      (s.status id).1 = none) := by
  have hone : ∀ other ∈ (trace id s.log).ended, other = entry := by
    intro other hother
    obtain ⟨a, ha⟩ := List.length_eq_one_iff.mp
      (Nat.le_antisymm (h.ended_once id) (List.length_pos_of_mem hentry))
    rw [ha, List.mem_singleton] at hother hentry
    rw [hother, hentry]
  -- Any entry of the queue with this identity is the one terminal event of the operation.
  have honly : ∀ other ∈ Retention.kept MAX_TERMINAL TERMINAL_AGE s.now (results s.log),
      other.2.id = id → other = entry := by
    intro other hother hid
    obtain ⟨j, hj⟩ := mem_results.mp (Retention.kept_subset hother)
    have hjd : other.2.id = j := h.event_id hj
    subst hid
    subst hjd
    exact hone other hj
  rw [h.status_found (List.ne_nil_of_mem hentry), found]
  constructor
  · intro hkept
    cases hfind : (Retention.kept MAX_TERMINAL TERMINAL_AGE s.now (results s.log)).find?
        fun entry => entry.2.id = id with
    | none =>
        have hnot := List.find?_eq_none.mp hfind entry hkept
        exact absurd (h.event_id hentry) (by simpa using hnot)
    | some other =>
        have hid : other.2.id = id := by simpa using List.find?_some hfind
        rw [honly other (List.mem_of_find?_eq_some hfind) hid]
        rfl
  · intro hgone
    cases hfind : (Retention.kept MAX_TERMINAL TERMINAL_AGE s.now (results s.log)).find?
        fun entry => entry.2.id = id with
    | none => rfl
    | some other =>
        have hid : other.2.id = id := by simpa using List.find?_some hfind
        have hother := List.mem_of_find?_eq_some hfind
        rw [honly other hother hid] at hother
        exact absurd hother hgone

/-! ## What a reader of the status can rely on -/

/-- The statuses of terminal events. -/
def terminalStatuses : List String := ["completed", "cancelled", "failed"]

theorem report_status (id : Uuid) (action : String) (result : BackendResult OperationCompletion) :
    (report id action result).status ∈ terminalStatuses := by
  cases result with
  | ok completion =>
      obtain ⟨status, message, warning⟩ := completion
      cases status with
      | completed => exact List.mem_cons_self
      | cancelled => exact .tail _ List.mem_cons_self
  | error error => exact .tail _ (.tail _ List.mem_cons_self)

theorem Valid.event_status {s : Operations} (h : s.Valid) {id : Uuid}
    {entry : Nat × OperationResult}
    (hentry : entry ∈ (trace id s.log).ended) : entry.2.status ∈ terminalStatuses := by
  have hlife := h.life id
  change entry ∈ (s.life id).trace.ended at hentry
  generalize s.life id = l at hlife hentry
  cases hlife with
  | completed _ result =>
      cases List.mem_singleton.mp hentry
      exact report_status id _ result
  | cancelled =>
      cases List.mem_singleton.mp hentry
      exact .tail _ List.mem_cons_self
  | _ => cases hentry

/-- A terminal event is none of an operation that goes on. -/
theorem Valid.event_ended {s : Operations} (h : s.Valid) {id : Uuid} {entry : Nat × OperationResult}
    (hentry : entry ∈ (trace id s.log).ended) : entry.2.status ≠ "started" := by
  intro heq
  have hstatus := h.event_status hentry
  rw [heq] at hstatus
  exact absurd hstatus (by decide)

/-- The backend does not show the operation any more. -/
def Absent (id : Uuid) (s : Operations) : Prop := (s.status id).1 = none ∧ id ∈ s.ids

/-- What the status of a registered operation can be. -/
inductive Reading (id : Uuid) (s : Operations) : Option OperationResult → Prop
  | started (first : OperationResult) (hid : first.id = id) (hstatus : first.status = "started")
      (hended : (trace id s.log).ended = []) : Reading id s (some first)
  | ended (entry : Nat × OperationResult) (hentry : entry ∈ (trace id s.log).ended)
      (htime : entry.1 ≤ s.now) : Reading id s (some entry.2)
  | absent (hended : (trace id s.log).ended ≠ []) (hinactive : id ∉ s.activeIds) : Reading id s none

theorem Valid.registered_id {s : Operations} (h : s.Valid) {id : Uuid} {first : OperationResult}
    (hfirst : first ∈ (trace id s.log).registered) : first.id = id := by
  have hlife := h.life id
  change first ∈ (s.life id).trace.registered at hfirst
  generalize s.life id = l at hlife hfirst
  cases hlife with
  | fresh => cases hfirst
  | running _ _ _ _ _ _ _ hid =>
      rw [List.mem_singleton.mp hfirst]
      exact hid
  | cancelling _ _ _ _ _ _ _ _ _ _ hid =>
      rw [List.mem_singleton.mp hfirst]
      exact hid
  | completed _ _ _ _ _ _ _ hid =>
      rw [List.mem_singleton.mp hfirst]
      exact hid
  | cancelled _ _ _ _ _ hid =>
      rw [List.mem_singleton.mp hfirst]
      exact hid

theorem Valid.reading {s : Operations} (h : s.Valid) {id : Uuid} (hid : id ∈ s.ids) :
    Reading id s (s.status id).1 := by
  have hregistered : (trace id s.log).registered ≠ [] := (h.listed id).mp hid
  obtain ⟨first, hfirst⟩ := List.exists_mem_of_ne_nil _ hregistered
  cases hended : (trace id s.log).ended with
  | nil =>
      obtain ⟨hstatus, hstarted⟩ := h.status_started hfirst hended
      rw [hstatus]
      exact .started first (h.registered_id hfirst) hstarted hended
  | cons entry rest =>
      have hentry : entry ∈ (trace id s.log).ended := by rw [hended]; exact List.mem_cons_self
      obtain ⟨hkept, hgone⟩ := h.status_ended hentry
      rcases Classical.em
          (entry ∈ Retention.kept MAX_TERMINAL TERMINAL_AGE s.now (results s.log)) with
        hmem | hmem
      · rw [hkept hmem]
        rw [← h.shown.kept] at hmem
        exact .ended entry hentry (h.shown.timed.2 entry (Retention.prune_suffix.subset hmem))
      · rw [hgone hmem]
        refine .absent (List.ne_nil_of_mem hentry) fun hactive => ?_
        have hmaps := (List.mem_filter.mp hactive).2
        rw [Bool.or_eq_true, Option.isSome_iff_exists, Option.isSome_iff_exists] at hmaps
        have hnone := hgone hmem
        rcases hmaps with ⟨task, htask⟩ | ⟨result, hresult⟩
        · simp [status, prune, htask] at hnone
        · cases hactive : s.active id with
          | some task => simp [status, prune, hactive] at hnone
          | none => simp [status, prune, hactive, hresult] at hnone

/-- An operation that has ended does not end again. -/
theorem Valid.ended_stable {s t : Operations} (h : s.Valid) (hmoves : Moves s t) {id : Uuid}
    (hended : (trace id s.log).ended ≠ []) : (trace id t.log).ended = (trace id s.log).ended := by
  rcases hmoves.life id with heq | hstep
  · exact congrArg (fun l => l.trace.ended) heq
  · have hlife := h.life id
    change (s.life id).trace.ended ≠ [] at hended
    change (t.life id).trace.ended = (s.life id).trace.ended
    generalize s.life id = l at hlife hended hstep
    generalize t.life id = l' at hstep
    cases hstep with
    | complete action result task htask hactive => exact absurd (hlife.of_active hactive) hended
    | publish action hcleanup => exact absurd (hlife.of_dropped hcleanup) hended
    | _ => rfl

/-- What the backend does not show any more it never shows again. -/
theorem Valid.absent_stable {s t : Operations} (h : s.Valid) (hmoves : Moves s t) {id : Uuid}
    (habsent : Absent id s) : Absent id t := by
  have hregistered : (trace id s.log).registered ≠ [] := (h.listed id).mp habsent.2
  have hid : id ∈ t.ids :=
    ((h.moves hmoves).listed id).mpr ((hmoves.grows).registered id hregistered)
  refine ⟨?_, hid⟩
  have hended : (trace id s.log).ended ≠ [] := by
    have hreading := h.reading habsent.2
    rw [habsent.1] at hreading
    cases hreading with
    | absent hended => exact hended
  have hended' : (trace id t.log).ended ≠ [] := by
    rw [h.ended_stable hmoves hended]
    exact hended
  have hnone := habsent.1
  rw [h.status_found hended, found, ← h.shown.kept, Option.map_eq_none_iff, List.find?_eq_none]
    at hnone
  rw [(h.moves hmoves).status_found hended', found, ← (h.moves hmoves).shown.kept,
    Option.map_eq_none_iff, List.find?_eq_none]
  intro entry hentry
  rcases hmoves.queue h.life entry hentry with hold | hnew
  · exact hnone entry hold
  · simp only [decide_eq_true_eq]
    intro heq
    rw [heq] at hnew
    exact hended hnew

/-- An operation is not shown once its terminal event is too old. -/
theorem Valid.absent_of_old {s : Operations} (h : s.Valid) {id : Uuid}
    {entry : Nat × OperationResult}
    (hentry : entry ∈ (trace id s.log).ended) (hid : id ∈ s.ids)
    (hold : TERMINAL_AGE ≤ s.now - entry.1) : Absent id s := by
  refine ⟨(h.status_ended hentry).2 fun hkept => ?_, hid⟩
  rw [← h.shown.kept] at hkept
  exact absurd (h.shown.timed.young hkept) (Nat.not_lt.mpr hold)

/-! ## Every operation ends once -/

/-- The terminal event of work that has returned: its real outcome. -/
def Reports (id : Uuid) (action : String) :
    BackendResult OperationCompletion → OperationResult → Prop
  | .ok ⟨.completed, message, warning⟩, event =>
      event = ⟨id, action, "completed", message, none, warning⟩
  | .ok ⟨.cancelled, message, warning⟩, event =>
      event = ⟨id, action, "cancelled", message, none, warning⟩
  | .error error, event => event = ⟨id, action, "failed", error.message, none, none⟩

theorem reports_report (id : Uuid) (action : String) (result : BackendResult OperationCompletion) :
    Reports id action result (report id action result) := by
  cases result with
  | ok completion =>
      obtain ⟨status, message, warning⟩ := completion
      cases status <;> rfl
  | error error => rfl

/-- A committed operation reports what its work returned, and was not cancelled. -/
theorem Valid.of_began {s : Operations} (h : s.Valid) {id : Uuid}
    (hbegan : (trace id s.log).began = true) :
    (trace id s.log).claimed = false ∧ ∀ entry ∈ (trace id s.log).ended,
      ∃ first result, (trace id s.log).registered = [first] ∧ (trace id s.log).worked = [result] ∧
        Reports id first.action result entry.2 := by
  have hlife := h.life id
  change (s.life id).trace.began = true at hbegan
  change (s.life id).trace.claimed = false ∧ ∀ entry ∈ (s.life id).trace.ended,
    ∃ first result, (s.life id).trace.registered = [first] ∧ (s.life id).trace.worked = [result] ∧
      Reports id first.action result entry.2
  generalize s.life id = l at hlife hbegan ⊢
  cases hlife with
  | running => exact ⟨rfl, fun entry hentry => by cases hentry⟩
  | completed initial result =>
      refine ⟨rfl, fun entry hentry => ⟨initial, result, rfl, rfl, ?_⟩⟩
      cases List.mem_singleton.mp hentry
      exact reports_report id initial.action result
  | _ => cases hbegan

/-- A cancelled operation has not committed, and reports its cancellation. -/
theorem Valid.of_claimed {s : Operations} (h : s.Valid) {id : Uuid}
    (hclaimed : (trace id s.log).claimed = true) :
    (trace id s.log).began = false ∧ ∀ entry ∈ (trace id s.log).ended,
      ∃ first, (trace id s.log).registered = [first] ∧
        entry.2 = ⟨id, first.action, "cancelled", "Image operation cancelled", none, none⟩ := by
  have hlife := h.life id
  change (s.life id).trace.claimed = true at hclaimed
  change (s.life id).trace.began = false ∧ ∀ entry ∈ (s.life id).trace.ended,
    ∃ first, (s.life id).trace.registered = [first] ∧
      entry.2 = ⟨id, first.action, "cancelled", "Image operation cancelled", none, none⟩
  generalize s.life id = l at hlife hclaimed ⊢
  cases hlife with
  | cancelling => exact ⟨rfl, fun entry hentry => by cases hentry⟩
  | cancelled initial =>
      refine ⟨rfl, fun entry hentry => ⟨initial, rfl, ?_⟩⟩
      cases List.mem_singleton.mp hentry
      rfl
  | _ => cases hclaimed

/-- The files of an operation go when its task has stopped. -/
theorem Valid.of_removed {s : Operations} (h : s.Valid) {id : Uuid}
    (hremoved : (trace id s.log).removed = true) : (s.task id).Stopped := by
  have hlife := h.life id
  change (s.life id).trace.removed = true at hremoved
  change (s.life id).task.Stopped
  generalize s.life id = l at hlife hremoved ⊢
  cases hlife with
  | cancelling _ _ _ _ _ _ _ _ _ _ _ _ _ hcleaning =>
      cases hcleaning with
      | dropped => trivial
      | _ => cases hremoved
  | completed _ _ _ _ _ _ _ _ hstate =>
      rcases hstate with rfl | ⟨rfl | rfl, -⟩ <;> trivial
  | cancelled => trivial
  | _ => cases hremoved

/-! ### Commits after a stop -/

/-- The work may still win the phase. -/
def MayCommit (id : Uuid) (s : Operations) : Prop :=
  (∃ action, s.task id = .working action) ∧ s.control id = .editing

/-- A commit begins where the work may win the phase. -/
theorem Moves.began {s t : Operations} (h : Moves s t) {id : Uuid} (hnot : ¬MayCommit id s)
    (hbegan : (trace id t.log).began = true) : (trace id s.log).began = true := by
  rcases h.life id with heq | hstep
  · exact (congrArg (fun l => l.trace.began) heq).symm.trans hbegan
  · change (t.life id).trace.began = true at hbegan
    change (s.life id).trace.began = true
    change ¬((∃ action, (s.life id).task = .working action) ∧ (s.life id).control = .editing)
      at hnot
    generalize s.life id = l at hnot hstep ⊢
    generalize t.life id = l' at hstep hbegan
    cases hstep with
    | commit action htask hcontrol => exact absurd ⟨⟨action, htask⟩, hcontrol⟩ hnot
    | _ => exact hbegan

/-- The operation has ended, or its waiters were woken. -/
def Woken (id : Uuid) (s : Operations) : Prop :=
  s.control id = .finished ∨ (trace id s.log).ended ≠ []

theorem Valid.not_mayCommit {s : Operations} (h : s.Valid) {id : Uuid} (hover : Woken id s) :
    ¬MayCommit id s := by
  rintro ⟨⟨action, htask⟩, hcontrol⟩
  have hended : (trace id s.log).ended ≠ [] := by
    rcases hover with hfinished | hended
    · rw [hcontrol] at hfinished
      cases hfinished
    · exact hended
  have hlife := h.life id
  change (s.life id).trace.ended ≠ [] at hended
  change (s.life id).task = .working action at htask
  generalize s.life id = l at hlife hended htask
  cases hlife with
  | completed _ _ _ _ _ _ _ _ hstate => rcases hstate with rfl | ⟨rfl | rfl, -⟩ <;> cases htask
  | cancelled => cases htask
  | _ => exact absurd rfl hended

/-! ### What goes wrong -/

/-- Work that has returned still has its record. -/
def Found (id : Uuid) (s : Operations) : Prop :=
  ∀ action result, s.task id = .ended action result → (s.active id).isSome

/-- Work that waits for a closure on the blocking pool is not aborted. -/
def Awaited (id : Uuid) (s : Operations) : Prop :=
  ∀ action, s.task id = .blocking action → s.aborted id = false

/-- Nobody has woken the waiters before the terminal event. -/
structure Silent (id : Uuid) (s : Operations) : Prop where
  waits : s.control id = .finished → (trace id s.log).ended ≠ []
  task : s.task id ≠ .finishing none

/-- No closure has outlived its task. -/
def Sheltered (id : Uuid) (s : Operations) : Prop :=
  s.closure id = true → ∃ action, s.task id = .blocking action

theorem Silent.moves {s t : Operations} (h : s.Valid) (hmoves : Moves s t) {id : Uuid}
    (hfound : Found id s) (hsilent : Silent id s) : Silent id t := by
  have hvalid := h.life id
  have hkept : (s.life id).control = .finished → (s.life id).trace.ended ≠ [] := hsilent.waits
  have htask : (s.life id).task ≠ .finishing none := hsilent.task
  have hrecord : ∀ action result, (s.life id).task = .ended action result →
      (s.life id).active.isSome := hfound
  have hgoal : ((t.life id).control = .finished → (t.life id).trace.ended ≠ []) ∧
      (t.life id).task ≠ .finishing none := by
    rcases hmoves.life id with heq | hstep
    · rw [heq]
      exact ⟨hkept, htask⟩
    · generalize s.life id = l at hvalid hkept htask hrecord hstep
      generalize t.life id = l' at hstep
      cases hstep with
      | start | strike | join | outlive => exact ⟨hkept, htask⟩
      | register | begin | block | unblock | finish | settle | abort => exact ⟨hkept, by simp⟩
      | commit | claim => exact ⟨by simp, htask⟩
      | complete => exact ⟨fun _ => by simp [Trace.add], by simp⟩
      | miss action result hended hactive =>
          have hsome := hrecord action result hended
          rw [hactive] at hsome
          cases hsome
      | release event hfinishing =>
          refine ⟨fun _ => ?_, by split <;> simp⟩
          cases hvalid with
          | completed => exact List.cons_ne_nil _ _
          | running _ _ _ _ _ _ _ _ _ hbusy => cases hbusy <;> cases hfinishing
          | cancelling _ _ _ _ _ _ _ _ _ _ _ _ hwinding =>
              cases hwinding with
              | busy _ _ _ hbusy => cases hbusy <;> cases hfinishing
              | missed => exact absurd rfl htask
              | _ => cases hfinishing
          | _ => cases hfinishing
      | publish => exact ⟨fun _ => by simp [Trace.add], htask⟩
  exact ⟨hgoal.1, hgoal.2⟩

theorem Sheltered.moves {s t : Operations} (h : s.Valid) (hmoves : Moves s t) {id : Uuid}
    (hawaited : Awaited id s) (hsheltered : Sheltered id s) : Sheltered id t := by
  have hvalid := h.life id
  have hkept : (s.life id).closure = true → ∃ action, (s.life id).task = .blocking action :=
    hsheltered
  have hcalm : ∀ action, (s.life id).task = .blocking action → (s.life id).aborted = false :=
    hawaited
  change (t.life id).closure = true → ∃ action, (t.life id).task = .blocking action
  rcases hmoves.life id with heq | hstep
  · rw [heq]
    exact hkept
  · generalize s.life id = l at hvalid hkept hcalm hstep
    generalize t.life id = l' at hstep
    -- A task that moves on otherwise than by its closure has none.
    have hnone : ∀ state, l.task = state → (∀ action, state ≠ .blocking action) →
        l.closure = true → False := by
      intro state hstate hne hclosure
      obtain ⟨action, haction⟩ := hkept hclosure
      exact hne action (hstate.symm.trans haction)
    cases hstep with
    | register initial files hfresh =>
        cases hvalid with
        | fresh => exact fun hclosure => by cases hclosure
        | _ => cases hfresh
    | block action => exact fun _ => ⟨action, rfl⟩
    | unblock | outlive => exact fun hclosure => by cases hclosure
    | begin action htask => exact fun hclosure => (hnone _ htask (by simp) hclosure).elim
    | finish action result htask => exact fun hclosure => (hnone _ htask (by simp) hclosure).elim
    | complete action result task htask =>
        exact fun hclosure => (hnone _ htask (by simp) hclosure).elim
    | miss action result htask => exact fun hclosure => (hnone _ htask (by simp) hclosure).elim
    | release event htask => exact fun hclosure => (hnone _ htask (by simp) hclosure).elim
    | settle htask => exact fun hclosure => (hnone _ htask (by simp) hclosure).elim
    | abort haborted =>
        intro hclosure
        obtain ⟨action, htask⟩ := hkept hclosure
        rw [hcalm action htask] at haborted
        cases haborted
    | _ => exact hkept

section Runs

variable (now : Nat) (moves : List (Pool.Move Call Chance))

theorem service_moves (move : Pool.Move Call Chance) :
    Moves ((service now).after program moves).shared
      (((service now).after program moves).step program move).shared := by
  have hvalid := (service_keeps now moves).valid.1
  have heach : ((service now).after program moves).Each fun _ _ => Keeps :=
    Pool.each_after each_program (Pool.each_start _) moves
  rcases (Pool.each_step each_program heach move).2 with heq | ⟨_, _, _, _, -, -, hkeeps⟩
  · rw [heq]
    exact moves_refl _
  · exact hkeeps hvalid.listed

variable {now moves}

/-- Where work that has returned finds its record, the waiters are not woken too early. -/
theorem silent_along {id : Uuid} (h : (service now).Along program (Found id) moves) :
    Silent id ((service now).after program moves).shared := by
  refine h.invariant (Silent id) ⟨?_, ?_⟩ fun before move hfound hsilent =>
    hsilent.moves (service_keeps now before).valid.1 (service_moves now before move) hfound
  · exact fun hfinished => by cases hfinished
  · exact fun htask => by cases htask

/-- Where no closure is left alone by an abortion, none outlives its task. -/
theorem sheltered_along {id : Uuid} (h : (service now).Along program (Awaited id) moves) :
    Sheltered id ((service now).after program moves).shared :=
  h.invariant (Sheltered id) (fun hclosure => by cases hclosure)
    fun before move hawaited hsheltered =>
    hsheltered.moves (service_keeps now before).valid.1 (service_moves now before move) hawaited

/-- An operation that is over begins no commit in any run that goes on. -/
theorem began_after {id : Uuid} (hover : Woken id ((service now).after program moves).shared)
    (moves' : List (Pool.Move Call Chance))
    (hbegan : (trace id
      (((service now).after program moves).after program moves').shared.log).began = true) :
    (trace id ((service now).after program moves).shared.log).began = true := by
  have hlater : ∀ moves', let t := (((service now).after program moves).after program moves').shared
      Woken id t ∧ ((trace id t.log).began = true →
        (trace id ((service now).after program moves).shared.log).began = true) := by
    intro moves'
    induction moves' using List.reverseRecOn with
    | nil => exact ⟨hover, fun h => h⟩
    | append_singleton moves' move ih =>
        rw [← Pool.after_append] at ih
        have hvalid := (service_keeps now (moves ++ moves')).valid.1
        have hmove := service_moves now (moves ++ moves') move
        rw [Pool.after_snoc, ← Pool.after_append]
        exact ⟨ih.1.imp (hmove.grows.finished id) (hmove.grows.ended id),
          fun h => ih.2 (hmove.began (hvalid.not_mayCommit ih.1) h)⟩
  exact (hlater moves').2 hbegan

end Runs

/-- Every operation ends once.

The parts: one terminal event at most; what a cancellation that returned true means; what a
commit that began means; what the status shows; when the staged files go; and what a stop that
has returned guarantees.  No closure runs when the files are gone, provided that no abortion
strikes while the work waits for one; and each operation has its terminal event after a stop,
provided that its work never finds its record gone. -/
theorem operation_ends_once (now : Nat) (moves : List (Pool.Move Call Chance)) :
    let pool := (service now).after program moves
    let s := pool.shared
    (∀ id, (trace id s.log).ended.length ≤ 1) ∧
    (∀ i id, pool.Returned i (.cancel id) (.cancelled true) →
      (trace id s.log).began = false ∧
      ∃ time first, (trace id s.log).registered = [first] ∧ (trace id s.log).ended =
        [(time, ⟨id, first.action, "cancelled", "Image operation cancelled", none, none⟩)]) ∧
    (∀ id, (trace id s.log).began = true →
      (∀ i, ¬pool.Returned i (.cancel id) (.cancelled true)) ∧
      ∀ entry ∈ (trace id s.log).ended, ∃ first result, (trace id s.log).registered = [first] ∧
        (trace id s.log).worked = [result] ∧ Reports id first.action result entry.2) ∧
    (∀ id first, first ∈ (trace id s.log).registered →
      ((trace id s.log).ended = [] → (s.status id).1 = some first ∧ first.status = "started") ∧
      ∀ entry ∈ (trace id s.log).ended,
        (entry ∈ Retention.kept 256 300000 s.now (results s.log) →
          (s.status id).1 = some entry.2) ∧
        (entry ∉ Retention.kept 256 300000 s.now (results s.log) → (s.status id).1 = none)) ∧
    (∀ id, (trace id s.log).removed = true → (s.task id).Stopped ∧
      ((service now).Along program (Awaited id) moves → s.closure id = false)) ∧
    ∀ i moves', pool.threads i = none → (pool.after program moves').Returned i .stop .done →
      let t := (pool.after program moves').shared
      ∀ id, (trace id s.log).registered ≠ [] →
        (∀ later, (trace id ((pool.after program moves').after program later).shared.log).began =
          true → (trace id t.log).began = true) ∧
        ((service now).Along program (Found id) (moves ++ moves') →
          (trace id t.log).ended.length = 1) := by
  intro pool s
  have hkeeps := service_keeps now moves
  have hvalid : s.Valid := hkeeps.valid.1
  have hcancelled : ∀ i id, pool.Returned i (.cancel id) (.cancelled true) →
      (trace id s.log).claimed = true ∧ (trace id s.log).ended ≠ [] :=
    fun i id h => hkeeps.threads i _ _ h
  refine ⟨hvalid.ended_once, fun i id h => ?_, fun id hbegan => ⟨fun i h => ?_, ?_⟩,
    fun id first hfirst => ⟨hvalid.status_started hfirst, fun entry => hvalid.status_ended⟩,
    fun id hremoved => ⟨hvalid.of_removed hremoved, fun hawaited => ?_⟩, ?_⟩
  · obtain ⟨hclaimed, hended⟩ := hcancelled i id h
    obtain ⟨hbegan, hevent⟩ := hvalid.of_claimed hclaimed
    obtain ⟨entry, hentry⟩ := List.length_eq_one_iff.mp
      (Nat.le_antisymm (hvalid.ended_once id) (List.length_pos_iff.mpr hended))
    obtain ⟨first, hfirst, hcancel⟩ :=
      hevent entry (by rw [hentry]; exact List.mem_singleton_self _)
    exact ⟨hbegan, entry.1, first, hfirst, by rw [hentry, ← hcancel]⟩
  · have hclaimed := (hcancelled i id h).1
    rw [(hvalid.of_began hbegan).1] at hclaimed
    cases hclaimed
  · exact (hvalid.of_began hbegan).2
  · have hstopped := hvalid.of_removed hremoved
    refine Bool.eq_false_iff.mpr fun hclosure => ?_
    obtain ⟨action, htask⟩ := sheltered_along hawaited hclosure
    rw [htask] at hstopped
    exact hstopped
  · intro i moves' hnew hreturned t id hid
    have hpast : ∀ j, j = id → (trace j s.log).registered ≠ [] := fun j hj => by subst hj; exact hid
    have hover : Woken id t := stop_returned now moves moves' hnew hreturned hpast id rfl
    have hrun : pool.after program moves' = (service now).after program (moves ++ moves') :=
      (Pool.after_append moves moves').symm
    have hvalid' : t.Valid := by
      have hlater := (service_keeps now (moves ++ moves')).valid.1
      rw [← hrun] at hlater
      exact hlater
    refine ⟨fun later hbegan => ?_, fun hfound => ?_⟩
    · have hbefore := @began_after now (moves ++ moves') id
      rw [← hrun] at hbefore
      exact hbefore hover later hbegan
    · have hsilent := silent_along hfound
      rw [← hrun] at hsilent
      have hended : (trace id t.log).ended ≠ [] := hover.elim hsilent.waits fun h => h
      exact Nat.le_antisymm (hvalid'.ended_once id) (List.length_pos_iff.mpr hended)

/-- An annotation is launched, its editor fails, a cancellation takes it before the failure is
reported, and the daemon stops. -/
def failedEditor : List (Pool.Move Call Chance) :=
  [.call 0 (.launch "annotate" "Image editor started" []), .step 0 (.uuid 7), .step 0 .none,
    .step 0 .none,
    .call 1 .poll, .step 1 (.task 7 .begin),
    .call 2 .poll,
    .step 2 (.task 7 (.finish (.error (operationError "Image editor exited unsuccessfully")))),
    .call 3 (.cancel 7), .step 3 .none]

/-- The waiters are woken by the work that finds its record gone. -/
def stopped : List (Pool.Move Call Chance) :=
  [.call 4 .stop, .step 4 (.order [7]), .step 4 .none,
    .call 5 .poll, .step 5 (.task 7 .next),
    .call 6 .poll, .step 6 (.task 7 .next), .step 4 .none]

/-- A screenshot is cancelled while a closure reads its staged file. -/
def cancelledReader : List (Pool.Move Call Chance) :=
  [.call 0 (.launch "screenshot" "Screenshot started" ["in.png", "out.png"]), .step 0 (.uuid 7),
    .step 0 .none, .step 0 .none,
    .call 1 .poll, .step 1 (.task 7 .begin),
    .call 2 .poll, .step 2 (.task 7 .block),
    .call 3 (.cancel 7), .step 3 .none,
    .call 4 .poll, .step 4 (.cleanup 7),
    .call 5 .poll, .step 5 (.task 7 .abort),
    .call 6 .poll, .step 6 (.cleanup 7)]

/-- A stop can return before an operation that was registered has its terminal event, and staged
files can go while a closure of the work still reads them. -/
theorem cancelled_too_late :
    (¬∀ now moves i moves', let pool := (service now).after program moves
      pool.threads i = none → (pool.after program moves').Returned i .stop .done →
        ∀ id, (trace id pool.shared.log).registered ≠ [] →
          (trace id (pool.after program moves').shared.log).ended.length = 1) ∧
    ¬∀ now moves id, let s := ((service now).after program moves).shared
      (trace id s.log).removed = true → (s.task id).Stopped ∧ s.closure id = false := by
  constructor
  · intro h
    have hended := h 0 failedEditor 4 stopped rfl rfl 7 (by intro h; cases h)
    cases hended
  · intro h
    have hclosure := (h 0 cancelledReader 7 rfl).2
    cases hclosure

end ClipDaemon.Operations
