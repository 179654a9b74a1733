import ClipDaemon.Store.Queue

/-!
# The queue loses and leaks nothing

What every statement of the callers, of the worker and of a shutdown keeps.  The log says
which jobs were accepted and which ran; the invariant says that the difference is what the
worker and the queue hold, and that the bytes accounted for are those of the reservations
that are alive.
-/

namespace ClipDaemon

/-! ## The worker -/

/-- The job that is about to run. -/
def WorkerState.entered : WorkerState → List QueuedJob
  | .running job => [job]
  | _ => []

/-- The job whose reservation the worker holds. -/
def WorkerState.holds : WorkerState → List QueuedJob
  | .running job | .releasing job _ => [job]
  | _ => []

namespace Inner

open ThreadLog

/-! ## The log -/

/-- The jobs that were accepted, oldest first. -/
def accepted (log : List (Nat × QueueEffect)) : List QueuedJob :=
  log.filterMap fun entry =>
    match entry.2 with
    | .sent job true => some job
    | _ => none

/-- The jobs that have run, oldest first. -/
def ran (log : List (Nat × QueueEffect)) : List QueuedJob :=
  log.filterMap fun entry =>
    match entry.2 with
    | .ran job _ => some job
    | _ => none

@[simp] theorem accepted_append (log log' : List (Nat × QueueEffect)) :
    accepted (log ++ log') = accepted log ++ accepted log' := List.filterMap_append

@[simp] theorem ran_append (log log' : List (Nat × QueueEffect)) :
    ran (log ++ log') = ran log ++ ran log' := List.filterMap_append

theorem mem_accepted {log : List (Nat × QueueEffect)} {job : QueuedJob} :
    job ∈ accepted log ↔ ∃ i, (i, .sent job true) ∈ log := by
  constructor
  · intro h
    obtain ⟨⟨i, effect⟩, hmem, heq⟩ := List.mem_filterMap.mp h
    cases effect with
    | sent job' accepted =>
        cases accepted with
        | true =>
            cases heq
            exact ⟨i, hmem⟩
        | false => cases heq
    | _ => cases heq
  · rintro ⟨i, hmem⟩
    exact List.mem_filterMap.mpr ⟨_, hmem, rfl⟩

theorem mem_ran {log : List (Nat × QueueEffect)} {job : QueuedJob} :
    job ∈ ran log ↔ ∃ i answer, (i, .ran job answer) ∈ log := by
  constructor
  · intro h
    obtain ⟨⟨i, effect⟩, hmem, heq⟩ := List.mem_filterMap.mp h
    cases effect with
    | ran job' answer =>
        cases heq
        exact ⟨i, answer, hmem⟩
    | _ => cases heq
  · rintro ⟨i, answer, hmem⟩
    exact List.mem_filterMap.mpr ⟨_, hmem, rfl⟩

/-! ## The invariant -/

/-- What the worker has made of a job: it has run, and the answer waits. -/
def Unanswered (s : Inner) (job : QueuedJob) (answer : Answer) : Prop :=
  s.worker = .releasing job answer ∨ s.worker = .answering job answer

/-- What holds of the queue in every state that can be reached. -/
structure Valid (s : Inner) : Prop where
  bytes : s.bytes = (s.live.map QueuedJob.bytes).sum
  within : s.bytes ≤ QUEUE_BYTE_BUDGET
  keys : (s.live.map (·.thread)).Nodup
  /-- What was accepted and did not run is with the worker or in the queue. -/
  order : accepted s.log = ran s.log ++ (s.worker.entered ++ s.queue)
  threads : ((accepted s.log).map (·.thread)).Nodup
  sender : ∀ i job b, (i, .sent job b) ∈ s.log → job.thread = i
  held : ∀ job ∈ s.worker.holds ++ s.queue, job ∈ s.live
  unanswered : ∀ job answer, s.Unanswered job answer → ∃ j, (j, .ran job answer) ∈ s.log
  answering : ∀ job answer, s.worker = .answering job answer →
    ∀ other ∈ s.live, other.thread ≠ job.thread
  answered : ∀ i result, s.answers i = some result →
    (∃ j job answer, (j, .ran job answer) ∈ s.log ∧ job.thread = i ∧ answer.result = result) ∧
      ∀ other ∈ s.live, other.thread ≠ i
  closed : (s.worker = .closing ∨ ∃ result, s.worker = .ended result) → s.sender = false ∧
    s.queue = []
  stopped : ∀ i result, (i, .stopped result) ∈ s.log → s.worker = .ended result

theorem valid_opened (durable : Tables) : (opened durable).Valid where
  bytes := rfl
  within := Nat.zero_le _
  keys := .nil
  order := rfl
  threads := .nil
  sender _ _ _ h := by cases h
  held _ h := by cases h
  unanswered _ _ h := by rcases h with h | h <;> cases h
  answering _ _ h := by cases h
  answered _ _ h := by cases h
  closed h := by rcases h with h | ⟨_, h⟩ <;> cases h
  stopped _ _ h := by cases h

section Steps

variable {s : Inner} {i : Nat} {job : QueuedJob}

/-- A job that has run was accepted. -/
theorem Valid.accepted_of_ran (h : s.Valid) (hran : job ∈ ran s.log) : job ∈ accepted s.log := by
  rw [h.order]
  exact List.mem_append_left _ hran

/-- A thread that has sent nothing has no job in the queue or with the worker. -/
theorem Valid.unsent (h : s.Valid) (hunsent : ∀ job, (i, .sent job true) ∉ s.log) :
    ∀ job ∈ accepted s.log, job.thread ≠ i := by
  intro job hjob heq
  obtain ⟨j, hj⟩ := mem_accepted.mp hjob
  have hthread := h.sender j job true hj
  rw [← hthread, heq] at hj
  exact hunsent job hj

/-! ### Reservations -/

theorem Valid.reserve (h : s.Valid) (hroom : job.bytes ≤ QUEUE_BYTE_BUDGET - s.bytes)
    (hheld : ∀ other ∈ s.live, other.thread ≠ job.thread)
    (hunsent : ∀ other, (job.thread, .sent other true) ∉ s.log) :
    ({ s with bytes := s.bytes + job.bytes, live := s.live ++ [job] } : Inner).Valid where
  bytes := by
    change s.bytes + job.bytes = ((s.live ++ [job]).map QueuedJob.bytes).sum
    rw [h.bytes, List.map_append, List.sum_append]
    simp
  within := by
    have hwithin := h.within
    change s.bytes + job.bytes ≤ _
    omega
  keys := by
    change ((s.live ++ [job]).map (·.thread)).Nodup
    rw [List.map_append, List.nodup_append]
    refine ⟨h.keys, List.nodup_singleton _, fun a ha b hb => ?_⟩
    obtain ⟨other, hother, rfl⟩ := List.mem_map.mp ha
    rw [List.mem_singleton.mp hb]
    exact hheld other hother
  order := h.order
  threads := h.threads
  sender := h.sender
  held other hother := List.mem_append_left _ (h.held other hother)
  unanswered := h.unanswered
  answering done answer hworker other hother := by
    rcases List.mem_append.mp hother with hold | hnew
    · exact h.answering done answer hworker other hold
    · rw [List.mem_singleton.mp hnew]
      obtain ⟨j, hj⟩ := h.unanswered done answer (.inr hworker)
      exact (h.unsent hunsent done (h.accepted_of_ran (mem_ran.mpr ⟨j, answer, hj⟩))).symm
  answered k result hanswer := by
    obtain ⟨⟨j, done, answer, hran, hthread, hresult⟩, hnone⟩ := h.answered k result hanswer
    refine ⟨⟨j, done, answer, hran, hthread, hresult⟩, fun other hother => ?_⟩
    rcases List.mem_append.mp hother with hold | hnew
    · exact hnone other hold
    · rw [List.mem_singleton.mp hnew, ← hthread]
      exact (h.unsent hunsent done (h.accepted_of_ran (mem_ran.mpr ⟨j, answer, hran⟩))).symm
  closed := h.closed
  stopped := h.stopped

/-- The bytes of the reservations when one of them is gone. -/
theorem sum_drop {live : List QueuedJob} (hkeys : (live.map (·.thread)).Nodup) (hjob : job ∈ live) :
    (live.map QueuedJob.bytes).sum =
      ((live.filter fun other => other.thread ≠ job.thread).map QueuedJob.bytes).sum +
        job.bytes := by
  induction live with
  | nil => cases hjob
  | cons first live ih =>
      rw [List.map_cons, List.nodup_cons] at hkeys
      rcases List.mem_cons.mp hjob with rfl | hold
      · have hrest : (live.filter fun other => other.thread ≠ job.thread) = live := by
          refine List.filter_eq_self.mpr fun other hother => decide_eq_true fun heq => hkeys.1 ?_
          rw [← heq]
          exact List.mem_map_of_mem hother
        rw [List.filter_cons_of_neg (by simp), hrest, List.map_cons, List.sum_cons, Nat.add_comm]
      · have hne : first.thread ≠ job.thread := by
          intro heq
          rw [heq] at hkeys
          exact hkeys.1 (List.mem_map_of_mem hold)
        rw [List.filter_cons_of_pos (by simpa using hne), List.map_cons, List.map_cons,
          List.sum_cons,
          List.sum_cons, ih hkeys.2 hold, Nat.add_assoc]

/-- What a reservation that is alive gives back was accounted for. -/
theorem Valid.bytes_drop (h : s.Valid) (hjob : job ∈ s.live) :
    (Inner.drop job s).bytes = ((Inner.drop job s).live.map QueuedJob.bytes).sum ∧
      (Inner.drop job s).bytes ≤ QUEUE_BYTE_BUDGET := by
  have hsum := sum_drop h.keys hjob
  have hbytes := h.bytes
  have hwithin := h.within
  have hle : job.bytes ≤ s.bytes := by omega
  change subtract s.bytes job.bytes = _ ∧ subtract s.bytes job.bytes ≤ _
  rw [subtract, if_pos hle]
  refine ⟨?_, by omega⟩
  rw [h.bytes, hsum, Nat.add_sub_cancel]
  rfl

theorem Valid.drop (h : s.Valid) (hjob : job ∈ s.live)
    (hdone : ∀ other ∈ s.worker.holds ++ s.queue, other.thread ≠ job.thread) :
    (Inner.drop job s).Valid where
  bytes := (h.bytes_drop hjob).1
  within := (h.bytes_drop hjob).2
  keys := h.keys.sublist (List.filter_sublist.map _)
  order := h.order
  threads := h.threads
  sender := h.sender
  held other hother := List.mem_filter.mpr
    ⟨h.held other hother, decide_eq_true (hdone other hother)⟩
  unanswered := h.unanswered
  answering done answer hworker other hother :=
    h.answering done answer hworker other (List.mem_of_mem_filter hother)
  answered k result hanswer := by
    obtain ⟨hran, hnone⟩ := h.answered k result hanswer
    exact ⟨hran, fun other hother => hnone other (List.mem_of_mem_filter hother)⟩
  closed := h.closed
  stopped := h.stopped

/-! ### The queue -/

theorem Valid.send (h : s.Valid) (hopen : s.sender = true) (hjob : job ∈ s.live)
    (hunsent : own job.thread s.log = []) :
    (record job.thread (.sent job true) { s with queue := s.queue ++ [job] }).Valid where
  bytes := h.bytes
  within := h.within
  keys := h.keys
  order := by
    change accepted (s.log ++ [(job.thread, .sent job true)]) =
      ran (s.log ++ [(job.thread, .sent job true)]) ++ (s.worker.entered ++ (s.queue ++ [job]))
    rw [accepted_append, ran_append, h.order]
    simp [accepted, ran]
  threads := by
    change ((accepted (s.log ++ [(job.thread, .sent job true)])).map (·.thread)).Nodup
    rw [accepted_append, List.map_append, List.nodup_append]
    refine ⟨h.threads, List.nodup_singleton _, fun a ha b hb => ?_⟩
    obtain ⟨other, hother, rfl⟩ := List.mem_map.mp ha
    rw [List.mem_singleton.mp hb]
    refine h.unsent (fun sent hsent => ?_) other hother
    have hmem := mem_own hsent
    rw [hunsent] at hmem
    cases hmem
  sender k other b hmem := by
    rcases List.mem_append.mp hmem with hold | hnew
    · exact h.sender k other b hold
    · cases List.mem_singleton.mp hnew
      rfl
  held other hother := by
    change other ∈ s.worker.holds ++ (s.queue ++ [job]) at hother
    rw [← List.append_assoc] at hother
    rcases List.mem_append.mp hother with hold | hnew
    · exact h.held other hold
    · rw [List.mem_singleton.mp hnew]
      exact hjob
  unanswered done answer hworker := by
    obtain ⟨j, hj⟩ := h.unanswered done answer hworker
    exact ⟨j, List.mem_append_left _ hj⟩
  answering := h.answering
  answered k result hanswer := by
    obtain ⟨⟨j, done, answer, hran, hrest⟩, hnone⟩ := h.answered k result hanswer
    exact ⟨⟨j, done, answer, List.mem_append_left _ hran, hrest⟩, hnone⟩
  closed hworker := by
    have hclosed := h.closed hworker
    rw [hopen] at hclosed
    cases hclosed.1
  stopped k result hmem := by
    rcases List.mem_append.mp hmem with hold | hnew
    · exact h.stopped k result hold
    · cases List.mem_singleton.mp hnew

/-- A rejected job leaves the queue as it is. -/
theorem Valid.reject (h : s.Valid) :
    (record job.thread (.sent job false) s).Valid where
  bytes := h.bytes
  within := h.within
  keys := h.keys
  order := by
    change accepted (s.log ++ [(job.thread, .sent job false)]) =
      ran (s.log ++ [(job.thread, .sent job false)]) ++ (s.worker.entered ++ s.queue)
    rw [accepted_append, ran_append, h.order]
    simp [accepted, ran]
  threads := by
    change ((accepted (s.log ++ [(job.thread, .sent job false)])).map (·.thread)).Nodup
    rw [accepted_append]
    simpa [accepted] using h.threads
  sender k other b hmem := by
    rcases List.mem_append.mp hmem with hold | hnew
    · exact h.sender k other b hold
    · cases List.mem_singleton.mp hnew
      rfl
  held := h.held
  unanswered done answer hworker := by
    obtain ⟨j, hj⟩ := h.unanswered done answer hworker
    exact ⟨j, List.mem_append_left _ hj⟩
  answering := h.answering
  answered k result hanswer := by
    obtain ⟨⟨j, done, answer, hran, hrest⟩, hnone⟩ := h.answered k result hanswer
    exact ⟨⟨j, done, answer, List.mem_append_left _ hran, hrest⟩, hnone⟩
  closed := h.closed
  stopped k result hmem := by
    rcases List.mem_append.mp hmem with hold | hnew
    · exact h.stopped k result hold
    · cases List.mem_singleton.mp hnew

end Steps

/-! ### The worker -/

/-- A step of the worker. -/
inductive Worked (P : Platform) (i : Nat) (s : Inner) : Inner → Prop
  | take (job : QueuedJob) (queue : List QueuedJob) (hworker : s.worker = .idle)
      (hqueue : s.queue = job :: queue) :
        Worked P i s { s with queue := queue, worker := .running job }
  | close (hworker : s.worker = .idle) (hqueue : s.queue = []) (hsender : s.sender = false) :
      Worked P i s { s with worker := .closing }
  | run (job : QueuedJob) (faults : Faults) (hworker : s.worker = .running job) :
      Worked P i s (record i (.ran job (HistoryStore.answer P faults job.call s.db).1)
        { s with
          db := (HistoryStore.answer P faults job.call s.db).2
          worker := .releasing job (HistoryStore.answer P faults job.call s.db).1 })
  | release (job : QueuedJob) (answer : Answer) (hworker : s.worker = .releasing job answer) :
      Worked P i s { drop job s with worker := .answering job answer }
  | answer (job : QueuedJob) (answer : Answer) (hworker : s.worker = .answering job answer) :
      Worked P i s { s with
        answers := Function.update s.answers job.thread (some answer.result)
        worker := .idle }
  | stop (checkpoint : Bool) (faults : Faults) (hworker : s.worker = .closing) :
      Worked P i s (record i (.stopped (s.db.shutdown checkpoint faults).1)
        { s with
          db := (s.db.shutdown checkpoint faults).2
          worker := .ended (s.db.shutdown checkpoint faults).1 })

theorem each_stepWorker (P : Platform) (i : Nat) : (stepWorker P i).Each (Worked P i) := by
  refine Thread.each_atomic fun chance s _ t hop => ?_
  split at hop
  next hworker =>
    split at hop
    next job queue hqueue => cases hop; exact .take job queue hworker hqueue
    next hqueue =>
      split at hop
      · cases hop
      next hsender => cases hop; exact .close hworker hqueue (Bool.not_eq_true _ ▸ hsender)
  next job faults hworker => cases hop; exact .run job faults hworker
  next _ job answer hworker => cases hop; exact .release job answer hworker
  next _ job answer hworker => cases hop; exact .answer job answer hworker
  next checkpoint faults hworker => cases hop; exact .stop checkpoint faults hworker
  next => cases hop

/-- The job of the worker is not in the queue as well. -/
theorem Valid.working {s : Inner} {job : QueuedJob} {answer : Answer} (h : s.Valid)
    (hworker : s.worker = .releasing job answer) :
      ∀ other ∈ s.queue, other.thread ≠ job.thread := by
  intro other hother heq
  obtain ⟨j, hj⟩ := h.unanswered job answer (.inl hworker)
  have hthreads := h.threads
  rw [h.order, hworker, List.map_append, List.nodup_append] at hthreads
  exact hthreads.2.2 job.thread (List.mem_map_of_mem (mem_ran.mpr ⟨j, answer, hj⟩)) other.thread
    (List.mem_map_of_mem hother) heq.symm

theorem Valid.worked {P : Platform} {i : Nat} {s t : Inner} (h : s.Valid) (hstep : Worked P i s t) :
    t.Valid := by
  cases hstep with
  | take job queue hworker hqueue =>
      have horder := h.order
      have hheld := h.held
      rw [hworker, hqueue] at horder hheld
      refine ⟨h.bytes, h.within, h.keys, horder, h.threads, h.sender, hheld, ?_, ?_,
        h.answered, ?_, ?_⟩
      · rintro done answer (hstate | hstate) <;> cases hstate
      · intro done answer hstate
        cases hstate
      · rintro (hstate | ⟨result, hstate⟩) <;> cases hstate
      · intro k result hmem
        rw [h.stopped k result hmem] at hworker
        cases hworker
  | close hworker hqueue hsender =>
      have horder := h.order
      have hheld := h.held
      rw [hworker] at horder hheld
      refine ⟨h.bytes, h.within, h.keys, horder, h.threads, h.sender, hheld, ?_, ?_,
        h.answered, ?_, ?_⟩
      · rintro done answer (hstate | hstate) <;> cases hstate
      · intro done answer hstate
        cases hstate
      · exact fun _ => ⟨hsender, hqueue⟩
      · intro k result hmem
        rw [h.stopped k result hmem] at hworker
        cases hworker
  | run job faults hworker =>
      have horder := h.order
      have hheld := h.held
      rw [hworker] at horder hheld
      refine ⟨h.bytes, h.within, h.keys, ?_, ?_, fun k other b hmem => ?_, hheld, ?_, ?_,
        fun k result hanswer => ?_, ?_, fun k result hmem => ?_⟩
      · change accepted (s.log ++ [(i, .ran job _)]) =
          ran (s.log ++ [(i, .ran job _)]) ++ ([] ++ s.queue)
        rw [accepted_append, ran_append, horder]
        simp [accepted, ran, WorkerState.entered]
      · change ((accepted (s.log ++ [(i, .ran job _)])).map (·.thread)).Nodup
        rw [accepted_append]
        simpa [accepted] using h.threads
      · rcases List.mem_append.mp hmem with hold | hnew
        · exact h.sender k other b hold
        · cases List.mem_singleton.mp hnew
      · rintro done answer (hstate | hstate)
        · cases hstate
          exact ⟨i, List.mem_append_right _ (List.mem_singleton_self _)⟩
        · cases hstate
      · intro done answer hstate
        cases hstate
      · obtain ⟨⟨j, done, answer, hran, hrest⟩, hnone⟩ := h.answered k result hanswer
        exact ⟨⟨j, done, answer, List.mem_append_left _ hran, hrest⟩, hnone⟩
      · rintro (hstate | ⟨result, hstate⟩) <;> cases hstate
      · rcases List.mem_append.mp hmem with hold | hnew
        · rw [h.stopped k result hold] at hworker
          cases hworker
        · cases List.mem_singleton.mp hnew
  | release job answer hworker =>
      have horder := h.order
      have hjob : job ∈ s.live := by
        refine h.held job (List.mem_append_left _ ?_)
        rw [hworker]
        exact List.mem_singleton_self _
      rw [hworker] at horder
      have hothers := h.working hworker
      refine ⟨(h.bytes_drop hjob).1, (h.bytes_drop hjob).2,
        h.keys.sublist (List.filter_sublist.map _),
        horder, h.threads, h.sender, fun other hother => ?_, fun done answer' hstate => ?_,
        fun done answer' hstate other hother => ?_, fun k result hanswer => ?_, ?_,
          fun k result hmem => ?_⟩
      · exact List.mem_filter.mpr
          ⟨h.held other (List.mem_append_right _ hother), decide_eq_true (hothers other hother)⟩
      · rcases hstate with hstate | hstate
        · cases hstate
        · cases hstate
          exact h.unanswered job answer (.inl hworker)
      · cases hstate
        exact of_decide_eq_true (List.mem_filter.mp hother).2
      · obtain ⟨hran, hnone⟩ := h.answered k result hanswer
        exact ⟨hran, fun other hother => hnone other (List.mem_of_mem_filter hother)⟩
      · rintro (hstate | ⟨result, hstate⟩) <;> cases hstate
      · rw [h.stopped k result hmem] at hworker
        cases hworker
  | answer job answer hworker =>
      have horder := h.order
      have hheld := h.held
      rw [hworker] at horder hheld
      refine ⟨h.bytes, h.within, h.keys, horder, h.threads, h.sender, hheld, ?_, ?_,
        fun k result hanswer => ?_, ?_, fun k result hmem => ?_⟩
      · rintro done answer' (hstate | hstate) <;> cases hstate
      · intro done answer' hstate
        cases hstate
      · change Function.update s.answers job.thread (some answer.result) k = some result at hanswer
        rcases eq_or_ne k job.thread with rfl | hne
        · rw [Function.update_self] at hanswer
          cases hanswer
          obtain ⟨j, hj⟩ := h.unanswered job answer (.inr hworker)
          exact ⟨⟨j, job, answer, hj, rfl, rfl⟩, h.answering job answer hworker⟩
        · rw [Function.update_of_ne hne] at hanswer
          exact h.answered k result hanswer
      · rintro (hstate | ⟨result, hstate⟩) <;> cases hstate
      · rw [h.stopped k result hmem] at hworker
        cases hworker
  | stop checkpoint faults hworker =>
      have horder := h.order
      have hheld := h.held
      rw [hworker] at horder hheld
      have hclosed := h.closed (.inl hworker)
      refine ⟨h.bytes, h.within, h.keys, ?_, ?_, fun k other b hmem => ?_, hheld, ?_, ?_,
        fun k result hanswer => ?_, fun _ => hclosed, fun k result hmem => ?_⟩
      · change accepted (s.log ++ [(i, .stopped _)]) =
          ran (s.log ++ [(i, .stopped _)]) ++ ([] ++ s.queue)
        rw [accepted_append, ran_append, horder]
        simp [accepted, ran, WorkerState.entered]
      · change ((accepted (s.log ++ [(i, .stopped _)])).map (·.thread)).Nodup
        rw [accepted_append]
        simpa [accepted] using h.threads
      · rcases List.mem_append.mp hmem with hold | hnew
        · exact h.sender k other b hold
        · cases List.mem_singleton.mp hnew
      · rintro done answer (hstate | hstate) <;> cases hstate
      · intro done answer hstate
        cases hstate
      · obtain ⟨⟨j, done, answer, hran, hrest⟩, hnone⟩ := h.answered k result hanswer
        exact ⟨⟨j, done, answer, List.mem_append_left _ hran, hrest⟩, hnone⟩
      · rcases List.mem_append.mp hmem with hold | hnew
        · rw [h.stopped k result hold] at hworker
          cases hworker
        · cases List.mem_singleton.mp hnew
          rfl

/-! ## The discipline -/

/-- What a shutdown leaves for the next one. -/
def failure : BackendResult Unit → Option BackendError
  | .ok _ => none
  | .error error => some error

/-- Whoever finds the handle taken finds the outcome of the worker. -/
structure Settled (s : Inner) : Prop where
  untouched : s.handle = true → s.shutdownError = none
  joined : s.handle = false → ∃ result, s.worker = .ended result ∧ s.shutdownError = failure result

/-- The reservation of a thread. -/
def held (i : Nat) (s : Inner) : List QueuedJob := s.live.filter fun job => job.thread = i

/-- What was accepted and run stays so. -/
structure Grows (s t : Inner) : Prop where
  log : s.log <+: t.log
  sender : s.sender = false → t.sender = false
  ended : ∀ result, s.worker = .ended result → t.worker = .ended result ∧
    accepted t.log = accepted s.log ∧ ran t.log = ran s.log

/-- What a thread finds between two of its statements. -/
structure Leaves (i : Nat) (s t : Inner) : Prop where
  grows : Grows s t
  own : own i t.log = own i s.log
  held : (held i t).Sublist (held i s)
  /-- Only the job of an accepted call loses its reservation. -/
  kept : (∀ job, (i, .sent job true) ∉ s.log) → Inner.held i t = Inner.held i s
  lock : s.holder = some i → t.holder = some i ∧ t.handle = s.handle ∧
    t.shutdownError = s.shutdownError
  free : s.holder ≠ some i → t.holder ≠ some i

theorem Grows.refl (s : Inner) : Grows s s :=
    ⟨List.prefix_rfl, fun h => h, fun _ h => ⟨h, rfl, rfl⟩⟩

theorem Grows.trans {s t u : Inner} (h : Grows s t) (h' : Grows t u) : Grows s u where
  log := h.log.trans h'.log
  sender hs := h'.sender (h.sender hs)
  ended result hs := by
    obtain ⟨ht, haccepted, hran⟩ := h.ended result hs
    obtain ⟨hu, haccepted', hran'⟩ := h'.ended result ht
    exact ⟨hu, haccepted'.trans haccepted, hran'.trans hran⟩

theorem sent_own {i : Nat} {job : QueuedJob} {b : Bool} {log : List (Nat × QueueEffect)} :
    (i, .sent job b) ∈ log ↔ (i, .sent job b) ∈ own i log := by
  simp [own]

theorem Leaves.refl (i : Nat) (s : Inner) : Leaves i s s :=
  ⟨.refl s, rfl, .refl _, fun _ => rfl, fun h => ⟨h, rfl, rfl⟩, fun h => h⟩

theorem Leaves.trans {i : Nat} {s t u : Inner} (h : Leaves i s t) (h' : Leaves i t u) :
    Leaves i s u where
  grows := h.grows.trans h'.grows
  own := h'.own.trans h.own
  held := h'.held.trans h.held
  kept hunsent := by
    refine (h'.kept fun job hjob => hunsent job ?_).trans (h.kept hunsent)
    rw [sent_own, h.own, ← sent_own] at hjob
    exact hjob
  lock hs := by
    obtain ⟨ht, hhandle, herror⟩ := h.lock hs
    obtain ⟨hu, hhandle', herror'⟩ := h'.lock ht
    exact ⟨hu, hhandle'.trans hhandle, herror'.trans herror⟩
  free hs := h'.free (h.free hs)

/-- The runs that go on from `past`. -/
def discipline (past : Inner) : Discipline Inner where
  valid s := s.Valid ∧ (s.holder = none → s.Settled) ∧ Grows past s
  grows := Grows
  rely := Leaves
  fresh i s := own i s.log = [] ∧ held i s = [] ∧ s.holder ≠ some i
  grows_refl := .refl
  grows_trans := .trans
  rely_refl := .refl
  rely_trans := .trans
  fresh_rely h hs :=
    ⟨h.own.trans hs.1, List.sublist_nil.mp (hs.2.1 ▸ h.held), h.free hs.2.2⟩

section Discipline

variable {past s t : Inner} {i : Nat}

theorem Worked.running {P : Platform} (h : Worked P i s t) (result : BackendResult Unit) :
    s.worker ≠ .ended result := by
  intro hworker
  cases h with
  | take _ _ hstate | close hstate | run _ _ hstate | release _ _ hstate | answer _ _ hstate
  | stop _ _ hstate =>
      rw [hworker] at hstate
      cases hstate

theorem Worked.log {P : Platform} (h : Worked P i s t) :
    ∃ effects : List QueueEffect, t.log = s.log ++ effects.map (Prod.mk i) := by
  cases h with
  | run | stop => exact ⟨[_], rfl⟩
  | _ => exact ⟨[], (List.append_nil _).symm⟩

/-- The worker leaves the submission and the lock alone. -/
theorem Worked.leaves {P : Platform} (h : Worked P i s t) :
    t.sender = s.sender ∧ t.holder = s.holder ∧ t.handle = s.handle ∧
      t.shutdownError = s.shutdownError := by
  cases h <;> exact ⟨rfl, rfl, rfl, rfl⟩

/-- The worker drops the reservation of a job that was accepted. -/
theorem Worked.held {P : Platform} (h : Worked P i s t) (hvalid : s.Valid) (j : Nat) :
    (held j t).Sublist (held j s) ∧
      ((∀ job, (j, .sent job true) ∉ s.log) → Inner.held j t = Inner.held j s) := by
  cases h with
  | release job answer hworker =>
      have hsublist :
          (List.filter (fun other => other.thread ≠ job.thread) s.live).Sublist s.live :=
        List.filter_sublist
      refine ⟨hsublist.filter _, fun hunsent => ?_⟩
      obtain ⟨k, hk⟩ := hvalid.unanswered job answer (.inl hworker)
      have haccepted := hvalid.accepted_of_ran (mem_ran.mpr ⟨k, answer, hk⟩)
      have hne : job.thread ≠ j := hvalid.unsent hunsent job haccepted
      change List.filter _ (List.filter _ s.live) = List.filter _ s.live
      rw [List.filter_filter]
      refine List.filter_congr fun other _ => ?_
      rcases eq_or_ne other.thread j with heq | hother
      · simp [heq, hne.symm]
      · simp [hother]
  | _ => exact ⟨.refl _, fun _ => rfl⟩

/-- What a thread writes to the log is not about another one. -/
theorem own_others {log log' : List (Nat × QueueEffect)} {j : Nat}
    (hlog : ∃ effects : List QueueEffect, log' = log ++ effects.map (Prod.mk i)) (hne : j ≠ i) :
    own j log' = own j log := by
  obtain ⟨effects, rfl⟩ := hlog
  have hother : own j (effects.map (Prod.mk i)) = [] := by
    refine List.filter_eq_nil_iff.mpr fun entry hentry => ?_
    obtain ⟨effect, -, rfl⟩ := List.mem_map.mp hentry
    simpa using hne.symm
  rw [own_append, hother, List.append_nil]

/-- A statement of a caller: the lock of the worker is not its business. -/
theorem allows_caller (h : (discipline past).valid s) (hvalid : t.Valid) (hgrows : Grows s t)
    (hlog : ∃ effects : List QueueEffect, t.log = s.log ++ effects.map (Prod.mk i))
    (hheld : ∀ j, j ≠ i → held j t = held j s) (hworker : t.worker = s.worker)
    (hlock : t.holder = s.holder ∧ t.handle = s.handle ∧ t.shutdownError = s.shutdownError) :
    (discipline past).Allows i s t := by
  obtain ⟨hholder, hhandle, herror⟩ := hlock
  refine ⟨⟨hvalid, fun hnone => ?_, h.2.2.trans hgrows⟩, hgrows, fun j hne => ?_⟩
  · rw [hholder] at hnone
    have hsettled := h.2.1 hnone
    exact ⟨by rw [hhandle, herror]; exact hsettled.untouched,
      by rw [hhandle, herror, hworker]; exact hsettled.joined⟩
  · refine ⟨hgrows, own_others hlog hne, by rw [hheld j hne], fun _ => hheld j hne,
      fun hmine => ⟨hholder.trans hmine, hhandle, herror⟩, fun hmine =>
        by rw [hholder]; exact hmine⟩

/-- A statement of the worker. -/
theorem allows_worked {P : Platform} (h : (discipline past).valid s) (hstep : Worked P i s t) :
    (discipline past).Allows i s t := by
  obtain ⟨hsender, hholder, hhandle, herror⟩ := hstep.leaves
  have hgrows : Grows s t := by
    refine ⟨?_, fun hclosed => hsender.trans hclosed, fun result hended =>
      absurd hended (hstep.running result)⟩
    obtain ⟨effects, hlog⟩ := hstep.log
    rw [hlog]
    exact List.prefix_append _ _
  refine ⟨⟨h.1.worked hstep, fun hnone => ?_, h.2.2.trans hgrows⟩, hgrows, fun j hne => ?_⟩
  · rw [hholder] at hnone
    have hsettled := h.2.1 hnone
    refine ⟨by rw [hhandle, herror]; exact hsettled.untouched, fun htaken => ?_⟩
    rw [hhandle] at htaken
    obtain ⟨result, hended, -⟩ := hsettled.joined htaken
    exact absurd hended (hstep.running result)
  · obtain ⟨hsublist, hkept⟩ := hstep.held h.1 j
    exact ⟨hgrows, own_others hstep.log hne, hsublist, hkept,
      fun hmine => ⟨hholder.trans hmine, hhandle, herror⟩, fun hmine =>
        by rw [hholder]; exact hmine⟩

/-- A statement of a shutdown. -/
theorem allows_shutdown (h : (discipline past).valid s) (hvalid : t.Valid) (hlog : t.log = s.log)
    (hlive : t.live = s.live) (hworker : t.worker = s.worker)
    (hsender : s.sender = false → t.sender = false) (hlock : s.holder = some i ∨ s.holder = none)
    (hholder : t.holder = some i ∨ t.holder = none ∧ t.Settled) :
    (discipline past).Allows i s t := by
  have hgrows : Grows s t := by
    refine ⟨by rw [hlog], hsender, fun result hs => ⟨hworker.trans hs, by rw [hlog], by rw [hlog]⟩⟩
  refine ⟨⟨hvalid, fun hnone => ?_, h.2.2.trans hgrows⟩, hgrows, fun j hne => ?_⟩
  · rcases hholder with hmine | ⟨-, hsettled⟩
    · rw [hmine] at hnone
      cases hnone
    · exact hsettled
  · refine ⟨hgrows, by rw [hlog], by rw [held, hlive, held], fun _ => by rw [held, hlive, held],
      fun hother => ?_, fun _ hother => ?_⟩
    · rcases hlock with hlock | hlock
      · rw [hlock] at hother
        exact absurd (Option.some.inj hother).symm hne
      · rw [hlock] at hother
        cases hother
    · rcases hholder with hmine | ⟨hnone, -⟩
      · rw [hmine] at hother
        exact absurd (Option.some.inj hother).symm hne
      · rw [hnone] at hother
        cases hother

end Discipline

end Inner

end ClipDaemon
