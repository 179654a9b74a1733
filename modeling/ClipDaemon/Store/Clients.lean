import ClipDaemon.Store.Drain

/-!
# Calls and shutdowns

Every statement of a call and of a shutdown keeps the discipline of the queue.  A call
remembers that nothing it has sent was accepted until it sends its job; a shutdown that holds
the lock of the worker remembers who has taken the handle.
-/

namespace ClipDaemon.Inner

open ThreadLog

variable {past s t : Inner} {i : Nat}

/-! ## Calls -/

/-- A call that was rejected. -/
structure Rejected (i : Nat) (result : BackendResult Reply) (s : Inner) : Prop where
  failed : ∃ error, result = .error error
  unsent : ∀ job, (i, .sent job true) ∉ s.log

/-- A call that the worker has answered. -/
def Ran (job : QueuedJob) (result : BackendResult Reply) (s : Inner) : Prop :=
  ∃ j answer, (j, .ran job answer) ∈ s.log ∧ result = answer.result

/-- What a call leaves behind. -/
structure Called (past : Inner) (i : Nat) (call : Call) (result : BackendResult Reply) (s : Inner) :
    Prop where
  dropped : held i s = []
  outcome : Ran ⟨i, call⟩ result s ∨ Rejected i result s
  late : past.sender = false → Rejected i result s

theorem unsent_of_own {log log' : List (Nat × QueueEffect)} (hown : own i log' = own i log)
    (h : ∀ job, (i, .sent job true) ∉ log) : ∀ job, (i, .sent job true) ∉ log' := by
  intro job hjob
  rw [sent_own, hown, ← sent_own] at hjob
  exact h job hjob

theorem Called.rely {call : Call} {result : BackendResult Reply} (h : Called past i call result s)
    (hrely : Leaves i s t) : Called past i call result t where
  dropped := by
    have hsublist := hrely.held
    rw [h.dropped] at hsublist
    exact List.sublist_nil.mp hsublist
  outcome := h.outcome.imp
    (fun ⟨j, answer, hran, hresult⟩ => ⟨j, answer, hrely.grows.log.subset hran, hresult⟩)
    fun hrejected => ⟨hrejected.failed, unsent_of_own hrely.own hrejected.unsent⟩
  late hpast := ⟨(h.late hpast).failed, unsent_of_own hrely.own (h.late hpast).unsent⟩

theorem Called.rejected {call : Call} {error : BackendError} (hheld : held i s = [])
    (hunsent : ∀ job, (i, .sent job true) ∉ s.log) : Called past i call (.error error) s :=
  ⟨hheld, .inr ⟨⟨error, rfl⟩, hunsent⟩, fun _ => ⟨⟨error, rfl⟩, hunsent⟩⟩

/-- What the queue and the worker hold was accepted. -/
theorem Valid.accepted_of_held (h : s.Valid) {job : QueuedJob}
    (hjob : job ∈ s.worker.holds ++ s.queue) :
    job ∈ accepted s.log := by
  have hpending : ∀ other ∈ s.worker.entered ++ s.queue, other ∈ accepted s.log := by
    intro other hother
    rw [h.order]
    exact List.mem_append_right _ hother
  rcases List.mem_append.mp hjob with hholds | hqueue
  · cases hworker : s.worker with
    | running job' =>
        rw [hworker] at hholds hpending
        exact hpending job (List.mem_append_left _ hholds)
    | releasing job' answer =>
        rw [hworker] at hholds
        rw [List.mem_singleton.mp hholds]
        obtain ⟨j, hj⟩ := h.unanswered job' answer (.inl hworker)
        exact h.accepted_of_ran (mem_ran.mpr ⟨j, answer, hj⟩)
    | _ =>
        rw [hworker] at hholds
        cases hholds
  · exact hpending job (List.mem_append_right _ hqueue)

theorem mem_held {job : QueuedJob} : job ∈ held job.thread s ↔ job ∈ s.live := by
  simp [held]

/-- A reservation of one thread is not one of another. -/
theorem held_append {job : QueuedJob} {j : Nat} {live : List QueuedJob} (hne : j ≠ job.thread) :
    ((live ++ [job]).filter fun other => other.thread = j) = live.filter fun other =>
      other.thread = j := by
  rw [List.filter_append, List.filter_cons_of_neg (by simpa using hne.symm)]
  exact List.append_nil _

theorem held_drop {job : QueuedJob} {j : Nat} :
    held j (drop job s) = if j = job.thread then [] else held j s := by
  change ((s.live.filter fun other => other.thread ≠ job.thread).filter fun other =>
    other.thread = j) = _
  rw [List.filter_filter]
  split
  next heq =>
    refine List.filter_eq_nil_iff.mpr fun other _ => ?_
    simp [heq]
  next hne =>
    refine List.filter_congr fun other _ => ?_
    rcases eq_or_ne other.thread j with heq | hother
    · simp [heq, hne]
    · simp [hother]

/-- A thread that holds a reservation and has sent nothing that was accepted. -/
structure Reserved (job : QueuedJob) (s : Inner) : Prop where
  held : held job.thread s = [job]
  unsent : ∀ other, (job.thread, .sent other true) ∉ s.log

theorem Reserved.rely {job : QueuedJob} (h : Reserved job s) (hrely : Leaves job.thread s t) :
    Reserved job t :=
  ⟨(hrely.kept h.unsent).trans h.held, unsent_of_own hrely.own h.unsent⟩

theorem Reserved.live {job : QueuedJob} (h : Reserved job s) : job ∈ s.live := by
  have hmem : job ∈ Inner.held job.thread s := by
    rw [h.held]
    exact List.mem_singleton_self _
  exact mem_held.mp hmem

theorem keeps_reserve {call : Call} (hfresh : (discipline past).fresh i s) :
    (reserve ⟨i, call⟩).Keeps (discipline past) i (fun result u =>
      match result with
      | .ok _ => own i u.log = [] ∧ held i u = [⟨i, call⟩]
      | .error error => Called past i call (.error error) u) s := by
  refine Thread.keeps_modify fun t hvalid hrely => ?_
  obtain ⟨hown, hheld, -⟩ := (discipline past).fresh_rely hrely hfresh
  have hunsent : ∀ job, (i, .sent job true) ∉ t.log := by
    intro job hjob
    have hmem := mem_own hjob
    rw [hown] at hmem
    cases hmem
  split
  · exact ⟨.refl hvalid, Called.rejected hheld hunsent⟩
  · split
    · exact ⟨.refl hvalid, Called.rejected hheld hunsent⟩
    next hroom =>
      have hnone : ∀ other ∈ t.live, other.thread ≠ i := by
        rintro other hother rfl
        have hmem := mem_held.mpr hother
        rw [hheld] at hmem
        cases hmem
      have hfits : (⟨i, call⟩ : QueuedJob).bytes ≤ QUEUE_BYTE_BUDGET - t.bytes := by omega
      refine ⟨allows_caller hvalid (hvalid.1.reserve hfits hnone hunsent)
        ⟨List.prefix_rfl, fun h => h, fun _ h => ⟨h, rfl, rfl⟩⟩ ⟨[], (List.append_nil _).symm⟩
        (fun j hne => held_append hne) rfl ⟨rfl, rfl, rfl⟩, hown, ?_⟩
      change (t.live ++ [(⟨i, call⟩ : QueuedJob)]).filter (fun other => other.thread = i) = _
      rw [List.filter_append, List.filter_cons_of_pos (by simp)]
      exact congrArg (· ++ _) hheld

/-- The reservation of a rejected job is dropped. -/
theorem keeps_drop {job : QueuedJob} (h : Reserved job s) :
    (Thread.modify fun s => ((), drop job s) : Work Unit).Keeps (discipline past) job.thread
      (fun _ u => held job.thread u = [] ∧ ∀ other, (job.thread, .sent other true) ∉ u.log) s := by
  refine Thread.keeps_modify fun t hvalid hrely => ?_
  have hreserved : Reserved job t := h.rely hrely
  refine ⟨allows_caller hvalid (hvalid.1.drop hreserved.live fun other hother => ?_)
    ⟨List.prefix_rfl, fun h => h, fun _ h => ⟨h, rfl, rfl⟩⟩ ⟨[], (List.append_nil _).symm⟩
    (fun j hne => ?_) rfl ⟨rfl, rfl, rfl⟩, ?_, hreserved.unsent⟩
  · exact hvalid.1.unsent hreserved.unsent other (hvalid.1.accepted_of_held hother)
  · rw [held_drop, if_neg hne]
  · rw [held_drop, if_pos rfl]

/-- A job that was sent, and whether the queue has accepted it. -/
def Sent (past : Inner) (job : QueuedJob) (accepted : Bool) (s : Inner) : Prop :=
  if accepted then own job.thread s.log = [(job.thread, .sent job true)] ∧ past.sender = true
  else Reserved job s

theorem keeps_trySend (job : QueuedJob) (hown : own job.thread s.log = [])
    (hheld : held job.thread s = [job]) :
    (trySend job.thread job).Keeps (discipline past) job.thread
      (fun accepted u => Sent past job accepted u) s := by
  refine Thread.keeps_modify fun t hvalid hrely => ?_
  have hunsent : ∀ other, (job.thread, .sent other true) ∉ s.log := by
    intro other hother
    have hmem := mem_own hother
    rw [hown] at hmem
    cases hmem
  have hreserved : Reserved job t := Reserved.rely ⟨hheld, hunsent⟩ hrely
  have hempty : own job.thread t.log = [] := hrely.own.trans hown
  split
  next hsend =>
    rw [Bool.and_eq_true] at hsend
    refine ⟨allows_caller hvalid (hvalid.1.send hsend.1 hreserved.live hempty)
      ⟨List.prefix_append _ _, fun h => h, fun result hended => ?_⟩ ⟨[_], rfl⟩ (fun _ _ => rfl) rfl
      ⟨rfl, rfl, rfl⟩, ?_, ?_⟩
    · have hclosed := (hvalid.1.closed (.inr ⟨result, hended⟩)).1
      rw [hsend.1] at hclosed
      cases hclosed
    · change own job.thread (t.log ++ _) = _
      rw [own_append, hempty, own_self, List.nil_append]
    · cases hpast : past.sender with
      | true => rfl
      | false =>
          have hclosed := hvalid.2.2.sender hpast
          rw [hsend.1] at hclosed
          cases hclosed
  next =>
    refine ⟨allows_caller hvalid hvalid.1.reject
      ⟨List.prefix_append _ _, fun h => h, fun result hended => ⟨hended, ?_, ?_⟩⟩ ⟨[_], rfl⟩
      (fun _ _ => rfl) rfl ⟨rfl, rfl, rfl⟩, hreserved.held, fun other hother => ?_⟩
    · change accepted (t.log ++ _) = _
      rw [accepted_append]
      exact List.append_nil _
    · change ran (t.log ++ _) = _
      rw [ran_append]
      exact List.append_nil _
    · rcases List.mem_append.mp hother with hold | hnew
      · exact hreserved.unsent other hold
      · cases List.mem_singleton.mp hnew

/-- The answer is that of the job that the thread has sent. -/
theorem keeps_receive {call : Call} (hsent : own i s.log = [(i, .sent ⟨i, call⟩ true)])
    (hpast : past.sender = true) :
    (receive i).Keeps (discipline past) i (fun result u => Called past i call result u) s := by
  refine Thread.keeps_atomic fun t hvalid hrely chance result u hop => ?_
  obtain ⟨result', hanswer, heq⟩ := Option.map_eq_some_iff.mp hop
  cases heq
  obtain ⟨⟨j, job, answer, hran, hthread, hresult⟩, hnone⟩ := hvalid.1.answered i result hanswer
  have hjob : job = ⟨i, call⟩ := by
    obtain ⟨k, hk⟩ := mem_accepted.mp (hvalid.1.accepted_of_ran (mem_ran.mpr ⟨j, answer, hran⟩))
    have hthread' : job.thread = k := hvalid.1.sender k job true hk
    rw [← hthread', hthread] at hk
    have hmem := mem_own hk
    rw [hrely.own, hsent, List.mem_singleton] at hmem
    cases hmem
    rfl
  subst hjob
  refine ⟨.refl hvalid, List.filter_eq_nil_iff.mpr fun other hother =>
    by simpa using hnone other hother,
    .inl ⟨j, answer, hran, hresult.symm⟩, fun hclosed => ?_⟩
  rw [hpast] at hclosed
  cases hclosed

theorem keeps_submit {call : Call} (hown : own i s.log = []) (hheld : held i s = [⟨i, call⟩]) :
    (submit i ⟨i, call⟩).Keeps (discipline past) i
      (fun result u => Called past i call result u) s := by
  refine Thread.keeps_bind ((keeps_trySend ⟨i, call⟩ hown hheld).weaken fun accepted u hsent => ?_)
  cases accepted with
  | true => exact keeps_receive hsent.1 hsent.2
  | false =>
      refine Thread.keeps_bind ((keeps_drop hsent).weaken ?_)
      rintro _ v ⟨hdropped, hunsent⟩
      exact Called.rejected hdropped hunsent

theorem keeps_call (request : Call) (hfresh : (discipline past).fresh i s) :
    (call i request).Keeps (discipline past) i
      (fun result u => Called past i request result u) s := by
  rw [call]
  split
  next error _ =>
    refine Called.rejected hfresh.2.1 fun job hjob => ?_
    have hmem := mem_own hjob
    rw [hfresh.1] at hmem
    cases hmem
  next =>
    refine Thread.keeps_bind ((keeps_reserve hfresh).weaken fun result u hu => ?_)
    cases result with
    | error _ => exact hu
    | ok _ => exact keeps_submit hu.1 hu.2

/-! ## Shutdowns -/

/-- What the queue holds does not depend on the lock of the worker. -/
theorem Valid.locked (h : s.Valid) (sender : Bool) (handle : Bool) (holder : Option Nat)
    (shutdownError : Option BackendError) (hsender : s.sender = false → sender = false) :
    ({ s with sender, handle, holder, shutdownError } : Inner).Valid where
  bytes := h.bytes
  within := h.within
  keys := h.keys
  order := h.order
  threads := h.threads
  sender := h.sender
  held := h.held
  unanswered := h.unanswered
  answering := h.answering
  answered := h.answered
  closed hworker := ⟨hsender (h.closed hworker).1, (h.closed hworker).2⟩
  stopped := h.stopped

/-- A shutdown that holds the lock of the worker. -/
structure Holding (i : Nat) (s : Inner) : Prop where
  lock : s.holder = some i
  settled : s.Settled

/-- A shutdown that has taken the handle. -/
structure Taken (i : Nat) (s : Inner) : Prop where
  lock : s.holder = some i
  taken : s.handle = false
  none : s.shutdownError = none

theorem Holding.rely (h : Holding i s) (hrely : Leaves i s t) : Holding i t := by
  obtain ⟨hlock, hhandle, herror⟩ := hrely.lock h.lock
  refine ⟨hlock, by rw [hhandle, herror]; exact h.settled.untouched, fun htaken => ?_⟩
  rw [hhandle] at htaken
  obtain ⟨result, hended, hfailure⟩ := h.settled.joined htaken
  exact ⟨result, (hrely.grows.ended result hended).1, herror.trans hfailure⟩

theorem Taken.rely (h : Taken i s) (hrely : Leaves i s t) : Taken i t := by
  obtain ⟨hlock, hhandle, herror⟩ := hrely.lock h.lock
  exact ⟨hlock, hhandle.trans h.taken, herror.trans h.none⟩

theorem keeps_lockWorker :
    (lockWorker i).Keeps (discipline past) i (fun _ u => Holding i u) s := by
  refine Thread.keeps_atomic fun t hvalid _ chance _ u hop => ?_
  split at hop
  next hfree =>
    cases hop
    have hsettled := hvalid.2.1 hfree
    have hheld : Holding i { t with holder := some i } := ⟨rfl, hsettled.untouched, hsettled.joined⟩
    exact ⟨allows_shutdown hvalid
      (hvalid.1.locked t.sender t.handle (some i) t.shutdownError fun h => h)
      rfl rfl rfl (fun h => h) (.inr hfree) (.inl rfl), hheld⟩
  next => cases hop

/-- The outcome of the worker stands when the lock is released. -/
theorem keeps_unlockWorker {result : BackendResult Unit} (h : Holding i s)
    (hended : s.worker = .ended result) :
    unlockWorker.Keeps (discipline past) i (fun _ u => u.worker = .ended result) s := by
  refine Thread.keeps_modify fun t hvalid hrely => ?_
  have hheld : Holding i t := h.rely hrely
  exact ⟨allows_shutdown hvalid
    (hvalid.1.locked t.sender t.handle none t.shutdownError fun h => h) rfl rfl
    rfl (fun h => h) (.inl hheld.lock) (.inr ⟨rfl, hheld.settled.untouched, hheld.settled.joined⟩),
    (hrely.grows.ended result hended).1⟩

theorem keeps_close (h : Holding i s) :
    (Thread.modify fun s => ((), { s with sender := false }) : Work Unit).Keeps (discipline past) i
      (fun _ u => Holding i u) s := by
  refine Thread.keeps_modify fun t hvalid hrely => ?_
  have hheld : Holding i t := h.rely hrely
  exact ⟨allows_shutdown hvalid
    (hvalid.1.locked false t.handle t.holder t.shutdownError fun _ => rfl) rfl
    rfl rfl (fun _ => rfl) (.inl hheld.lock) (.inl hheld.lock),
    hheld.lock, hheld.settled.untouched, hheld.settled.joined⟩

/-- A recorded error is the outcome of the worker. -/
theorem Settled.ended_of_error {error : BackendError} (h : s.Settled)
    (herror : s.shutdownError = some error) :
    s.worker = .ended (.error error) := by
  cases hhandle : s.handle with
  | true =>
      rw [h.untouched hhandle] at herror
      cases herror
  | false =>
      obtain ⟨result, hended, hfailure⟩ := h.joined hhandle
      rw [herror] at hfailure
      cases result with
      | ok _ => cases hfailure
      | error _ =>
          cases hfailure
          exact hended

/-- Without a recorded error the worker has ended well, or nobody has joined it. -/
theorem Settled.ended_of_taken (h : s.Settled) (hhandle : s.handle = false)
    (hnone : s.shutdownError = none) :
    s.worker = .ended (.ok ()) := by
  obtain ⟨result, hended, hfailure⟩ := h.joined hhandle
  rw [hnone] at hfailure
  cases result with
  | ok _ => exact hended
  | error _ => cases hfailure

/-- A shutdown that takes the handle waits for the end of the worker. -/
theorem keeps_join (h : Taken i s) :
    join.Keeps (discipline past) i (fun result u => Taken i u ∧ u.worker = .ended result) s := by
  refine Thread.keeps_atomic fun t hvalid hrely chance result u hop => ?_
  split at hop
  next result' hended =>
    cases hop
    exact ⟨.refl hvalid, h.rely hrely, hended⟩
  next => cases hop

/-- The shutdown that has joined the worker leaves its outcome to the others. -/
theorem keeps_finish {result : BackendResult Unit} (h : Taken i s)
    (hended : s.worker = .ended result) :
    (finish result).Keeps (discipline past) i (fun result u => u.worker = .ended result) s := by
  cases result with
  | ok _ =>
      have hheld : Holding i s := by
        refine ⟨h.lock, fun huntaken => ?_, fun _ => ⟨_, hended, h.none⟩⟩
        rw [h.taken] at huntaken
        cases huntaken
      exact Thread.keeps_bind ((keeps_unlockWorker hheld hended).weaken fun _ _ hdone => hdone)
  | error error =>
      refine Thread.keeps_bind (Thread.keeps_modify fun t hvalid hrely => ?_)
      have htaken : Taken i t := h.rely hrely
      have hended' : t.worker = .ended (.error error) := (hrely.grows.ended _ hended).1
      have hheld : Holding i { t with shutdownError := some error } := by
        refine ⟨htaken.lock, fun huntaken => ?_, fun _ => ⟨_, hended', rfl⟩⟩
        rw [htaken.taken] at huntaken
        cases huntaken
      exact ⟨allows_shutdown hvalid
        (hvalid.1.locked t.sender t.handle t.holder (some error) fun h => h) rfl
        rfl rfl (fun h => h) (.inl htaken.lock) (.inl htaken.lock),
        Thread.keeps_bind ((keeps_unlockWorker hheld hended').weaken fun _ _ hdone => hdone)⟩

theorem keeps_shutdown :
    (shutdown i).Keeps (discipline past) i (fun result u => u.worker = .ended result) s := by
  refine Thread.keeps_bind (keeps_lockWorker.weaken fun _ u hu => ?_)
  refine Thread.keeps_bind ((keeps_close hu).weaken fun _ v hv => ?_)
  refine Thread.keeps_bind (Thread.keeps_modify fun t hvalid hrely => ⟨.refl hvalid, ?_⟩)
  have hheld : Holding i t := hv.rely hrely
  cases herror : t.shutdownError with
  | some error =>
      have hended := hheld.settled.ended_of_error herror
      exact Thread.keeps_bind ((keeps_unlockWorker hheld hended).weaken fun _ _ hdone => hdone)
  | none =>
      refine Thread.keeps_bind (Thread.keeps_modify fun w hvalid' hrely' => ?_)
      have hheld' : Holding i w := hheld.rely hrely'
      have hnone : w.shutdownError = none := (hrely'.lock hheld.lock).2.2.trans herror
      refine ⟨allows_shutdown hvalid'
        (hvalid'.1.locked w.sender false w.holder w.shutdownError fun h => h)
        rfl rfl rfl (fun h => h) (.inl hheld'.lock) (.inl hheld'.lock), ?_⟩
      have htaken : Taken i { w with handle := false } := ⟨hheld'.lock, rfl, hnone⟩
      cases hhandle : w.handle with
      | true =>
          refine Thread.keeps_bind ((keeps_join htaken).weaken ?_)
          rintro result x ⟨hx, hended⟩
          exact keeps_finish hx hended
      | false => exact keeps_finish htaken (hheld'.settled.ended_of_taken hhandle hnone)

end ClipDaemon.Inner
