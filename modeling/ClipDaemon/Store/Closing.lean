import ClipDaemon.Store.Clients
import ClipDaemon.Lib.Alone

/-!
# Whole runs of the queue

Reservations go with the calls in flight, and what was accepted has run when the worker ends.
`drain` adds that nothing keeps the worker from running it.
-/

namespace ClipDaemon.Inner

open ThreadLog

/-! ## Runs -/

/-- What a thread that has returned tells. -/
def Post (past : Inner) (i : Nat) (client : Client) (outcome : Outcome) (s : Inner) : Prop :=
  match client, outcome with
  | .call call, .called result => Called past i call result s
  | .shutdown, .shutDown result => s.worker = .ended result
  | .work, .worked => True
  | _, _ => False

theorem Post.rely {past s t : Inner} {i : Nat} {client : Client} {outcome : Outcome}
    (h : Post past i client outcome s) (hrely : Leaves i s t) : Post past i client outcome t := by
  cases client <;> cases outcome <;> simp only [Post] at h ⊢
  · exact h.rely hrely
  · exact (hrely.grows.ended _ h).1

theorem program_keeps (P : Platform) {past s : Inner} (i : Nat) (client : Client)
    (hfresh : (discipline past).fresh i s) :
    (program P i client).Keeps (discipline past) i
      (fun outcome u => Post past i client outcome u) s := by
  cases client with
  | call call => exact Thread.keeps_bind ((keeps_call call hfresh).weaken fun _ _ h => h)
  | shutdown => exact Thread.keeps_bind (keeps_shutdown.weaken fun _ _ h => h)
  | work =>
      have hworked : (stepWorker P i).Keeps (discipline past) i (fun _ _ => True) s :=
        (each_stepWorker P i).keeps fun _ _ hvalid hstep => allows_worked hvalid hstep
      exact Thread.keeps_bind (hworked.weaken fun _ _ h => h)

theorem service_keeps (P : Platform) (durable : Tables) (moves : List (Pool.Move Client Chance)) :
    (discipline (opened durable)).Keeps (Post (opened durable))
      ((service durable).after (program P) moves) := by
  refine (Discipline.run_keeps
    (fun i client s _ hfresh => program_keeps P i client hfresh) ?_ moves ?_).1
  · exact fun _ _ _ _ _ _ _ hrely hpost => hpost.rely hrely
  · exact Discipline.keeps_start
      ⟨valid_opened durable, fun _ => ⟨fun _ => rfl, fun h => by cases h⟩, .refl _⟩
      fun _ => ⟨rfl, rfl, fun h => by cases h⟩

/-- What a statement does to the reservations. -/
def Reserves (i : Nat) (client : Client) (s t : Inner) : Prop :=
  ∀ job ∈ t.live, job ∈ s.live ∨ (job.thread = i ∧ client = .call job.call)

theorem reserves_refl {i : Nat} {client : Client} {s : Inner} : Reserves i client s s :=
    fun _ h => .inl h

theorem each_reserves (P : Platform) (i : Nat) (client : Client) :
    (program P i client).Each (Reserves i client) := by
  cases client with
  | call request =>
      refine Thread.each_bind ?_ fun _ => trivial
      rw [call]
      split
      · trivial
      refine Thread.each_bind (Thread.each_modify fun s => ?_) fun result => ?_
      · split
        · exact reserves_refl
        · split
          · exact reserves_refl
          · intro job hjob
            rcases List.mem_append.mp hjob with hold | hnew
            · exact .inl hold
            · rw [List.mem_singleton.mp hnew]
              exact .inr ⟨rfl, rfl⟩
      · cases result with
        | error _ => trivial
        | ok _ =>
            refine Thread.each_bind (Thread.each_modify fun s => ?_) fun accepted => ?_
            · split
              · exact reserves_refl
              · exact reserves_refl
            · cases accepted with
              | true =>
                  refine Thread.each_atomic fun chance s result t hop => ?_
                  obtain ⟨_, -, heq⟩ := Option.map_eq_some_iff.mp hop
                  cases heq
                  exact reserves_refl
              | false =>
                  exact Thread.each_bind
                    (Thread.each_modify fun s job hjob => .inl (List.mem_of_mem_filter hjob))
                    fun _ => trivial
  | shutdown =>
      refine Thread.each_bind (Thread.each_bind ?_ fun _ => Thread.each_bind
        (Thread.each_modify fun _ => reserves_refl) fun _ => Thread.each_bind
        (Thread.each_modify fun _ => reserves_refl) fun failed => ?_) fun _ => trivial
      · refine Thread.each_atomic fun chance s _ t hop => ?_
        split at hop
        · cases hop
          exact reserves_refl
        · cases hop
      have hunlock : unlockWorker.Each (Reserves i .shutdown) := Thread.each_modify fun _ =>
        reserves_refl
      have hfinish : ∀ result, (finish result).Each (Reserves i .shutdown) := by
        intro result
        cases result with
        | error error =>
            exact Thread.each_bind (Thread.each_modify fun _ => reserves_refl) fun _ =>
              Thread.each_bind hunlock fun _ => trivial
        | ok _ => exact Thread.each_bind hunlock fun _ => trivial
      cases failed with
      | some error => exact Thread.each_bind hunlock fun _ => trivial
      | none =>
          refine Thread.each_bind (Thread.each_modify fun _ => reserves_refl) fun handle => ?_
          split
          · refine Thread.each_bind (Thread.each_atomic fun chance s result t hop => ?_) hfinish
            split at hop
            · cases hop
              exact reserves_refl
            · cases hop
          · exact hfinish _
  | work =>
      refine Thread.each_bind ((each_stepWorker P i).mono fun s t hstep => ?_) fun _ => trivial
      cases hstep with
      | release job answer _ => exact fun _ hjob => .inl (List.mem_of_mem_filter hjob)
      | _ => exact reserves_refl

/-- A reservation is that of a call that was made. -/
def Attended (p : Pool Inner Chance Client Outcome) : Prop :=
  ∀ job ∈ p.shared.live, ∃ m, p.threads job.thread = some (.call job.call, m)

theorem service_attended (P : Platform) (durable : Tables)
    (moves : List (Pool.Move Client Chance)) :
    Attended ((service durable).after (program P) moves) := by
  induction moves using List.reverseRecOn with
  | nil => exact fun job hjob => by cases hjob
  | append_singleton moves move ih =>
      rw [Pool.after_append]
      have heach := Pool.each_after (each_reserves P) (Pool.each_start (opened durable)) moves
      intro job hjob
      have hthere : ∀ m, ((service durable).after (program P) moves).threads job.thread =
          some (.call job.call, m) → ∃ m', (((service durable).after (program P) moves).step
            (program P) move).threads job.thread = some (.call job.call, m') :=
        fun m hthread => Pool.step_call (program P) move hthread
      rcases (Pool.each_step (each_reserves P) heach move).2
          with heq | ⟨i, client, m, c, -, hthread, hstep⟩
      · have hjob' : job ∈ ((service durable).after (program P) moves).shared.live := heq ▸ hjob
        obtain ⟨m, hthread⟩ := ih job hjob'
        exact hthere m hthread
      · rcases hstep job hjob with hold | ⟨rfl, rfl⟩
        · obtain ⟨m', hthread'⟩ := ih job hold
          exact hthere m' hthread'
        · exact hthere m hthread

/-! ## Draining -/

/-- The steps that the worker has to make until it waits or has ended. -/
def remaining (s : Inner) : Nat :=
  4 * s.queue.length +
    match s.worker with
    | .idle => 2
    | .running _ => 5
    | .releasing _ _ => 4
    | .answering _ _ => 3
    | .closing => 1
    | .ended _ => 0

/-- There is nothing left for the worker. -/
def Drained (s : Inner) : Prop :=
  (s.worker = .idle ∧ s.queue = [] ∧ s.sender = true) ∨ ∃ result, s.worker = .ended result

/-- The worker is not blocked before it has drained the queue, whatever its job meets. -/
theorem progress (P : Platform) (i : Nat) (faults : Faults) (checkpoint : Bool) {s : Inner}
    (h : ¬s.Drained) : ∃ t, (stepWorker P i).Runs s () t ∧ remaining t < remaining s := by
  cases hworker : s.worker with
  | idle =>
      cases hqueue : s.queue with
      | nil =>
          have hclosed : s.sender = false := by
            cases hsender : s.sender with
            | true => exact absurd (.inl ⟨hworker, hqueue, hsender⟩) h
            | false => rfl
          refine ⟨{ s with worker := .closing }, Thread.runs_atomic .none ?_, ?_⟩
          · simp only [hworker, hqueue, hclosed, Bool.false_eq_true, if_false]
          · simp only [remaining, hworker]
            omega
      | cons job queue =>
          refine ⟨{ s with queue := queue, worker := .running job },
            Thread.runs_atomic .none ?_, ?_⟩
          · simp only [hworker, hqueue]
          · simp only [remaining, hworker, hqueue, List.length_cons]
            omega
  | running job =>
      refine ⟨_, Thread.runs_atomic (.job faults) (by simp only [hworker]; rfl), ?_⟩
      simp only [remaining, record, hworker]
      omega
  | releasing job answer =>
      refine ⟨{ drop job s with worker := .answering job answer }, Thread.runs_atomic .none ?_, ?_⟩
      · simp only [hworker]
      · simp only [remaining, drop, hworker]
        omega
  | answering job answer =>
      refine ⟨_, Thread.runs_atomic .none (by simp only [hworker]; rfl), ?_⟩
      simp only [remaining, hworker]
      omega
  | closing =>
      refine ⟨_, Thread.runs_atomic (.shutdown checkpoint faults) (by simp only [hworker]; rfl), ?_⟩
      simp only [remaining, record, hworker]
      omega
  | ended result => exact absurd (.inr ⟨result, hworker⟩) h

/-- A step of the worker accepts nothing. -/
theorem Worked.accepted {P : Platform} {i : Nat} {s t : Inner} (h : Worked P i s t) :
    accepted t.log = accepted s.log ∧ t.sender = s.sender := by
  cases h with
  | run | stop =>
      refine ⟨?_, rfl⟩
      change Inner.accepted (s.log ++ _) = _
      rw [accepted_append]
      exact List.append_nil _
  | _ => exact ⟨rfl, rfl⟩

/-- The worker drains the queue when it is the only one to move. -/
theorem drain (P : Platform) {p : Pool Inner Chance Client Outcome} {n : Nat}
    (hfree : ∀ j, n ≤ j → p.threads j = none) :
    ∃ moves, Drained (p.after (program P) moves).shared ∧
      accepted (p.after (program P) moves).shared.log = accepted p.shared.log ∧
      (p.after (program P) moves).shared.sender = p.shared.sender ∧
      ∀ j, j < n → (p.after (program P) moves).threads j = p.threads j := by
  induction hsize : remaining p.shared using Nat.strong_induction_on generalizing p n with
  | _ size ih =>
      rcases Classical.em (Drained p.shared) with hdrained | hbusy
      · exact ⟨[], hdrained, rfl, rfl, fun _ _ => rfl⟩
      obtain ⟨t, hruns, hless⟩ := progress P n .none true hbusy
      have hstep : accepted t.log = accepted p.shared.log ∧ t.sender = p.shared.sender :=
        ((each_stepWorker P n).mono fun _ _ h => h.accepted).runs hruns (fun _ => ⟨rfl, rfl⟩)
          fun _ _ _ h h' => ⟨h'.1.trans h.1, h'.2.trans h.2⟩
      have hwork : (program P n .work).Runs p.shared .worked t := hruns.bind (Thread.runs_pure _ _)
      obtain ⟨moves, hshared, -, hothers⟩ := Pool.after_of_call (hfree n (Nat.le_refl n)) hwork
      have hfree' : ∀ j, n + 1 ≤ j → (p.after (program P) moves).threads j = none := fun j hj =>
        (hothers j (Nat.ne_of_gt hj)).trans (hfree j (Nat.le_of_succ_le hj))
      obtain ⟨moves', hdrained, haccepted, hsender, hthreads⟩ :=
        ih (remaining t) (hsize ▸ hless) hfree' (by rw [hshared])
      refine ⟨moves ++ moves', ?_⟩
      rw [Pool.after_append]
      rw [hshared] at haccepted hsender
      exact ⟨hdrained, haccepted.trans hstep.1, hsender.trans hstep.2, fun j hj =>
        (hthreads j (Nat.lt_succ_of_lt hj)).trans (hothers j (Nat.ne_of_lt hj))⟩

end ClipDaemon.Inner
