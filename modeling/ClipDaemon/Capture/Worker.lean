import ClipDaemon.Capture.Admission

/-!
# The capture worker

A worker is two threads around one admission gate (`capture/worker.rs`): the capture
thread keeps reopening the gate and running the Wayland loop until it is stopped, and the
ingest thread takes the jobs of a queue of one and submits them.  A third thread stops the
worker: it closes the gate, joins the capture thread and fences.

As for the gate, each atomic access is one step of its thread, and a call on the sink is
one step when it begins and one when it ends.  The sink may succeed, fail or panic, and the
Wayland loop may do anything its session lets it do.  The length of a pause between two
tries does not matter here: a parked thread goes on at any time.
-/

namespace ClipDaemon

namespace Gate

open Admission

/-- What the next access of the thread will show. -/
def event (g : Gate) (i : ThreadId) : Option Event := (advance i g.admission (g.threads i)).2.2

/-- `uncertain.store(true)`, which takes no mutex. -/
def setUncertain (g : Gate) : Gate := { g with admission := { g.admission with uncertain := true } }

end Gate

namespace Capture

open Admission (Op)

/-- How a thread ends. -/
abbrev Result := Except String Unit

/-- How a call on the sink ends. -/
inductive Outcome
  | returned (result : Result)
  | panicked

/-- The threads at a worker's gate. -/
def MAIN : ThreadId := 0
def INGEST : ThreadId := 1
def CONTROL : ThreadId := 2
def FINISHER : ThreadId := 3

/-- The capture thread: `Session::run` and `reconnect`. -/
inductive Main
  /-- Starts the ingest thread. -/
  | starting
  /-- Looks at the stop flag. -/
  | looping
  /-- In `sink.ready`. -/
  | readying
  /-- In `sink.set_admission(true)`. -/
  | admitting
  /-- In `gate.resume`. -/
  | resuming
  /-- In the Wayland loop. -/
  | wayland
  /-- In `gate.close`, with the result of the try. -/
  | closing (result : Result)
  /-- In `gate.fence`. -/
  | fencing (result : Result)
  /-- In `sink.set_admission(false)`. -/
  | revoking (result fence : Result)
  /-- About to store `uncertain`, then to report and leave the loop. -/
  | doubting (error : String)
  | reporting (error : String)
  /-- About to report a failed try and park. -/
  | retrying (error : String)
  | parked
  /-- In the last `sink.set_admission(false)`. -/
  | lastRevoking
  | lastDoubting (error : String)
  | lastReporting (error : String)
  /-- The session is dropped; waits for the ingest thread. -/
  | joining
  | done
  | panicked

/-- Was the session dropped, and with it the sender of the jobs? -/
def Main.dropped : Main → Bool
  | .joining | .done | .panicked => true
  | _ => false

/-- `is_finished` of the thread. -/
def Main.isFinished : Main → Bool
  | .done | .panicked => true
  | _ => false

/-- Has the capture thread started its ingest thread, and not ended? -/
def Main.between : Main → Bool
  | .starting | .done => false
  | _ => true

/-- The ingest thread. -/
inductive Ingest
  | unborn
  /-- In `incoming.recv`. -/
  | receiving
  /-- In `gate.submit`. -/
  | submitting
  | exited
deriving DecidableEq

/-- The thread that runs `Worker::finish`. -/
inductive Finisher
  | none
  /-- About to store the stop flag, then in `gate.close`. -/
  | stopping
  | closing
  | joining
  | fencing
  | finished (result : Result)

/-- A worker, with the session its capture thread runs. -/
structure Worker where
  limit : Nat
  gate : Gate
  stop : Bool
  status : Except String Bool
  /-- What was sent on the `ready` channel. -/
  ready : Option Result
  /-- The generations of the queued jobs. -/
  jobs : List Generation
  main : Main
  ingest : Ingest
  finisher : Finisher

/-- What is seen of a worker. -/
inductive Worker.Event
  /-- `set_admission` was called. -/
  | admissionCalled (enabled : Bool)
  | admissionReturned (outcome : Outcome)
  | ingestStarted
  | ingestEnded (ok : Bool)
  /-- A submission returned an error. -/
  | submitFailed

/-- What the Wayland loop can do with its session. -/
inductive Wayland
  | admits
  /-- The next access of `admit`. -/
  | step
  /-- `jobs.try_send`. -/
  | send (generation : Generation)
  | reportOk
  | leave (result : Result)
  | panic

/-- What the threads of a worker do. -/
inductive Move
  /-- The capture thread goes on. -/
  | main
  /-- The ingest thread could be started, or not. -/
  | spawn (ok : Bool)
  /-- The capture thread's call on the sink ends. -/
  | sink (outcome : Outcome)
  | wayland (activity : Wayland)
  /-- The ingest thread goes on. -/
  | ingest
  /-- `sink.ingest` returns, or it returns an error or panics. -/
  | ingestEnds (ok : Bool)
  /-- The finishing thread goes on. -/
  | finisher

/-- What a controller does to a worker: `Worker::state` and `Worker::close`. -/
inductive Touch
  | storeStop
  | call (op : Op)
  /-- The next access of that call. -/
  | step
  /-- The worker is handed to a thread that finishes it. -/
  | finish

/-- The error of `verified_submission`. -/
def UNCERTAIN : String :=
  "Capture submission outcome is uncertain; engine recovery is required"

/-- What a fence or a resume returned. -/
def verified (ok : Bool) : Result := if ok then .ok () else .error UNCERTAIN

namespace Worker

/-- `Worker::start`. -/
def start (limit : Nat) : Worker where
  limit
  gate := .init
  stop := false
  status := .error "Capture is starting"
  ready := none
  jobs := []
  main := .starting
  ingest := .unborn
  finisher := .none

/-- A worker that was not started. -/
def absent : Worker := { start 0 with main := .done }

/-- `Session::report`.  Nobody looks at both the status and the channel, so this is one step. -/
def report (w : Worker) (result : Result) : Worker :=
  { w with status := result.map fun _ => false, ready := w.ready.or (some result) }

/-- The capture thread leaves its try and closes the gate. -/
def leaveTry (w : Worker) (result : Result) : Worker :=
  { w with gate := w.gate.call MAIN .close, main := .closing result }

/-- The capture thread outside the sink and the Wayland loop. -/
def stepMain (w : Worker) : Worker × Option Event :=
  match w.main with
  | .looping =>
      if w.stop then ({ w with main := .lastRevoking }, some (.admissionCalled false))
      else ({ w with main := .readying }, none)
  | .resuming =>
      match w.gate.event MAIN with
      | some (.resumed _ true) =>
          ({ w with gate := w.gate.stepThread MAIN, main := .wayland }, none)
      | some (.resumed _ false) =>
          ({ w with gate := w.gate.stepThread MAIN }.leaveTry (.error UNCERTAIN), none)
      | _ => ({ w with gate := w.gate.stepThread MAIN }, none)
  | .closing result =>
      match w.gate.event MAIN with
      | some (.closed _) =>
          ({ w with gate := (w.gate.stepThread MAIN).call MAIN .fence, main := .fencing result },
            none)
      | _ => ({ w with gate := w.gate.stepThread MAIN }, none)
  | .fencing result =>
      match w.gate.event MAIN with
      | some (.fenced _ ok) =>
          ({ w with gate := w.gate.stepThread MAIN, main := .revoking result (verified ok) },
            some (.admissionCalled false))
      | _ => ({ w with gate := w.gate.stepThread MAIN }, none)
  | .doubting error => ({ w with gate := w.gate.setUncertain, main := .reporting error }, none)
  | .reporting error =>
      ({ w.report (.error error) with main := .lastRevoking }, some (.admissionCalled false))
  | .retrying error => ({ w.report (.error error) with main := .parked }, none)
  | .parked => ({ w with main := .looping }, none)
  | .lastDoubting error =>
      ({ w with gate := w.gate.setUncertain, main := .lastReporting error }, none)
  | .lastReporting error => ({ w.report (.error error) with main := .joining }, none)
  | .joining => (if w.ingest = .exited then { w with main := .done } else w, none)
  | _ => (w, none)

/-- The ingest thread is started, or the worker gives up. -/
def spawn (w : Worker) (ok : Bool) : Worker :=
  match w.main with
  | .starting =>
      if ok then { w with main := .looping, ingest := .receiving }
      else { w.report (.error "Could not start capture ingest worker") with main := .done }
  | _ => w

/-- After the fence and the last answer of `set_admission(false)`. -/
def afterRevoke (result fence admission : Result) : Main :=
  match fence, admission with
  | .error error, _ => .doubting error
  | .ok (), .error error => .doubting error
  | .ok (), .ok () =>
      match result with
      | .ok () => .parked
      | .error error => .retrying error

/-- The call of the capture thread on the sink ends. -/
def sinkEnds (w : Worker) (outcome : Outcome) : Worker × Option Event :=
  match w.main, outcome with
  | .readying, .returned (.ok ()) => ({ w with main := .admitting }, some (.admissionCalled true))
  | .readying, .returned (.error error) => (w.leaveTry (.error error), none)
  | .readying, .panicked => ({ w with main := .panicked }, none)
  | .admitting, .returned (.ok ()) =>
      ({ w with gate := w.gate.call MAIN .resume, main := .resuming },
        some (.admissionReturned outcome))
  | .admitting, .returned (.error error) =>
      (w.leaveTry (.error error), some (.admissionReturned outcome))
  | .revoking result fence, .returned admission =>
      ({ w with main := afterRevoke result fence admission }, some (.admissionReturned outcome))
  | .lastRevoking, .returned (.ok ()) =>
      ({ w with main := .joining }, some (.admissionReturned outcome))
  | .lastRevoking, .returned (.error error) =>
      ({ w with main := .lastDoubting error }, some (.admissionReturned outcome))
  | .admitting, .panicked | .revoking _ _, .panicked | .lastRevoking, .panicked =>
      ({ w with main := .panicked }, some (.admissionReturned outcome))
  | _, _ => (w, none)

/-- A queue of one, as long as the ingest thread can receive. -/
def trySend (w : Worker) (generation : Generation) : Worker :=
  if w.jobs = [] ∧ w.ingest ≠ .exited ∧ w.gate.allowed (.submit generation) then
    { w with jobs := [generation] }
  else w

/-- The Wayland loop does something. -/
def stepWayland (w : Worker) (activity : Wayland) : Worker :=
  match w.main with
  | .wayland =>
      match activity with
      | .admits => { w with gate := w.gate.call MAIN .admits }
      | .step => { w with gate := w.gate.stepThread MAIN }
      | .send generation => w.trySend generation
      | .reportOk => w.report (.ok ())
      | .leave result => if w.gate.threads MAIN = .idle then w.leaveTry result else w
      | .panic => { w with main := .panicked }
  | _ => w

/-- The ingest thread goes on. -/
def stepIngest (w : Worker) : Worker × Option Event :=
  match w.ingest with
  | .receiving =>
      match w.jobs with
      | generation :: jobs =>
          ({ w with jobs, gate := w.gate.call INGEST (.submit generation), ingest := .submitting },
            none)
      | [] => (if w.main.dropped then { w with ingest := .exited } else w, none)
  | .submitting =>
      match w.gate.event INGEST with
      | some (.rejected _ _) =>
          ({ w with gate := w.gate.stepThread INGEST, ingest := .receiving }, none)
      | some (.started _ _) => ({ w with gate := w.gate.stepThread INGEST }, some .ingestStarted)
      | some (.failed _) =>
          ({ w with gate := w.gate.stepThread INGEST, ingest := .exited }, some .submitFailed)
      | _ => ({ w with gate := w.gate.stepThread INGEST }, none)
  | _ => (w, none)

/-- Is an ingest call in progress? -/
def Ingesting (w : Worker) : Prop := ∃ i generation, w.gate.threads i = .running generation

/-- The ingest call ends. -/
def ingestEnds (w : Worker) (ok : Bool) : Worker × Option Event :=
  match w.gate.threads INGEST with
  | .running _ =>
      if ok then
        ({ w with gate := w.gate.finish INGEST true, ingest := .receiving },
          some (.ingestEnded true))
      else ({ w with gate := w.gate.finish INGEST false }, some (.ingestEnded false))
  | _ => (w, none)

/-- `Worker::finish`. -/
def stepFinisher (w : Worker) : Worker :=
  match w.finisher with
  | .stopping =>
      { w with stop := true, gate := w.gate.call FINISHER .close, finisher := .closing }
  | .closing =>
      match w.gate.event FINISHER with
      | some (.closed _) => { w with gate := w.gate.stepThread FINISHER, finisher := .joining }
      | _ => { w with gate := w.gate.stepThread FINISHER }
  | .joining =>
      match w.main with
      | .done => { w with gate := w.gate.call FINISHER .fence, finisher := .fencing }
      | .panicked => { w with finisher := .finished (.error "Capture worker panicked") }
      | _ => w
  | .fencing =>
      match w.gate.event FINISHER with
      | some (.fenced _ ok) =>
          { w with gate := w.gate.stepThread FINISHER, finisher := .finished (verified ok) }
      | _ => { w with gate := w.gate.stepThread FINISHER }
  | _ => w

/-- One step of a thread of the worker, and what others see of it. -/
def move (w : Worker) : Move → Worker × Option Event
  | .main => w.stepMain
  | .spawn ok => (w.spawn ok, none)
  | .sink outcome => w.sinkEnds outcome
  | .wayland activity => (w.stepWayland activity, none)
  | .ingest => w.stepIngest
  | .ingestEnds ok => w.ingestEnds ok
  | .finisher => (w.stepFinisher, none)

/-- What the controller does to the worker. -/
def touch (w : Worker) : Touch → Worker
  | .storeStop => { w with stop := true }
  | .call op => { w with gate := w.gate.call CONTROL op }
  | .step => { w with gate := w.gate.stepThread CONTROL }
  | .finish => { w with finisher := .stopping }

end Worker

end Capture

/-! ## The gate of a worker -/

namespace Admission

/-- Is the thread in a submission? -/
def Local.submits : Local → Bool
  | .submitLock _ | .submitOpen _ | .submitGeneration _ | .running _ | .failUncertain | .failOpen
  | .failGeneration => true
  | _ => false

/-- Is the thread recording the failure of its closure, at any stage? -/
def Local.failing : Local → Bool
  | .failUncertain | .failOpen | .failGeneration => true
  | _ => false

/-- Does the call submit? -/
def Op.submits : Op → Bool
  | .submit _ => true
  | _ => false

section Access

variable {i : ThreadId} {a a' : Admission} {l l' : Local} {e : Option Event}

/-- A thread that does not submit leaves the flag alone. -/
theorem Access.not_submits (h : Access i a l a' l' e) (hl : l.submits = false) :
    l'.submits = false ∧ a'.uncertain = a.uncertain := by
  cases h with
  | stay => exact ⟨hl, rfl⟩
  | submitLock => cases hl
  | submitOpen => cases hl
  | notOpen => cases hl
  | started => cases hl
  | notCurrent => cases hl
  | failUncertain => cases hl
  | failOpen => cases hl
  | failed => cases hl
  | _ => exact ⟨rfl, rfl⟩

theorem Access.uncertain_mono (h : Access i a l a' l' e) (huncertain : a.uncertain = true) :
    a'.uncertain = true := by
  cases h with
  | failUncertain => rfl
  | _ => exact huncertain

/-- The flags are raised in order. -/
theorem Access.recorded (h : Access i a l a' l' e) (hl : l.failing = true → l.Fails a)
    (hl' : l'.failing = true) : l'.Fails a' := by
  cases h with
  | stay => exact hl hl'
  | failUncertain => rfl
  | failOpen => exact ⟨hl rfl, rfl⟩
  | _ => cases hl'

/-- A generation is handed out when the gate is open. -/
theorem Access.opens (h : Access i a l a' l' e) {j : ThreadId} {g : Generation}
    (he : e = some (.admitted j (some g))) : a.isOpen = true := by
  cases h with
  | admitted _ hopen => exact hopen
  | _ => cases he

/-- A call that returns leaves its thread idle. -/
theorem Access.idle_of_event {ev : Event} (h : Access i a l a' l' (some ev))
    (hnot : ∀ j g, ev ≠ .started j g) : l' = .idle := by
  cases h with
  | started g => exact absurd rfl (hnot i g)
  | _ => rfl

/-- A failed submission returns when the failure is recorded. -/
theorem Access.fails (h : Access i a l a' l' e) {j : ThreadId} (he : e = some (.failed j)) :
    l = .failGeneration ∧ a' = { a.increment with submission := none } ∧ l' = .idle := by
  cases h with
  | failed => exact ⟨rfl, rfl, rfl⟩
  | _ => cases he

end Access

end Admission

namespace Gate

open Admission Capture

variable {g g' : Gate}

/-- Only the ingest thread submits, and a failure is recorded in order. -/
structure Guarded (g : Gate) : Prop where
  ordered : g.Ordered
  single : ∀ i, i ≠ INGEST → (g.threads i).submits = false
  recorded : ∀ i, (g.threads i).failing = true → (g.threads i).Fails g.admission

theorem guarded_init : Guarded init where
  ordered := ordered_init
  single _ _ := rfl
  recorded _ h := by cases h

theorem failing_holds {l : Local} (h : l.failing = true) : l.holds = true := by
  cases l <;> first | rfl | cases h

theorem Guarded.stepThread (h : g.Guarded) (i : ThreadId) : (g.stepThread i).Guarded where
  ordered := h.ordered.stepThread i
  single j hj := by
    have haccess := advance_access i g.admission (g.threads i)
    simp only [Gate.stepThread]
    by_cases hji : j = i
    · subst hji
      rw [Function.update_self]
      exact (haccess.not_submits (h.single j hj)).1
    · rw [Function.update_of_ne hji]
      exact h.single j hj
  recorded j hj := by
    have haccess := advance_access i g.admission (g.threads i)
    simp only [Gate.stepThread] at hj ⊢
    by_cases hji : j = i
    · subst hji
      rw [Function.update_self] at hj ⊢
      exact haccess.recorded (h.recorded j) hj
    · rw [Function.update_of_ne hji] at hj ⊢
      have hholds := failing_holds hj
      obtain ⟨huncertain, hopen, -⟩ := haccess.outside (h.ordered.holds_eq_false hholds hji)
        (by rw [(h.ordered.holder j).mp hholds]; simp)
      exact (h.recorded j hj).mono huncertain.trans hopen

theorem Guarded.call (h : g.Guarded) {i : ThreadId} {op : Op}
    (hop : op.submits = true → i = INGEST) : (g.call i op).Guarded := by
  refine ⟨h.ordered.call i op, fun j hj => ?_, fun j hj => ?_⟩
  · unfold Gate.call
    split
    · show (Function.update g.threads i op.enter j).submits = false
      by_cases hji : j = i
      · subst hji
        rw [Function.update_self]
        cases op with
        | submit => exact absurd (hop rfl) hj
        | _ => rfl
      · rw [Function.update_of_ne hji]
        exact h.single j hj
    · exact h.single j hj
  · unfold Gate.call at hj ⊢
    split at hj
    next hcall =>
      rw [if_pos hcall]
      simp only at hj ⊢
      by_cases hji : j = i
      · subst hji
        rw [Function.update_self] at hj
        cases op <;> cases hj
      · rw [Function.update_of_ne hji] at hj ⊢
        exact h.recorded j hj
    next hcall =>
      rw [if_neg hcall]
      exact h.recorded j hj

theorem Guarded.finish (h : g.Guarded) (ok : Bool) : (g.finish INGEST ok).Guarded := by
  refine ⟨h.ordered.finish INGEST ok, fun j hj => ?_, fun j hj => ?_⟩
  · unfold Gate.finish
    split
    · split
      · simp only [Function.update_of_ne hj]
        exact h.single j hj
      · simp only [Function.update_of_ne hj]
        exact h.single j hj
    · exact h.single j hj
  · -- another thread is not failing, since the ingest thread holds the mutex
    have hother : j ≠ INGEST → (g.threads j).failing = true → (g.threads j).Fails g.admission :=
      fun _ hfailing => h.recorded j hfailing
    by_cases hji : j = INGEST
    · subst hji
      unfold Gate.finish at hj ⊢
      split at hj
      next gen hrunning =>
        cases ok with
        | true => simp only [if_true, Function.update_self] at hj; cases hj
        | false => simp [Local.Fails]
      next hnot => exact h.recorded _ hj
    · unfold Gate.finish at hj ⊢
      split at hj
      next gen hrunning =>
        cases ok with
        | true =>
            simp only [if_true, Function.update_of_ne hji] at hj ⊢
            exact (hother hji hj).mono id id
        | false =>
            simp only [Bool.false_eq_true, if_false, Function.update_of_ne hji] at hj ⊢
            exact hother hji hj
      next hnot => exact h.recorded _ hj

theorem Guarded.setUncertain (h : g.Guarded) : g.setUncertain.Guarded where
  ordered := ⟨h.ordered.wrapped, h.ordered.holder, h.ordered.issued, h.ordered.admitted⟩
  single := h.single
  recorded j hj := (h.recorded j hj).mono (fun _ => rfl) id

theorem Failed.setUncertain (h : g.Failed) : g.setUncertain.Failed := ⟨rfl, h.2.1, h.2.2⟩

/-- What every change of a worker's gate keeps. -/
structure Kept (g g' : Gate) : Prop where
  guarded : g.Guarded → g'.Guarded
  failed : g.Failed → g'.Failed
  doomed : g.Guarded → g.Doomed → g'.Doomed
  uncertain : g.admission.uncertain = true → g'.admission.uncertain = true

theorem Kept.refl (g : Gate) : Kept g g := ⟨id, id, fun _ => id, id⟩

theorem Kept.trans {g'' : Gate} (h : Kept g g') (h' : Kept g' g'') : Kept g g'' where
  guarded hg := h'.guarded (h.guarded hg)
  failed hf := h'.failed (h.failed hf)
  doomed hg hd := h'.doomed (h.guarded hg) (h.doomed hg hd)
  uncertain hu := h'.uncertain (h.uncertain hu)

theorem kept_stepThread (g : Gate) (i : ThreadId) : Kept g (g.stepThread i) where
  guarded h := h.stepThread i
  failed h := h.stepThread i
  doomed hg h := (h.access hg.ordered i).1
  uncertain h := (advance_access i g.admission (g.threads i)).uncertain_mono h

theorem call_admission (g : Gate) (i : ThreadId) (op : Op) :
    (g.call i op).admission = g.admission := by
  unfold Gate.call
  split <;> rfl

theorem kept_call (g : Gate) {i : ThreadId} {op : Op} (hop : op.submits = true → i = INGEST) :
    Kept g (g.call i op) where
  guarded h := h.call hop
  failed h := h.call i op
  doomed _ h := h.call i op
  uncertain h := by rw [call_admission]; exact h

theorem finish_uncertain (g : Gate) (i : ThreadId) (ok : Bool) :
    (g.finish i ok).admission.uncertain = g.admission.uncertain := by
  unfold Gate.finish
  split
  · split <;> rfl
  · rfl

theorem kept_finish (g : Gate) (ok : Bool) : Kept g (g.finish INGEST ok) where
  guarded h := h.finish ok
  failed h := h.finish INGEST ok
  doomed hg h := h.finish hg.ordered INGEST ok
  uncertain h := by rw [finish_uncertain]; exact h

theorem kept_setUncertain (g : Gate) : Kept g g.setUncertain where
  guarded h := h.setUncertain
  failed h := h.setUncertain
  doomed _ h := by
    rcases h with ⟨j, hj⟩ | hfailed
    · exact .inl ⟨j, hj.mono (fun _ => rfl) id⟩
    · exact .inr hfailed.setUncertain
  uncertain _ := rfl

/-! ### Threads other than the ingest thread -/

/-- Accesses and calls of threads that do not submit. -/
inductive Outside : Gate → Gate → Prop
  | refl (g : Gate) : Outside g g
  | step {g g' : Gate} {i : ThreadId} : i ≠ INGEST → Outside g g' → Outside g (g'.stepThread i)
  | call {g g' : Gate} {i : ThreadId} {op : Op} : i ≠ INGEST → op.submits = false →
      Outside g g' → Outside g (g'.call i op)

theorem Outside.kept (h : Outside g g') : Kept g g' := by
  induction h with
  | refl => exact .refl _
  | step _ _ ih => exact ih.trans (kept_stepThread _ _)
  | call _ hop _ ih => exact ih.trans (kept_call _ fun hyes => by rw [hop] at hyes; cases hyes)

theorem Outside.ingest (h : Outside g g') : g'.threads INGEST = g.threads INGEST := by
  induction h with
  | refl => rfl
  | step hi _ ih => rw [← ih]; exact Function.update_of_ne (Ne.symm hi) _ _
  | call hi _ _ ih =>
      rw [← ih, Gate.call]
      split
      · exact Function.update_of_ne (Ne.symm hi) _ _
      · rfl

theorem Outside.uncertain (h : Outside g g') (hg : g.Guarded) :
    g'.admission.uncertain = g.admission.uncertain := by
  induction h with
  | refl => rfl
  | @step g' i hi hprev ih =>
      have haccess := advance_access i g'.admission (g'.threads i)
      exact (haccess.not_submits ((hprev.kept.guarded hg).single i hi)).2.trans ih
  | call _ _ _ ih => rw [call_admission]; exact ih

/-- What the next access of a thread shows was seen in its state. -/
theorem event_access (g : Gate) (i : ThreadId) :
    Access i g.admission (g.threads i) (g.stepThread i).admission ((g.stepThread i).threads i)
      (g.event i) := by
  have haccess := advance_access i g.admission (g.threads i)
  simp only [Gate.stepThread, Function.update_self]
  exact haccess

/-- When a submission returned an error, the failure is recorded. -/
theorem failed_of_event (hg : g.Guarded) {i j : ThreadId} (he : g.event i = some (.failed j)) :
    (g.stepThread i).Failed := by
  obtain ⟨hl, ha, hidle⟩ := (g.event_access i).fails he
  have hfails : (g.threads i).Fails g.admission := hg.recorded i (by rw [hl]; rfl)
  have hholds : (g.threads i).holds = true := hfails.holds
  rw [hl] at hfails
  refine ⟨by rw [ha]; exact hfails.1, by rw [ha]; exact hfails.2, fun k => ?_⟩
  by_cases hk : k = i
  · rw [hk, hidle]
    rfl
  · simp only [Gate.stepThread, Function.update_of_ne hk]
    exact hg.ordered.passed_eq_false hholds hk

end Gate

/-! ## What every move keeps -/

namespace Capture

namespace Worker

variable {w : Worker}

theorem leaveTry_outside (w : Worker) (result : Result) :
    w.gate.Outside (w.leaveTry result).gate :=
  .call (by decide) rfl (.refl _)

/-- The capture thread changes the gate from outside, or it raises the flag. -/
theorem stepMain_gate (w : Worker) :
    w.gate.Outside w.stepMain.1.gate ∨ w.stepMain.1.gate = w.gate.setUncertain := by
  have hmain : MAIN ≠ INGEST := by decide
  unfold stepMain
  split
  · split <;> exact .inl (.refl _)
  · split
    · exact .inl (.step hmain (.refl _))
    · exact .inl (.call hmain rfl (.step hmain (.refl _)))
    · exact .inl (.step hmain (.refl _))
  · split
    · exact .inl (.call hmain rfl (.step hmain (.refl _)))
    · exact .inl (.step hmain (.refl _))
  · split
    · exact .inl (.step hmain (.refl _))
    · exact .inl (.step hmain (.refl _))
  · exact .inr rfl
  · exact .inl (.refl _)
  · exact .inl (.refl _)
  · exact .inl (.refl _)
  · exact .inr rfl
  · exact .inl (.refl _)
  · split <;> exact .inl (.refl _)
  · exact .inl (.refl _)

theorem sinkEnds_gate (w : Worker) (outcome : Outcome) :
    w.gate.Outside (w.sinkEnds outcome).1.gate := by
  unfold sinkEnds
  split
  · exact .refl _
  · exact w.leaveTry_outside _
  · exact .refl _
  · exact .call (by decide) rfl (.refl _)
  · exact w.leaveTry_outside _
  all_goals exact .refl _

theorem stepWayland_gate (w : Worker) (activity : Wayland) :
    w.gate.Outside (w.stepWayland activity).gate := by
  have hmain : MAIN ≠ INGEST := by decide
  unfold stepWayland
  split
  · cases activity with
    | admits => exact .call hmain rfl (.refl _)
    | step => exact .step hmain (.refl _)
    | send generation =>
        show w.gate.Outside (w.trySend generation).gate
        unfold trySend
        split <;> exact .refl _
    | reportOk => exact .refl _
    | leave result =>
        show w.gate.Outside (ite _ _ _ : Worker).gate
        split
        · exact w.leaveTry_outside _
        · exact .refl _
    | panic => exact .refl _
  · exact .refl _

theorem spawn_gate (w : Worker) (ok : Bool) : (w.spawn ok).gate = w.gate := by
  unfold spawn
  split
  · split <;> rfl
  · rfl

theorem stepFinisher_gate (w : Worker) : w.gate.Outside w.stepFinisher.gate := by
  have hfinisher : FINISHER ≠ INGEST := by decide
  unfold stepFinisher
  split
  · exact .call hfinisher rfl (.refl _)
  · split <;> exact .step hfinisher (.refl _)
  · split
    · exact .call hfinisher rfl (.refl _)
    · exact .refl _
    · exact .refl _
  · split <;> exact .step hfinisher (.refl _)
  · exact .refl _

theorem stepIngest_kept (w : Worker) : Gate.Kept w.gate w.stepIngest.1.gate := by
  unfold stepIngest
  split
  · split
    · exact Gate.kept_call _ fun _ => rfl
    · split <;> exact .refl _
  · split <;> exact Gate.kept_stepThread _ _
  · exact .refl _

theorem ingestEnds_kept (w : Worker) (ok : Bool) : Gate.Kept w.gate (w.ingestEnds ok).1.gate := by
  unfold ingestEnds
  split
  · split <;> exact Gate.kept_finish _ _
  · exact .refl _

theorem move_kept (w : Worker) (m : Move) : Gate.Kept w.gate (w.move m).1.gate := by
  cases m with
  | main =>
      rcases w.stepMain_gate with h | h
      · exact h.kept
      · show Gate.Kept w.gate w.stepMain.1.gate
        rw [h]
        exact Gate.kept_setUncertain _
  | spawn ok =>
      show Gate.Kept w.gate (w.spawn ok).gate
      rw [spawn_gate]
      exact .refl _
  | sink outcome => exact (w.sinkEnds_gate outcome).kept
  | wayland activity => exact (w.stepWayland_gate activity).kept
  | ingest => exact w.stepIngest_kept
  | ingestEnds ok => exact w.ingestEnds_kept ok
  | finisher => exact w.stepFinisher_gate.kept

theorem touch_gate (w : Worker) (t : Touch) (ht : ∀ op, t = .call op → op.submits = false) :
    w.gate.Outside (w.touch t).gate := by
  have hcontrol : CONTROL ≠ INGEST := by decide
  cases t with
  | storeStop => exact .refl _
  | call op => exact .call hcontrol (ht op rfl) (.refl _)
  | step => exact .step hcontrol (.refl _)
  | finish => exact .refl _

/-! ### Which fields a move changes -/

/-- The capture thread moves. -/
structure Moves (w w' : Worker) : Prop where
  ingest : w'.ingest = w.ingest
  finisher : w'.finisher = w.finisher
  main : w'.main = w.main ∨ w'.main.between = true ∨ w.ingest = .exited ∧ w'.main = .done

theorem Moves.stay {w' : Worker} (hingest : w'.ingest = w.ingest)
    (hfinisher : w'.finisher = w.finisher) (hmain : w'.main = w.main) : Moves w w' :=
  ⟨hingest, hfinisher, .inl hmain⟩

theorem Moves.to {w' : Worker} (hingest : w'.ingest = w.ingest)
    (hfinisher : w'.finisher = w.finisher) (hmain : w'.main.between = true) : Moves w w' :=
  ⟨hingest, hfinisher, .inr (.inl hmain)⟩

theorem stepMain_moves (w : Worker) : Moves w w.stepMain.1 := by
  unfold stepMain
  split
  · split <;> exact .to rfl rfl rfl
  · split
    · exact .to rfl rfl rfl
    · exact .to rfl rfl rfl
    · exact .stay rfl rfl rfl
  · split
    · exact .to rfl rfl rfl
    · exact .stay rfl rfl rfl
  · split
    · exact .to rfl rfl rfl
    · exact .stay rfl rfl rfl
  · exact .to rfl rfl rfl
  · exact .to rfl rfl rfl
  · exact .to rfl rfl rfl
  · exact .to rfl rfl rfl
  · exact .to rfl rfl rfl
  · exact .to rfl rfl rfl
  · split
    next hexited => exact ⟨rfl, rfl, .inr (.inr ⟨hexited, rfl⟩)⟩
    · exact .stay rfl rfl rfl
  · exact .stay rfl rfl rfl

theorem afterRevoke_between (result fence admission : Result) :
    (afterRevoke result fence admission).between = true := by
  unfold afterRevoke
  split
  · rfl
  · rfl
  · split <;> rfl

theorem sinkEnds_moves (w : Worker) (outcome : Outcome) : Moves w (w.sinkEnds outcome).1 := by
  unfold sinkEnds
  split
  case h_6 => exact .to rfl rfl (afterRevoke_between _ _ _)
  case h_12 => exact .stay rfl rfl rfl
  all_goals exact .to rfl rfl rfl

theorem stepWayland_moves (w : Worker) (activity : Wayland) : Moves w (w.stepWayland activity) := by
  unfold stepWayland
  split
  · cases activity with
    | admits => exact .stay rfl rfl rfl
    | step => exact .stay rfl rfl rfl
    | send generation =>
        show Moves w (w.trySend generation)
        unfold trySend
        split <;> exact .stay rfl rfl rfl
    | reportOk => exact .stay rfl rfl rfl
    | leave result =>
        show Moves w (ite _ _ _)
        split
        · exact .to rfl rfl rfl
        · exact .stay rfl rfl rfl
    | panic => exact .to rfl rfl rfl
  · exact .stay rfl rfl rfl

theorem stepIngest_main (w : Worker) :
    w.stepIngest.1.main = w.main ∧ w.stepIngest.1.finisher = w.finisher := by
  unfold stepIngest
  split
  · split
    · exact ⟨rfl, rfl⟩
    · split <;> exact ⟨rfl, rfl⟩
  · split <;> exact ⟨rfl, rfl⟩
  · exact ⟨rfl, rfl⟩

theorem ingestEnds_main (w : Worker) (ok : Bool) :
    (w.ingestEnds ok).1.main = w.main ∧ (w.ingestEnds ok).1.finisher = w.finisher := by
  unfold ingestEnds
  split
  · split <;> exact ⟨rfl, rfl⟩
  · exact ⟨rfl, rfl⟩

theorem stepFinisher_main (w : Worker) :
    w.stepFinisher.main = w.main ∧ w.stepFinisher.ingest = w.ingest := by
  unfold stepFinisher
  split
  · exact ⟨rfl, rfl⟩
  · split <;> exact ⟨rfl, rfl⟩
  · split <;> exact ⟨rfl, rfl⟩
  · split <;> exact ⟨rfl, rfl⟩
  · exact ⟨rfl, rfl⟩

/-! ### The invariant of a worker -/

/-- The threads of a worker are in step with each other. -/
structure Sound (w : Worker) : Prop where
  gate : w.gate.Guarded
  idle : w.ingest ≠ .submitting → w.gate.threads INGEST = .idle
  unborn : w.main = .starting → w.ingest = .unborn
  joined : w.main = .done → w.ingest = .unborn ∨ w.ingest = .exited
  fencing : w.finisher = .fencing → w.main = .done
  verified : w.finisher = .finished (.ok ()) →
    w.main = .done ∧ w.gate.admission.uncertain = false

/-- The worker is stopped, and every submission is accounted for. -/
def Clean (w : Worker) : Prop := w.main = .done ∧ w.gate.admission.uncertain = false

theorem sound_start (limit : Nat) : (start limit).Sound where
  gate := Gate.guarded_init
  idle _ := rfl
  unborn _ := rfl
  joined h := by cases h
  fencing h := by cases h
  verified h := by cases h

theorem sound_absent : absent.Sound where
  gate := Gate.guarded_init
  idle _ := rfl
  unborn h := by cases h
  joined _ := .inl rfl
  fencing h := by cases h
  verified h := by cases h

theorem clean_absent : absent.Clean := ⟨rfl, rfl⟩

/-- The capture thread of a worker that is still running moves. -/
theorem Sound.moves (h : w.Sound) {w' : Worker} (hmoves : Moves w w') (hmain : w.main ≠ .done)
    (hgate : w'.gate.Guarded) (hthread : w'.gate.threads INGEST = w.gate.threads INGEST) :
    w'.Sound where
  gate := hgate
  idle hi := by
    rw [hmoves.ingest] at hi
    rw [hthread]
    exact h.idle hi
  unborn hs := by
    rw [hmoves.ingest]
    rcases hmoves.main with hm | hm | ⟨-, hm⟩
    · exact h.unborn (hm.symm.trans hs)
    · rw [hs] at hm
      cases hm
    · rw [hs] at hm
      cases hm
  joined hd := by
    rw [hmoves.ingest]
    rcases hmoves.main with hm | hm | ⟨hexited, -⟩
    · exact absurd (hm.symm.trans hd) hmain
    · rw [hd] at hm
      cases hm
    · exact .inr hexited
  fencing hf := absurd (h.fencing (hmoves.finisher.symm.trans hf)) hmain
  verified hf := absurd (h.verified (hmoves.finisher.symm.trans hf)).1 hmain

/-- The ingest thread of a worker that is still running moves. -/
theorem Sound.ingests (h : w.Sound) {w' : Worker} (hmain : w'.main = w.main)
    (hfinisher : w'.finisher = w.finisher) (hnot : w.main ≠ .done)
    (hgate : w'.gate.Guarded) (hidle : w'.ingest ≠ .submitting → w'.gate.threads INGEST = .idle)
    (hunborn : w.ingest = .unborn → w'.ingest = .unborn) : w'.Sound where
  gate := hgate
  idle := hidle
  unborn hs := hunborn (h.unborn (hmain.symm.trans hs))
  joined hd := absurd (hmain.symm.trans hd) hnot
  fencing hf := absurd (h.fencing (hfinisher.symm.trans hf)) hnot
  verified hf := absurd (h.verified (hfinisher.symm.trans hf)).1 hnot

/-- Once the capture thread has ended, only the finishing thread moves. -/
theorem Sound.move_of_done (h : w.Sound) (hdone : w.main = .done) {m : Move}
    (hm : m ≠ .finisher) : w.move m = (w, none) := by
  cases m with
  | main =>
      show w.stepMain = (w, none)
      rw [stepMain, hdone]
  | spawn ok =>
      show (w.spawn ok, none) = (w, none)
      rw [spawn, hdone]
  | sink outcome =>
      show w.sinkEnds outcome = (w, none)
      unfold sinkEnds
      rw [hdone]
  | wayland activity =>
      show (w.stepWayland activity, none) = (w, none)
      unfold stepWayland
      rw [hdone]
  | ingest =>
      show w.stepIngest = (w, none)
      rcases h.joined hdone with hi | hi
      · rw [stepIngest, hi]
      · rw [stepIngest, hi]
  | ingestEnds ok =>
      have hidle : w.gate.threads INGEST = .idle :=
        h.idle fun hs => by rcases h.joined hdone with hi | hi <;> rw [hs] at hi <;> cases hi
      show w.ingestEnds ok = (w, none)
      rw [ingestEnds, hidle]
  | finisher => exact absurd rfl hm

theorem event_idle {g : Gate} {i : ThreadId} {e : Admission.Event} (he : g.event i = some e)
    (hnot : ∀ j gen, e ≠ .started j gen) : (g.stepThread i).threads i = .idle := by
  have haccess := g.event_access i
  rw [he] at haccess
  exact haccess.idle_of_event hnot

theorem Sound.stepIngest (h : w.Sound) (hnot : w.main ≠ .done) : w.stepIngest.1.Sound := by
  obtain ⟨hmain, hfinisher⟩ := w.stepIngest_main
  refine h.ingests hmain hfinisher hnot (w.stepIngest_kept.guarded h.gate) ?_ ?_
  · unfold Worker.stepIngest
    split
    next hreceiving =>
      split
      · exact fun hi => absurd rfl hi
      · split
        · exact fun _ => h.idle (by rw [hreceiving]; simp)
        · exact h.idle
    next hsubmitting =>
      split
      next he => exact fun _ => event_idle he (by simp)
      · exact fun hi => absurd hsubmitting hi
      next he => exact fun _ => event_idle he (by simp)
      · exact fun hi => absurd hsubmitting hi
    · exact h.idle
  · intro hunborn
    rw [Worker.stepIngest, hunborn]
    exact hunborn

theorem Sound.ingestEnds (h : w.Sound) (hnot : w.main ≠ .done) (ok : Bool) :
    (w.ingestEnds ok).1.Sound := by
  obtain ⟨hmain, hfinisher⟩ := w.ingestEnds_main ok
  refine h.ingests hmain hfinisher hnot ((w.ingestEnds_kept ok).guarded h.gate) ?_ ?_
  · unfold Worker.ingestEnds
    split
    next gen hrunning =>
      cases ok with
      | true => exact fun _ => by simp [Gate.finish, hrunning]
      | false =>
          intro hi
          have hidle := h.idle hi
          rw [hrunning] at hidle
          cases hidle
    · exact h.idle
  · intro hunborn
    have hidle := h.idle (by rw [hunborn]; simp)
    rw [Worker.ingestEnds, hidle]
    exact hunborn

theorem Sound.spawn (h : w.Sound) (ok : Bool) : (w.spawn ok).Sound := by
  unfold Worker.spawn
  split
  next hstarting =>
    have hunborn := h.unborn hstarting
    have hidle := h.idle (by rw [hunborn]; simp)
    have hfinisher : w.finisher ≠ .fencing ∧ w.finisher ≠ .finished (.ok ()) :=
      ⟨fun hf => absurd (hstarting.symm.trans (h.fencing hf)) (by simp),
        fun hf => absurd (hstarting.symm.trans (h.verified hf).1) (by simp)⟩
    split
    · exact ⟨h.gate, fun _ => hidle, fun hs => by (cases hs), fun hd => by (cases hd),
        fun hf => absurd hf hfinisher.1, fun hf => absurd hf hfinisher.2⟩
    · exact ⟨h.gate, fun _ => hidle, fun hs => by (cases hs), fun _ => .inl hunborn,
        fun hf => absurd hf hfinisher.1, fun hf => absurd hf hfinisher.2⟩
  · exact h

theorem Sound.stepFinisher (h : w.Sound) : w.stepFinisher.Sound := by
  obtain ⟨hmain, hingest⟩ := w.stepFinisher_main
  have hgate := w.stepFinisher_gate
  have hstays : w.main = .done → w.stepFinisher.main = .done := fun hd => hmain.trans hd
  refine ⟨hgate.kept.guarded h.gate, fun hi => ?_, fun hs => ?_, fun hd => ?_, ?_, ?_⟩
  · rw [hgate.ingest]
    exact h.idle (by rw [← hingest]; exact hi)
  · rw [hingest]
    exact h.unborn (hmain.symm.trans hs)
  · rw [hingest]
    exact h.joined (hmain.symm.trans hd)
  · rw [hmain]
    unfold Worker.stepFinisher
    split
    · exact fun hf => by cases hf
    next hclosing =>
      split
      · exact fun hf => by cases hf
      · exact fun hf => by rw [hclosing] at hf; cases hf
    next hjoining =>
      split
      next hd => exact fun _ => hd
      · exact fun hf => by cases hf
      · exact fun hf => by rw [hjoining] at hf; cases hf
    next hfencing => exact fun _ => h.fencing hfencing
    · exact h.fencing
  · rw [hmain, hgate.uncertain h.gate]
    unfold Worker.stepFinisher
    split
    · exact fun hf => by cases hf
    next hclosing =>
      split
      · exact fun hf => by cases hf
      · exact fun hf => by rw [hclosing] at hf; cases hf
    next hjoining =>
      split
      · exact fun hf => by cases hf
      · exact fun hf => by cases hf
      · exact fun hf => by rw [hjoining] at hf; cases hf
    next hfencing =>
      split
      next j ok he =>
        intro hf
        refine ⟨h.fencing hfencing, ?_⟩
        have hok := ((w.gate.event_access FINISHER).fences he).2
        cases ok with
        | true => simpa using hok
        | false => cases hf
      · exact fun hf => by rw [hfencing] at hf; cases hf
    · exact h.verified

theorem Sound.move (h : w.Sound) (m : Move) : (w.move m).1.Sound := by
  by_cases hfinisher : m = .finisher
  · subst hfinisher
    exact h.stepFinisher
  by_cases hdone : w.main = .done
  · rw [h.move_of_done hdone hfinisher]
    exact h
  have hguarded := (w.move_kept m).guarded h.gate
  cases m with
  | main =>
      refine h.moves w.stepMain_moves hdone hguarded ?_
      rcases w.stepMain_gate with hgate | hgate
      · exact hgate.ingest
      · show w.stepMain.1.gate.threads INGEST = _
        rw [hgate]
        rfl
  | spawn ok => exact h.spawn ok
  | sink outcome =>
      exact h.moves (w.sinkEnds_moves outcome) hdone hguarded (w.sinkEnds_gate outcome).ingest
  | wayland activity =>
      exact h.moves (w.stepWayland_moves activity) hdone hguarded
        (w.stepWayland_gate activity).ingest
  | ingest => exact h.stepIngest hdone
  | ingestEnds ok => exact h.ingestEnds hdone ok
  | finisher => exact absurd rfl hfinisher

/-- A stopped worker stays as it is, and nothing is seen of it. -/
theorem Clean.move (h : w.Clean) (hs : w.Sound) (m : Move) :
    (w.move m).1.Clean ∧ (w.move m).2 = none := by
  by_cases hfinisher : m = .finisher
  · subst hfinisher
    refine ⟨⟨w.stepFinisher_main.1.trans h.1, ?_⟩, rfl⟩
    exact (w.stepFinisher_gate.uncertain hs.gate).trans h.2
  · rw [hs.move_of_done h.1 hfinisher]
    exact ⟨h, rfl⟩

/-- No ingest call is in progress at a stopped worker. -/
theorem Clean.not_ingesting (h : w.Clean) (hs : w.Sound) : ¬w.Ingesting := by
  rintro ⟨i, gen, hrunning⟩
  by_cases hi : i = INGEST
  · have hidle : w.gate.threads INGEST = .idle :=
      hs.idle fun hsub => by rcases hs.joined h.1 with hj | hj <;> rw [hsub] at hj <;> cases hj
    rw [← hi, hrunning] at hidle
    cases hidle
  · have hsingle := hs.gate.single i hi
    rw [hrunning] at hsingle
    cases hsingle

/-- A failed submission is not accounted for. -/
theorem not_clean_of_doomed (hs : w.Sound) (h : w.gate.Doomed) : ¬w.Clean := by
  intro hclean
  rcases h with ⟨j, hj⟩ | hfailed
  · by_cases hi : j = INGEST
    · have hidle : w.gate.threads INGEST = .idle :=
        hs.idle fun hsub => by
          rcases hs.joined hclean.1 with hj | hj <;> rw [hsub] at hj <;> cases hj
      rw [hi, hidle] at hj
      exact hj
    · have hsingle := hs.gate.single j hi
      cases hl : w.gate.threads j with
      | failUncertain => rw [hl] at hsingle; cases hsingle
      | failOpen => rw [hl] at hsingle; cases hsingle
      | failGeneration => rw [hl] at hsingle; cases hsingle
      | _ => rw [hl] at hj; exact hj
  · have huncertain := hfailed.1
    rw [hclean.2] at huncertain
    cases huncertain

theorem touch_main (w : Worker) (t : Touch) : (w.touch t).main = w.main := by
  cases t <;> rfl

theorem Sound.touch (h : w.Sound) {t : Touch} (ht : ∀ op, t = .call op → op.submits = false) :
    (w.touch t).Sound := by
  have hgate := w.touch_gate t ht
  have hguarded := hgate.kept.guarded h.gate
  have huncertain := hgate.uncertain h.gate
  cases t with
  | storeStop => exact ⟨h.gate, h.idle, h.unborn, h.joined, h.fencing, h.verified⟩
  | call op =>
      exact ⟨hguarded, fun hi => hgate.ingest.trans (h.idle hi), h.unborn, h.joined, h.fencing,
        fun hf => ⟨(h.verified hf).1, huncertain.trans (h.verified hf).2⟩⟩
  | step =>
      exact ⟨hguarded, fun hi => hgate.ingest.trans (h.idle hi), h.unborn, h.joined, h.fencing,
        fun hf => ⟨(h.verified hf).1, huncertain.trans (h.verified hf).2⟩⟩
  | finish =>
      exact ⟨h.gate, h.idle, h.unborn, h.joined, fun hf => (by cases hf), fun hf => (by cases hf)⟩

theorem Clean.touch (h : w.Clean) (hs : w.Sound) {t : Touch}
    (ht : ∀ op, t = .call op → op.submits = false) : (w.touch t).Clean :=
  ⟨(w.touch_main t).trans h.1, ((w.touch_gate t ht).uncertain hs.gate).trans h.2⟩

/-! ### Failed submissions -/

theorem not_ingestEvent_stepMain (w : Worker) :
    ∀ e ∈ w.stepMain.2, ∃ enabled, e = .admissionCalled enabled := by
  unfold stepMain
  split
  · split
    · exact fun e he => ⟨false, by cases he; rfl⟩
    · exact fun e he => by cases he
  · split <;> exact fun e he => by cases he
  · split <;> exact fun e he => by cases he
  · split
    · exact fun e he => ⟨false, by cases he; rfl⟩
    · exact fun e he => by cases he
  · exact fun e he => by cases he
  · exact fun e he => ⟨false, by cases he; rfl⟩
  all_goals exact fun e he => by cases he

theorem not_ingestEvent_sinkEnds (w : Worker) (outcome : Outcome) :
    ∀ e ∈ (w.sinkEnds outcome).2, e = .admissionCalled true ∨ e = .admissionReturned outcome := by
  unfold sinkEnds
  split
  case h_1 => exact fun e he => .inl (by cases he; rfl)
  case h_2 => exact fun e he => by cases he
  case h_3 => exact fun e he => by cases he
  case h_12 => exact fun e he => by cases he
  all_goals exact fun e he => .inr (by cases he; rfl)

/-- What the ingest thread shows. -/
theorem ingestEvent {m : Move} {e : Event} (he : (w.move m).2 = some e) :
    (∃ enabled, e = .admissionCalled enabled) ∨ (∃ outcome, e = .admissionReturned outcome) ∨
      (m = .ingest ∧ w.stepIngest.2 = some e) ∨ ∃ ok, m = .ingestEnds ok ∧
        (w.ingestEnds ok).2 = some e := by
  cases m with
  | main => exact .inl (w.not_ingestEvent_stepMain e he)
  | sink outcome =>
      rcases w.not_ingestEvent_sinkEnds outcome e he with rfl | rfl
      · exact .inl ⟨true, rfl⟩
      · exact .inr (.inl ⟨outcome, rfl⟩)
  | ingest => exact .inr (.inr (.inl ⟨rfl, he⟩))
  | ingestEnds ok => exact .inr (.inr (.inr ⟨ok, rfl, he⟩))
  | spawn ok => cases he
  | wayland activity => cases he
  | finisher => cases he

theorem ingestEvent_stepIngest (h : w.stepIngest.2 = some e) :
    e = .ingestStarted ∨ (e = .submitFailed ∧ w.stepIngest.1.gate = w.gate.stepThread INGEST ∧
      ∃ j, w.gate.event INGEST = some (.failed j)) := by
  unfold stepIngest at h ⊢
  split at h
  · split at h <;> cases h
  · split at h
    · cases h
    · cases h
      exact .inl rfl
    next j he =>
      cases h
      exact .inr ⟨rfl, rfl, j, he⟩
    · cases h
  · cases h

/-- A submission that returned an error has recorded it. -/
theorem failed_of_submitFailed (hs : w.Sound) {m : Move} (he : (w.move m).2 = some .submitFailed) :
    (w.move m).1.gate.Failed := by
  rcases ingestEvent he with ⟨_, h⟩ | ⟨_, h⟩ | ⟨rfl, h⟩ | ⟨ok, rfl, h⟩
  · cases h
  · cases h
  · rcases ingestEvent_stepIngest h with h | ⟨-, hgate, j, hevent⟩
    · cases h
    · show w.stepIngest.1.gate.Failed
      rw [hgate]
      exact Gate.failed_of_event hs.gate hevent
  · unfold ingestEnds at h
    split at h
    · split at h <;> cases h
    · cases h

/-- An ingest call that failed leaves its thread recording the failure. -/
theorem doomed_of_ingestEnded {m : Move} (he : (w.move m).2 = some (.ingestEnded false)) :
    (w.move m).1.gate.Doomed := by
  rcases ingestEvent he with ⟨_, h⟩ | ⟨_, h⟩ | ⟨rfl, h⟩ | ⟨ok, rfl, h⟩
  · cases h
  · cases h
  · rcases ingestEvent_stepIngest h with h | ⟨h, -⟩ <;> cases h
  · show (w.ingestEnds ok).1.gate.Doomed
    unfold ingestEnds at h ⊢
    split at h
    next gen hrunning =>
      cases ok with
      | true => cases h
      | false =>
          refine .inl ⟨INGEST, ?_⟩
          simp [Gate.finish, hrunning, Admission.Local.Fails]
    · cases h

/-! ### The admission of the sink -/

end Worker

/-- The last call of `set_admission`: what it was asked, and how it ended if it did. -/
abbrev LastAdmission := Option (Bool × Option Outcome)

def Worker.Event.record (last : LastAdmission) : Worker.Event → LastAdmission
  | .admissionCalled enabled => some (enabled, none)
  | .admissionReturned outcome => last.map fun call => (call.1, some outcome)
  | _ => last

/-- The sink was told to stop, and it agreed, or it was never told anything. -/
def Settled (last : LastAdmission) : Prop :=
  last = none ∨ last = some (false, some (.returned (.ok ())))

namespace Worker

/-- The sink's admission, by the place of the capture thread. -/
def Phase (w : Worker) (last : LastAdmission) : Prop :=
  match w.main with
  | .starting | .looping | .readying | .retrying _ | .parked => Settled last
  | .revoking _ _ | .lastRevoking => last = some (false, none)
  | .lastReporting _ => w.gate.admission.uncertain = true
  | .joining | .done => Settled last ∨ w.gate.admission.uncertain = true
  | _ => True

variable {w : Worker} {last : LastAdmission}

theorem Phase.of_main {w' : Worker} (h : w.Phase last) (hmain : w'.main = w.main)
    (huncertain : w.gate.admission.uncertain = true → w'.gate.admission.uncertain = true) :
    w'.Phase last := by
  unfold Phase at h ⊢
  rw [hmain]
  split at h
  all_goals first
    | exact h
    | exact huncertain h
    | exact h.imp_right huncertain

/-- In these places nothing is known of the sink's admission. -/
def free : Main → Bool
  | .admitting | .resuming | .wayland | .closing _ | .fencing _ | .doubting _ | .reporting _
  | .lastDoubting _ | .panicked => true
  | _ => false

theorem phase_of_free (h : free w.main = true) : w.Phase last := by
  unfold Phase
  cases hm : w.main <;> first | trivial | (rw [hm] at h; cases h)

theorem Phase.stepMain (h : w.Phase last) :
    w.stepMain.1.Phase (w.stepMain.2.elim last (·.record last)) := by
  unfold Worker.stepMain
  split
  next hm =>
    rw [Phase, hm] at h
    split
    · exact rfl
    · exact h
  next hm => split <;> exact phase_of_free (by first | rfl | exact congrArg free hm)
  next hm => split <;> exact phase_of_free (by first | rfl | exact congrArg free hm)
  next hm =>
    split
    · exact rfl
    · exact phase_of_free (congrArg free hm)
  · exact phase_of_free rfl
  · exact rfl
  next hm =>
    rw [Phase, hm] at h
    exact h
  next hm =>
    rw [Phase, hm] at h
    exact h
  · exact rfl
  next hm =>
    rw [Phase, hm] at h
    exact .inr h
  next hm =>
    split
    · rw [Phase, hm] at h
      exact h
    · exact h
  · exact h

theorem Phase.afterRevoke {result fence admission : Result} (hmain :
    w.main = Worker.afterRevoke result fence admission) (hlast :
    last = some (false, some (.returned admission))) : w.Phase last := by
  unfold Worker.afterRevoke at hmain
  split at hmain
  · exact phase_of_free (by rw [hmain]; rfl)
  · exact phase_of_free (by rw [hmain]; rfl)
  · split at hmain
    · rw [Phase, hmain]
      exact .inr hlast
    · rw [Phase, hmain]
      exact .inr hlast

theorem Phase.sinkEnds (h : w.Phase last) (outcome : Outcome) :
    (w.sinkEnds outcome).1.Phase ((w.sinkEnds outcome).2.elim last (·.record last)) := by
  unfold Worker.sinkEnds
  split
  case h_6 hm =>
    rw [Phase, hm] at h
    rw [h]
    exact Phase.afterRevoke rfl rfl
  case h_7 hm =>
    rw [Phase, hm] at h
    rw [h]
    exact .inl (.inr rfl)
  case h_12 => exact h
  all_goals exact phase_of_free rfl

theorem stepWayland_main (w : Worker) (activity : Wayland) :
    (w.stepWayland activity).main = w.main ∨ free (w.stepWayland activity).main = true := by
  unfold stepWayland
  split
  next hm =>
    cases activity with
    | send generation =>
        show (w.trySend generation).main = w.main ∨ _
        unfold trySend
        split <;> exact .inl rfl
    | leave result =>
        show (ite _ _ _ : Worker).main = w.main ∨ free (ite _ _ _ : Worker).main = true
        split
        · exact .inr rfl
        · exact .inl rfl
    | panic => exact .inr rfl
    | _ => exact .inl rfl
  · exact .inl rfl

theorem record_stepIngest (w : Worker) : w.stepIngest.2.elim last (·.record last) = last := by
  cases he : w.stepIngest.2 with
  | none => rfl
  | some e => rcases ingestEvent_stepIngest he with rfl | ⟨rfl, -⟩ <;> rfl

theorem record_ingestEnds (w : Worker) (ok : Bool) :
    (w.ingestEnds ok).2.elim last (·.record last) = last := by
  unfold ingestEnds
  split
  · split <;> rfl
  · rfl

theorem Phase.move (h : w.Phase last) (m : Move) :
    (w.move m).1.Phase ((w.move m).2.elim last (·.record last)) := by
  have hkept := w.move_kept m
  cases m with
  | main => exact h.stepMain
  | sink outcome => exact h.sinkEnds outcome
  | spawn ok =>
      show (w.spawn ok).Phase last
      unfold Worker.spawn
      split
      next hm =>
        rw [Phase, hm] at h
        split
        · exact h
        · exact .inl h
      · exact h
  | wayland activity =>
      rcases w.stepWayland_main activity with hm | hm
      · exact h.of_main hm hkept.uncertain
      · exact phase_of_free hm
  | ingest =>
      show w.stepIngest.1.Phase (w.stepIngest.2.elim last (·.record last))
      rw [w.record_stepIngest]
      exact h.of_main w.stepIngest_main.1 hkept.uncertain
  | ingestEnds ok =>
      show (w.ingestEnds ok).1.Phase ((w.ingestEnds ok).2.elim last (·.record last))
      rw [w.record_ingestEnds]
      exact h.of_main (w.ingestEnds_main ok).1 hkept.uncertain
  | finisher => exact h.of_main w.stepFinisher_main.1 hkept.uncertain

theorem Phase.touch (h : w.Phase last) {t : Touch}
    (ht : ∀ op, t = .call op → op.submits = false) : (w.touch t).Phase last :=
  h.of_main (w.touch_main t) (w.touch_gate t ht).kept.uncertain

end Worker

end Capture

end ClipDaemon
