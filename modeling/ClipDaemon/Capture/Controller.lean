import ClipDaemon.Content
import ClipDaemon.Capture.Worker

/-!
# The capture controller

The controller starts workers and stops them (`capture/worker.rs`).  Its calls queue for
the runtime lock, and the call that holds it goes on step by step, next to the threads of
the workers.  A caller may give up at every point where the code awaits.

A pause or a shutdown that returns `Ok` means that every worker is stopped and that the
sink agreed to admit nothing (`acknowledged_stop`).
-/

namespace ClipDaemon

namespace Capture

open Transition

/-- The calls of `CaptureControl`. -/
inductive Request
  | setPaused (paused : Bool) (maxBytes : Nat)
  | shutdown
  | isPaused
deriving DecidableEq

/-- Does the call ask capture to stop? -/
def Request.stops : Request → Bool
  | .setPaused paused _ => paused
  | .shutdown => true
  | .isPaused => false

/-- Does the call ask capture to run? -/
def Request.resumes : Request → Bool
  | .setPaused paused _ => !paused
  | _ => false

/-- Where the call that holds the runtime lock is. -/
inductive Place
  | entered
  /-- In `Worker::state`: looks at the thread, then at the gate, then at the status. -/
  | looking (worker : Nat)
  | admitting (worker : Nat)
  | reading (worker : Nat)
  /-- In `Worker::close`: stores the stop flag, then closes the gate. -/
  | stopping (worker : Nat)
  | closing (worker : Nat)
  /-- About to latch the error and to hand the worker over. -/
  | latching (worker : Nat)
  | waiting (worker : Nat)
  /-- `Runtime::stop` returned. -/
  | failed (error : String)
  | stopped
  /-- Waits for the `ready` channel of the worker it started. -/
  | acknowledging (worker : Nat)

/-- A call and how far it is. -/
structure Call where
  id : Nat
  request : Request
  place : Place

/-- The worker that runs, or the error it ended with. -/
structure Runtime where
  worker : Option Nat
  terminalError : Option String

/-- What is seen of a run. -/
inductive Event
  | invoked (id : Nat) (request : Request)
  /-- The call took the runtime lock. -/
  | began (id : Nat) (request : Request)
  | returned (id : Nat) (request : Request) (result : Result)
  | answered (id : Nat) (result : Except String Bool)
  /-- The caller gave up. -/
  | abandoned (id : Nat)
  /-- A stop was not verified: it failed, or its caller gave up. -/
  | unverified (id : Nat)
  | worker (k : Nat) (event : Worker.Event)

/-- A controller with every worker it started, and the sink they share. -/
structure Controller where
  workers : Nat → Worker
  /-- How many workers were started. -/
  spawned : Nat
  runtime : Runtime
  /-- The call that holds the runtime lock. -/
  call : Option Call
  /-- The calls that wait for it. -/
  queue : List (Nat × Request)
  admission : LastAdmission
  log : List Event

/-- How the call that holds the lock goes on. -/
inductive Turn
  | next
  /-- A thread could not be started, or the finishing task was lost. -/
  | failed
  | timedOut
  /-- Its caller gives up. -/
  | dropped
deriving DecidableEq

/-- What callers and workers do. -/
inductive Action
  | invoke (id : Nat) (request : Request)
  /-- A caller gives up waiting for the lock. -/
  | abandon (id : Nat)
  /-- A waiting call takes the lock. -/
  | enter (id : Nat)
  | call (turn : Turn)
  | worker (k : Nat) (move : Move)

/-- What `shutdown` leaves behind. -/
def SHUT_DOWN : String := "Capture owner has shut down"

namespace Controller

/-- No worker was started. -/
def init : Controller where
  workers _ := .absent
  spawned := 0
  runtime := ⟨none, none⟩
  call := none
  queue := []
  admission := none
  log := []

/-- The call goes on at another place. -/
def goto (c : Controller) (call : Call) (place : Place) : Controller :=
  { c with call := some { call with place } }

/-- The call returns. -/
def returns (c : Controller) (call : Call) (result : Result) : Controller :=
  { c with call := none, log := c.log ++ [.returned call.id call.request result] }

/-- `Worker::state` returns. -/
def answers (c : Controller) (call : Call) (result : Except String Bool) : Controller :=
  match call.request with
  | .isPaused => { c with call := none, log := c.log ++ [.answered call.id result] }
  | _ => c.returns call (result.map fun _ => ())

/-- How the worker ended is kept. -/
def terminal (c : Controller) (error : Option String) : Controller :=
  { c with runtime := { c.runtime with terminalError := error } }

/-- The controller does something to a worker. -/
def touch (c : Controller) (k : Nat) (t : Touch) : Controller :=
  { c with workers := Function.update c.workers k ((c.workers k).touch t) }

/-- `Runtime::stop` begins: the worker is taken out. -/
def stop (c : Controller) (call : Call) : Controller :=
  match c.runtime.worker with
  | none => c.goto call .stopped
  | some k => { c with runtime := { c.runtime with worker := none } }.goto call (.stopping k)

/-- A stop is not verified. -/
def unverified (c : Controller) (call : Call) (error : String) : Controller :=
  { c.terminal (some error) with
    call := some { call with place := .failed error }
    log := c.log ++ [.unverified call.id] }

/-- The call has just taken the lock. -/
def stepEntered (c : Controller) (call : Call) : Controller :=
  match call.request, c.runtime.terminalError with
  | .setPaused _ _, some error => c.returns call (.error error)
  | .setPaused paused maxBytes, none =>
      match c.runtime.worker with
      | some k =>
          if paused = false ∧ (c.workers k).limit = effectiveLimit maxBytes then
            c.goto call (.looking k)
          else c.stop call
      | none => c.stop call
  | .shutdown, some error => (c.terminal (some SHUT_DOWN)).returns call (.error error)
  | .shutdown, none => c.stop call
  | .isPaused, some error => c.answers call (.error error)
  | .isPaused, none =>
      match c.runtime.worker with
      | none => c.answers call (.ok true)
      | some k => c.goto call (.looking k)

/-- The finishing thread ended, or nobody waits for it any more. -/
def stepWaiting (c : Controller) (call : Call) (k : Nat) : Turn → Controller
  | .next =>
      match (c.workers k).finisher with
      | .finished (.ok ()) => (c.terminal none).goto call .stopped
      | .finished (.error error) => c.unverified call error
      | _ => c
  | .failed => c.unverified call "Capture shutdown task failed"
  | .timedOut => c.unverified call "Capture shutdown timed out"
  | .dropped => { c with call := none, log := c.log ++ [.unverified call.id] }

/-- `Runtime::stop` returned an error. -/
def stepFailed (c : Controller) (call : Call) (error : String) : Controller :=
  match call.request with
  | .shutdown => (c.terminal (some SHUT_DOWN)).returns call (.error error)
  | _ => c.returns call (.error error)

/-- `Worker::start`. -/
def startWorker (c : Controller) (call : Call) (limit : Nat) : Controller :=
  { c with
    workers := Function.update c.workers c.spawned (.start limit)
    spawned := c.spawned + 1
    runtime := { c.runtime with worker := some c.spawned } }.goto call (.acknowledging c.spawned)

/-- `Runtime::stop` returned `Ok`. -/
def stepStopped (c : Controller) (call : Call) (turn : Turn) : Controller :=
  match call.request with
  | .setPaused true _ => c.returns call (.ok ())
  | .setPaused false maxBytes =>
      if effectiveLimit maxBytes = 0 then
        c.returns call (.error "Capture byte limit must be positive")
      else if turn = .failed then c.returns call (.error "Could not start capture worker")
      else c.startWorker call (effectiveLimit maxBytes)
  | .shutdown => (c.terminal (some SHUT_DOWN)).returns call (.ok ())
  | .isPaused => c

/-- The started worker is waited for. -/
def stepAcknowledging (c : Controller) (call : Call) (k : Nat) : Turn → Controller
  | .next =>
      match (c.workers k).ready with
      | some result => c.returns call result
      | none =>
          if (c.workers k).main.dropped then
            c.returns call (.error "Capture worker exited before startup")
          else c
  | .timedOut => c.returns call (.error "Capture startup acknowledgement timed out")
  | .dropped => { c with call := none, log := c.log ++ [.abandoned call.id] }
  | .failed => c

/-- The call that holds the lock goes on. -/
def stepCall (c : Controller) (call : Call) (turn : Turn) : Controller :=
  match call.place with
  | .entered => c.stepEntered call
  | .looking k =>
      if (c.workers k).main.isFinished then c.answers call (.error "Capture worker exited")
      else (c.touch k (.call .admits)).goto call (.admitting k)
  | .admitting k =>
      match (c.workers k).gate.event CONTROL with
      | some (.admitted _ none) =>
          (c.touch k .step).answers call (.error "Capture is unavailable or transitioning")
      | some (.admitted _ (some _)) => (c.touch k .step).goto call (.reading k)
      | _ => c.touch k .step
  | .reading k => c.answers call (c.workers k).status
  | .stopping k => ((c.touch k .storeStop).touch k (.call .close)).goto call (.closing k)
  | .closing k =>
      match (c.workers k).gate.event CONTROL with
      | some (.closed _) => (c.touch k .step).goto call (.latching k)
      | _ => c.touch k .step
  | .latching k =>
      ((c.terminal (some "Capture shutdown is not yet verified")).touch k .finish).goto call
        (.waiting k)
  | .waiting k => c.stepWaiting call k turn
  | .failed error => c.stepFailed call error
  | .stopped => c.stepStopped call turn
  | .acknowledging k => c.stepAcknowledging call k turn

/-- A worker moves. -/
def stepWorker (c : Controller) (k : Nat) (m : Move) : Controller :=
  let r := (c.workers k).move m
  { c with
    workers := Function.update c.workers k r.1
    admission := r.2.elim c.admission (·.record c.admission)
    log := c.log ++ (r.2.map (.worker k)).toList }

def step (c : Controller) : Action → Controller
  | .invoke id request =>
      { c with queue := c.queue ++ [(id, request)], log := c.log ++ [.invoked id request] }
  | .abandon id =>
      if c.queue.any (·.1 = id) then
        { c with queue := c.queue.filter (·.1 ≠ id), log := c.log ++ [.abandoned id] }
      else c
  | .enter id =>
      match c.call, c.queue.find? (·.1 = id) with
      | none, some (_, request) =>
          { c with
            call := some ⟨id, request, .entered⟩
            queue := c.queue.filter (·.1 ≠ id)
            log := c.log ++ [.began id request] }
      | _, _ => c
  | .call turn =>
      match c.call with
      | some call => c.stepCall call turn
      | none => c
  | .worker k m => c.stepWorker k m

/-- The controller after a sequence of actions. -/
def after (actions : List Action) (c : Controller) : Controller := actions.foldl step c

end Controller

/-! ## The invariant -/

/-- Has the call taken the worker out, with the latch not yet set? -/
def Place.holds : Place → Bool
  | .stopping _ | .closing _ | .latching _ => true
  | _ => false

namespace Controller

variable {c : Controller}

/-- What holds at each place of the call. -/
def At (c : Controller) : Place → Prop
  | .entered => True
  | .looking k | .admitting k | .reading k | .acknowledging k => c.runtime.worker = some k
  | .stopping k | .closing k | .latching k =>
      k + 1 = c.spawned ∧ c.runtime.worker = none ∧ c.runtime.terminalError = none
  | .waiting k =>
      k + 1 = c.spawned ∧ c.runtime.worker = none ∧ c.runtime.terminalError ≠ none
  | .failed _ => c.runtime.worker = none ∧ c.runtime.terminalError ≠ none
  | .stopped => c.runtime.worker = none ∧ c.runtime.terminalError = none

/-- Only the youngest worker can be running, and when nobody holds it and no error is
latched, it is stopped too. -/
structure Owned (c : Controller) : Prop where
  sound : ∀ k, (c.workers k).Sound
  older : ∀ k, k + 1 ≠ c.spawned → (c.workers k).Clean
  held : ∀ k, c.runtime.worker = some k → k + 1 = c.spawned ∧ c.runtime.terminalError = none
  place : ∀ call, c.call = some call → c.At call.place
  idle : c.runtime.worker = none → c.runtime.terminalError = none →
    (∀ call, c.call = some call → call.place.holds = false) → ∀ k, (c.workers k).Clean
  phase : ∀ k, k + 1 = c.spawned → (c.workers k).Phase c.admission
  untouched : c.spawned = 0 → c.admission = none

theorem owned_init : Owned init where
  sound _ := Worker.sound_absent
  older _ _ := Worker.clean_absent
  held _ h := by cases h
  place _ h := by cases h
  idle _ _ _ _ := Worker.clean_absent
  phase k h := by cases h
  untouched _ := rfl

/-- When every worker is stopped, the sink agreed to admit nothing. -/
theorem Owned.settled (h : c.Owned) (hclean : ∀ k, (c.workers k).Clean) : Settled c.admission := by
  cases hspawned : c.spawned with
  | zero => exact .inl (h.untouched hspawned)
  | succ k =>
      have hphase := h.phase k hspawned.symm
      rw [Worker.Phase, (hclean k).1] at hphase
      rcases hphase with hsettled | huncertain
      · exact hsettled
      · rw [(hclean k).2] at huncertain
        cases huncertain

/-- What a step that leaves the workers alone has to show. -/
theorem Owned.of_same (h : c.Owned) {c' : Controller} (hworkers : c'.workers = c.workers)
    (hspawned : c'.spawned = c.spawned) (hadmission : c'.admission = c.admission)
    (hheld : ∀ k, c'.runtime.worker = some k →
      k + 1 = c.spawned ∧ c'.runtime.terminalError = none)
    (hplace : ∀ call, c'.call = some call → c'.At call.place)
    (hidle : c'.runtime.worker = none → c'.runtime.terminalError = none →
      (∀ call, c'.call = some call → call.place.holds = false) → ∀ k, (c.workers k).Clean) :
    c'.Owned where
  sound k := by rw [hworkers]; exact h.sound k
  older k hk := by rw [hworkers]; exact h.older k (hspawned ▸ hk)
  held k hk := by rw [hspawned]; exact hheld k hk
  place := hplace
  idle hw ht hc k := by rw [hworkers]; exact hidle hw ht hc k
  phase k hk := by rw [hworkers, hadmission]; exact h.phase k (hspawned ▸ hk)
  untouched hk := by rw [hadmission]; exact h.untouched (hspawned ▸ hk)

/-- The call returns. -/
theorem Owned.ends (h : c.Owned) {call : Call} (hcall : c.call = some call)
    (hholds : call.place.holds = false) (log : List Event) :
    Owned { c with call := none, log } :=
  h.of_same rfl rfl rfl h.held (fun _ hc => by cases hc) fun hw ht _ =>
    h.idle hw ht fun call' hc => by
      cases hcall.symm.trans hc
      exact hholds

/-- The call goes on without touching anything. -/
theorem Owned.goto (h : c.Owned) {call : Call} (hcall : c.call = some call)
    (hholds : call.place.holds = false) {place : Place} (hplace : c.At place) :
    (c.goto call place).Owned :=
  h.of_same rfl rfl rfl h.held (fun _ hc => by cases hc; exact hplace) fun hw ht _ =>
    h.idle hw ht fun call' hc => by
      cases hcall.symm.trans hc
      exact hholds

/-- An error is latched. -/
theorem Owned.latch (h : c.Owned) (hworker : c.runtime.worker = none) (error : String)
    (call : Option Call) (log : List Event)
    (hplace : ∀ call', call = some call' →
      ({ c.terminal (some error) with call, log }).At call'.place) :
    Owned { c.terminal (some error) with call, log } :=
  h.of_same rfl rfl rfl (fun k hk => by rw [terminal, hworker] at hk; cases hk) hplace
    fun _ ht => by cases ht

theorem Owned.answers (h : c.Owned) {call : Call} (hcall : c.call = some call)
    (hholds : call.place.holds = false) (result : Except String Bool) :
    (c.answers call result).Owned := by
  unfold Controller.answers
  split
  · exact h.ends hcall hholds _
  · exact h.ends hcall hholds _

/-- One worker changes. -/
theorem Owned.update (h : c.Owned) (k : Nat) {w : Worker} {admission : LastAdmission}
    {log : List Event} (hsound : w.Sound) (hclean : (c.workers k).Clean → w.Clean)
    (hadmission : (c.workers k).Clean → admission = c.admission)
    (hphase : (c.workers k).Phase c.admission → w.Phase admission) :
    Owned { c with workers := Function.update c.workers k w, admission, log } where
  sound j := by
    show (Function.update c.workers k w j).Sound
    by_cases hj : j = k
    · subst hj
      rw [Function.update_self]
      exact hsound
    · rw [Function.update_of_ne hj]
      exact h.sound j
  older j hj := by
    show (Function.update c.workers k w j).Clean
    by_cases hjk : j = k
    · subst hjk
      rw [Function.update_self]
      exact hclean (h.older j hj)
    · rw [Function.update_of_ne hjk]
      exact h.older j hj
  held := h.held
  place call hcall := by
    have hplace := h.place call hcall
    cases hp : call.place <;> rw [hp] at hplace <;> exact hplace
  idle hw hterminal hc j := by
    have hj := h.idle hw hterminal hc j
    show (Function.update c.workers k w j).Clean
    by_cases hjk : j = k
    · subst hjk
      rw [Function.update_self]
      exact hclean hj
    · rw [Function.update_of_ne hjk]
      exact hj
  phase j hj := by
    replace hj : j + 1 = c.spawned := hj
    show (Function.update c.workers k w j).Phase admission
    by_cases hjk : j = k
    · subst hjk
      rw [Function.update_self]
      exact hphase (h.phase j hj)
    · rw [Function.update_of_ne hjk, hadmission (h.older k fun hk => hjk (by omega))]
      exact h.phase j hj
  untouched hzero := by
    replace hzero : c.spawned = 0 := hzero
    exact (hadmission (h.older k (by omega))).trans (h.untouched hzero)

/-- A controller's access to a worker. -/
theorem Owned.touch (h : c.Owned) (k : Nat) {t : Touch}
    (ht : ∀ op, t = .call op → op.submits = false) : (c.touch k t).Owned :=
  h.update k ((h.sound k).touch ht) (·.touch (h.sound k) ht) (fun _ => rfl) (·.touch ht)

/-- A worker moves. -/
theorem Owned.stepWorker (h : c.Owned) (k : Nat) (m : Move) : (c.stepWorker k m).Owned := by
  refine h.update k ((h.sound k).move m) (fun hclean => (hclean.move (h.sound k) m).1) ?_ (·.move m)
  intro hclean
  rw [(hclean.move (h.sound k) m).2]
  rfl

theorem Owned.stop (h : c.Owned) {call : Call} (hcall : c.call = some call)
    (hholds : call.place.holds = false) (hterminal : c.runtime.terminalError = none) :
    (c.stop call).Owned := by
  unfold Controller.stop
  split
  next hworker => exact h.goto hcall hholds ⟨hworker, hterminal⟩
  next k hworker =>
    have hk := h.held k hworker
    refine h.of_same rfl rfl rfl (fun _ hw => by cases hw) (fun call' hc => ?_) fun _ _ hc => ?_
    · cases hc
      exact ⟨hk.1, rfl, hterminal⟩
    · cases hc _ rfl

theorem Owned.stepEntered (h : c.Owned) {call : Call} (hcall : c.call = some call)
    (hplace : call.place = .entered) : (c.stepEntered call).Owned := by
  have hholds : call.place.holds = false := by rw [hplace]; rfl
  unfold Controller.stepEntered
  split
  · exact h.ends hcall hholds _
  next hterminal =>
    split
    next k hworker =>
      split
      · exact h.goto hcall hholds hworker
      · exact h.stop hcall hholds hterminal
    · exact h.stop hcall hholds hterminal
  next hterminal =>
    have hworker : c.runtime.worker = none := by
      cases hw : c.runtime.worker with
      | none => rfl
      | some k => rw [(h.held k hw).2] at hterminal; cases hterminal
    exact h.latch hworker _ none _ fun _ hc => by cases hc
  next hterminal => exact h.stop hcall hholds hterminal
  · exact h.answers hcall hholds _
  next hterminal =>
    split
    · exact h.answers hcall hholds _
    next k hworker => exact h.goto hcall hholds hworker

/-- A worker is verified to be stopped. -/
theorem Owned.stepWaiting (h : c.Owned) {call : Call} (hcall : c.call = some call) {k : Nat}
    (hplace : call.place = .waiting k) (turn : Turn) : (c.stepWaiting call k turn).Owned := by
  have hholds : call.place.holds = false := by rw [hplace]; rfl
  have hat := h.place call hcall
  rw [hplace] at hat
  obtain ⟨hk, hworker, hterminal⟩ := hat
  have hunverified : ∀ error, (c.unverified call error).Owned := fun error =>
    h.latch hworker error _ _ fun call' hc => by
      cases hc
      exact ⟨hworker, fun hnone => by cases hnone⟩
  cases turn with
  | next =>
      show (match (c.workers k).finisher with
        | .finished (.ok ()) => _ | .finished (.error error) => _ | _ => _ : Controller).Owned
      split
      next hfinished =>
        refine h.of_same rfl rfl rfl (fun _ hw => ?_) (fun call' hc => ?_) fun _ _ _ j => ?_
        · rw [show c.runtime.worker = some _ from hw] at hworker
          cases hworker
        · cases hc
          exact ⟨hworker, rfl⟩
        · by_cases hj : j + 1 = c.spawned
          · have hjk : j = k := by omega
            subst hjk
            exact (h.sound j).verified hfinished
          · exact h.older j hj
      next error hfinished => exact hunverified error
      · exact h
  | failed => exact hunverified _
  | timedOut => exact hunverified _
  | dropped => exact h.ends hcall hholds _

theorem Owned.stepFailed (h : c.Owned) {call : Call} (hcall : c.call = some call)
    {error : String} (hplace : call.place = .failed error) : (c.stepFailed call error).Owned := by
  have hat := h.place call hcall
  rw [hplace] at hat
  unfold Controller.stepFailed
  split
  · exact h.latch hat.1 _ none _ fun _ hc => by cases hc
  · exact h.ends hcall (by rw [hplace]; rfl) _

theorem Owned.startWorker (h : c.Owned) {call : Call} (hcall : c.call = some call)
    (hplace : call.place = .stopped) (limit : Nat) : (c.startWorker call limit).Owned := by
  have hat := h.place call hcall
  rw [hplace] at hat
  obtain ⟨hworker, hterminal⟩ := hat
  have hclean := h.idle hworker hterminal fun call' hc => by
    cases hcall.symm.trans hc
    rw [hplace]
    rfl
  refine ⟨fun j => ?_, fun j hj => ?_, fun j hj => ?_, fun call' hc => ?_, fun hw => ?_,
    fun j hj => ?_, fun hzero => ?_⟩
  · show (Function.update c.workers c.spawned _ j).Sound
    by_cases hjs : j = c.spawned
    · rw [hjs, Function.update_self]
      exact Worker.sound_start limit
    · rw [Function.update_of_ne hjs]
      exact h.sound j
  · have hjs : j ≠ c.spawned := fun hjs => hj (by rw [hjs]; rfl)
    show (Function.update c.workers c.spawned _ j).Clean
    rw [Function.update_of_ne hjs]
    exact hclean j
  · cases hj
    exact ⟨rfl, hterminal⟩
  · cases hc
    rfl
  · cases hw
  · have hjs : j = c.spawned := Nat.succ.inj hj
    show (Function.update c.workers c.spawned _ j).Phase c.admission
    rw [hjs, Function.update_self]
    exact h.settled hclean
  · cases hzero

theorem Owned.stepStopped (h : c.Owned) {call : Call} (hcall : c.call = some call)
    (hplace : call.place = .stopped) (turn : Turn) : (c.stepStopped call turn).Owned := by
  have hholds : call.place.holds = false := by rw [hplace]; rfl
  have hat := h.place call hcall
  rw [hplace] at hat
  unfold Controller.stepStopped
  split
  · exact h.ends hcall hholds _
  · split
    · exact h.ends hcall hholds _
    · split
      · exact h.ends hcall hholds _
      · exact h.startWorker hcall hplace _
  · exact h.latch hat.1 _ none _ fun _ hc => by cases hc
  · exact h

theorem Owned.stepAcknowledging (h : c.Owned) {call : Call} (hcall : c.call = some call) {k : Nat}
    (hplace : call.place = .acknowledging k) (turn : Turn) :
    (c.stepAcknowledging call k turn).Owned := by
  have hholds : call.place.holds = false := by rw [hplace]; rfl
  cases turn with
  | next =>
      show (match (c.workers k).ready with | some _ => _ | none => _ : Controller).Owned
      split
      · exact h.ends hcall hholds _
      · split
        · exact h.ends hcall hholds _
        · exact h
  | timedOut => exact h.ends hcall hholds _
  | dropped => exact h.ends hcall hholds _
  | failed => exact h

theorem Owned.stepCall (h : c.Owned) {call : Call} (hcall : c.call = some call) (turn : Turn) :
    (c.stepCall call turn).Owned := by
  have hat := h.place call hcall
  unfold Controller.stepCall
  split
  next hplace => exact h.stepEntered hcall hplace
  next k hplace =>
    have hholds : call.place.holds = false := by rw [hplace]; rfl
    rw [hplace] at hat
    split
    · exact h.answers hcall hholds _
    · exact (h.touch k fun op hop => by cases hop; rfl).goto hcall hholds hat
  next k hplace =>
    have hholds : call.place.holds = false := by rw [hplace]; rfl
    have htouch : (c.touch k .step).Owned := h.touch k fun op hop => by cases hop
    rw [hplace] at hat
    split
    · exact htouch.answers hcall hholds _
    · exact htouch.goto hcall hholds hat
    · exact htouch
  next k hplace => exact h.answers hcall (by rw [hplace]; rfl) _
  next k hplace =>
    rw [hplace] at hat
    have htouch := (h.touch k (t := .storeStop) fun op hop => by cases hop).touch k
      (t := .call .close)
      fun op hop => by cases hop; rfl
    refine htouch.of_same rfl rfl rfl htouch.held (fun call' hc => ?_) fun _ _ hc => ?_
    · cases hc
      exact hat
    · cases hc _ rfl
  next k hplace =>
    rw [hplace] at hat
    have htouch : (c.touch k .step).Owned := h.touch k fun op hop => by cases hop
    split
    · refine htouch.of_same rfl rfl rfl htouch.held (fun call' hc => ?_) fun _ _ hc => ?_
      · cases hc
        exact hat
      · cases hc _ rfl
    · exact htouch
  next k hplace =>
    rw [hplace] at hat
    have htouch : (c.touch k .finish).Owned := h.touch k fun op hop => by cases hop
    refine htouch.of_same rfl rfl rfl (fun _ hw => ?_) (fun call' hc => ?_) fun _ ht => ?_
    · cases (show c.runtime.worker = none from hat.2.1).symm.trans hw
    · cases hc
      exact ⟨hat.1, hat.2.1, fun hnone => by cases hnone⟩
    · cases ht
  next k hplace => exact h.stepWaiting hcall hplace turn
  next error hplace => exact h.stepFailed hcall hplace
  next hplace => exact h.stepStopped hcall hplace turn
  next k hplace => exact h.stepAcknowledging hcall hplace turn

theorem Owned.step (h : c.Owned) (action : Action) : (c.step action).Owned := by
  cases action with
  | invoke id request => exact h.of_same rfl rfl rfl h.held h.place h.idle
  | abandon id =>
      simp only [Controller.step]
      split
      · exact h.of_same rfl rfl rfl h.held h.place h.idle
      · exact h
  | enter id =>
      simp only [Controller.step]
      split
      next hnone _ =>
        refine h.of_same rfl rfl rfl h.held (fun _ hc => by cases hc; trivial) fun hw ht _ => ?_
        exact h.idle hw ht fun call hc => by rw [hnone] at hc; cases hc
      · exact h
  | call turn =>
      simp only [Controller.step]
      split
      next call hcall => exact h.stepCall hcall turn
      · exact h
  | worker k m => exact h.stepWorker k m

/-! ## Where a call can go -/

/-- The places the call that holds the lock can go to. -/
inductive Leads (c : Controller) (request : Request) : Place → Place → Prop
  | look (k : Nat) : request.stops = false → c.runtime.worker = some k →
      Leads c request .entered (.looking k)
  | take (k : Nat) : c.runtime.worker = some k → Leads c request .entered (.stopping k)
  | nothing : c.runtime.worker = none → c.runtime.terminalError = none →
      Leads c request .entered .stopped
  | admits (k : Nat) : Leads c request (.looking k) (.admitting k)
  | read (k : Nat) {j : ThreadId} {generation : Generation} :
      (c.workers k).gate.event CONTROL = some (.admitted j (some generation)) →
        Leads c request (.admitting k) (.reading k)
  | close (k : Nat) : Leads c request (.stopping k) (.closing k)
  | latch (k : Nat) : Leads c request (.closing k) (.latching k)
  | wait (k : Nat) : Leads c request (.latching k) (.waiting k)
  | verified (k : Nat) : (c.workers k).finisher = .finished (.ok ()) →
      Leads c request (.waiting k) .stopped
  | unverified (k : Nat) (error : String) : Leads c request (.waiting k) (.failed error)
  | start (k : Nat) : request.resumes = true → Leads c request .stopped (.acknowledging k)

/-- The last that is seen of a call. -/
inductive Ends (call : Call) : Event → Prop
  | refused (error : String) : Ends call (.returned call.id call.request (.error error))
  | stopped : call.place = .stopped → Ends call (.returned call.id call.request (.ok ()))
  | reading (k : Nat) : call.place = .reading k →
      Ends call (.returned call.id call.request (.ok ()))
  | acknowledged (k : Nat) : call.place = .acknowledging k →
      Ends call (.returned call.id call.request (.ok ()))
  | answered (result : Except String Bool) : Ends call (.answered call.id result)
  | abandoned : Ends call (.abandoned call.id)
  | unverified (k : Nat) : call.place = .waiting k → Ends call (.unverified call.id)

/-- What one step of a call can do. -/
inductive Goes (c c' : Controller) (call : Call) : Prop
  | stays : c'.call = c.call → c'.log = c.log → Goes c c' call
  | leads (place : Place) : c'.call = some { call with place } →
      Leads c call.request call.place place → c'.log = c.log → Goes c c' call
  | unverified (k : Nat) (error : String) : c'.call = some { call with place := .failed error } →
      call.place = .waiting k → c'.runtime.terminalError ≠ none →
      c'.log = c.log ++ [.unverified call.id] → Goes c c' call
  | ends (e : Event) : c'.call = none → Ends call e → c'.log = c.log ++ [e] → Goes c c' call

variable {call : Call}

theorem goes_returns (c : Controller) {result : Result}
    (h : Ends call (.returned call.id call.request
    result)) : Goes c (c.returns call result) call :=
  .ends _ rfl h rfl

theorem goes_answers_error {c c' : Controller} (call : Call) (error : String)
    (hlog : c'.log = c.log) : Goes c (c'.answers call (.error error)) call := by
  unfold Controller.answers
  split
  · exact .ends _ rfl (.answered _) (congrArg (· ++ _) hlog)
  · exact .ends _ rfl (.refused error) (congrArg (· ++ _) hlog)

theorem goes_stop (hplace : call.place = .entered)
    (hterminal : c.runtime.terminalError = none) : Goes c (c.stop call) call := by
  unfold Controller.stop
  split
  next hworker =>
    exact .leads .stopped rfl (by rw [hplace]; exact .nothing hworker hterminal) rfl
  next k hworker => exact .leads (.stopping k) rfl (by rw [hplace]; exact .take k hworker) rfl

theorem goes_stepEntered (hplace : call.place = .entered) : Goes c (c.stepEntered call) call := by
  unfold Controller.stepEntered
  split
  · exact goes_returns c (.refused _)
  next paused maxBytes hrequest hterminal =>
    split
    next k hworker =>
      split
      next hsame =>
        refine .leads (.looking k) rfl ?_ rfl
        rw [hplace, hrequest, hsame.1]
        exact .look k rfl hworker
      · exact goes_stop hplace hterminal
    · exact goes_stop hplace hterminal
  · exact .ends _ rfl (.refused _) rfl
  next hterminal => exact goes_stop hplace hterminal
  · exact goes_answers_error call _ rfl
  next hrequest hterminal =>
    split
    · unfold Controller.answers
      rw [hrequest]
      exact .ends _ rfl (.answered _) rfl
    next k hworker =>
      refine .leads (.looking k) rfl ?_ rfl
      rw [hplace, hrequest]
      exact .look k rfl hworker

theorem goes_stepWaiting {k : Nat} (hplace : call.place = .waiting k) (turn : Turn) :
    Goes c (c.stepWaiting call k turn) call := by
  have hunverified : ∀ error, Goes c (c.unverified call error) call := fun error =>
    .unverified k error rfl hplace (fun h => by cases h) rfl
  cases turn with
  | next =>
      show Goes c (match (c.workers k).finisher with
        | .finished (.ok ()) => _ | .finished (.error error) => _ | _ => _) call
      split
      next hfinished =>
        exact .leads .stopped rfl (by rw [hplace]; exact .verified k hfinished) rfl
      · exact hunverified _
      · exact .stays rfl rfl
  | failed => exact hunverified _
  | timedOut => exact hunverified _
  | dropped => exact .ends _ rfl (.unverified k hplace) rfl

theorem goes_stepStopped (hplace : call.place = .stopped)
    (turn : Turn) : Goes c (c.stepStopped call turn) call := by
  unfold Controller.stepStopped
  split
  · exact goes_returns c (.stopped hplace)
  next hrequest =>
    split
    · exact goes_returns c (.refused _)
    · split
      · exact goes_returns c (.refused _)
      · exact .leads _ rfl (by rw [hplace, hrequest]; exact .start _ rfl) rfl
  · exact .ends _ rfl (.stopped hplace) rfl
  · exact .stays rfl rfl

theorem goes_stepAcknowledging {k : Nat} (hplace : call.place = .acknowledging k) (turn : Turn) :
    Goes c (c.stepAcknowledging call k turn) call := by
  cases turn with
  | next =>
      show Goes c (match (c.workers k).ready with | some _ => _ | none => _) call
      split
      next result _ =>
        cases result with
        | ok => exact goes_returns c (.acknowledged k hplace)
        | error => exact goes_returns c (.refused _)
      · split
        · exact goes_returns c (.refused _)
        · exact .stays rfl rfl
  | timedOut => exact goes_returns c (.refused _)
  | dropped => exact .ends _ rfl .abandoned rfl
  | failed => exact .stays rfl rfl

theorem goes_stepCall (c : Controller) (call : Call) (turn : Turn) :
    Goes c (c.stepCall call turn) call := by
  unfold Controller.stepCall
  split
  next hplace => exact goes_stepEntered hplace
  next k hplace =>
    split
    · exact goes_answers_error call _ rfl
    · exact .leads _ rfl (by rw [hplace]; exact .admits k) rfl
  next k hplace =>
    split
    · exact goes_answers_error call _ rfl
    next he => exact .leads _ rfl (by rw [hplace]; exact .read k he) rfl
    · exact .stays rfl rfl
  next k hplace =>
    unfold Controller.answers
    split
    · exact .ends _ rfl (.answered _) rfl
    · cases hstatus : (c.workers k).status with
      | ok => exact .ends _ rfl (.reading k hplace) rfl
      | error error => exact .ends _ rfl (.refused error) rfl
  next k hplace => exact .leads _ rfl (by rw [hplace]; exact .close k) rfl
  next k hplace =>
    split
    · exact .leads _ rfl (by rw [hplace]; exact .latch k) rfl
    · exact .stays rfl rfl
  next k hplace => exact .leads _ rfl (by rw [hplace]; exact .wait k) rfl
  next k hplace => exact goes_stepWaiting hplace turn
  next error hplace =>
    unfold Controller.stepFailed
    split
    · exact .ends _ rfl (.refused _) rfl
    · exact .ends _ rfl (.refused _) rfl
  next hplace => exact goes_stepStopped hplace turn
  next k hplace => exact goes_stepAcknowledging hplace turn

/-! ## What a call does to the workers -/

/-- Accesses of the controller to a worker. -/
inductive Touched : Worker → Worker → Prop
  | refl (w : Worker) : Touched w w
  | touch {w w' : Worker} {t : Touch} : (∀ op, t = .call op → op.submits = false) →
      Touched w w' → Touched w (w'.touch t)

variable {w w' : Worker}

theorem Touched.kept (h : Touched w w') : Gate.Kept w.gate w'.gate := by
  induction h with
  | refl => exact .refl _
  | touch ht _ ih => exact ih.trans (Worker.touch_gate _ _ ht).kept

theorem Touched.clean (h : Touched w w') (hs : w.Sound) (hclean : w.Clean) :
    w'.Sound ∧ w'.Clean := by
  induction h with
  | refl => exact ⟨hs, hclean⟩
  | touch ht _ ih => exact ⟨ih.1.touch ht, ih.2.touch ih.1 ht⟩

theorem touched_touch (c : Controller) (k : Nat) {t : Touch}
    (ht : ∀ op, t = .call op → op.submits = false) (j : Nat) :
    Touched (c.workers j) ((c.touch k t).workers j) := by
  show Touched (c.workers j) (Function.update c.workers k _ j)
  by_cases hj : j = k
  · subst hj
    rw [Function.update_self]
    exact .touch ht (.refl _)
  · rw [Function.update_of_ne hj]
    exact .refl _

theorem answers_workers (c : Controller) (call : Call) (result : Except String Bool) :
    (c.answers call result).workers = c.workers := by
  unfold Controller.answers
  split <;> rfl

theorem stop_workers (c : Controller) (call : Call) : (c.stop call).workers = c.workers := by
  unfold Controller.stop
  split <;> rfl

theorem stepEntered_workers (c : Controller) (call : Call) :
    (c.stepEntered call).workers = c.workers := by
  unfold Controller.stepEntered
  split
  · rfl
  · split
    · split
      · rfl
      · exact c.stop_workers call
    · exact c.stop_workers call
  · rfl
  · exact c.stop_workers call
  · exact c.answers_workers call _
  · split
    · exact c.answers_workers call _
    · rfl

theorem stepWaiting_workers (c : Controller) (call : Call) (k : Nat) (turn : Turn) :
    (c.stepWaiting call k turn).workers = c.workers := by
  cases turn with
  | next =>
      show (match (c.workers k).finisher with
        | .finished (.ok ()) => _ | .finished (.error error) => _ | _ => _ : Controller).workers = _
      split <;> rfl
  | _ => rfl

theorem stepAcknowledging_workers (c : Controller) (call : Call) (k : Nat) (turn : Turn) :
    (c.stepAcknowledging call k turn).workers = c.workers := by
  cases turn with
  | next =>
      show (match (c.workers k).ready with | some _ => _ | none => _ : Controller).workers = _
      split
      · rfl
      · split <;> rfl
  | _ => rfl

/-- A call only touches the workers, or it starts a new one. -/
theorem stepCall_workers (c : Controller) (call : Call) (turn : Turn) (j : Nat) :
    Touched (c.workers j) ((c.stepCall call turn).workers j) ∨
      (j = c.spawned ∧ call.request.resumes = true) := by
  have hstep : ∀ op, Touch.step = .call op → op.submits = false := fun op hop => by cases hop
  unfold Controller.stepCall
  split
  · rw [stepEntered_workers]
    exact .inl (.refl _)
  next k _ =>
    split
    · rw [answers_workers]
      exact .inl (.refl _)
    · exact .inl (c.touched_touch k (fun op hop => by cases hop; rfl) j)
  next k _ =>
    split
    · rw [answers_workers]
      exact .inl (c.touched_touch k hstep j)
    · exact .inl (c.touched_touch k hstep j)
    · exact .inl (c.touched_touch k hstep j)
  · rw [answers_workers]
    exact .inl (.refl _)
  next k _ =>
    refine .inl ?_
    show Touched (c.workers j) (((c.touch k .storeStop).touch k (.call .close)).workers j)
    by_cases hj : j = k
    · subst hj
      simp only [Controller.touch, Function.update_self]
      exact .touch (fun op hop => by cases hop; rfl) (.touch (fun op hop => by cases hop) (.refl _))
    · simp only [Controller.touch, Function.update_of_ne hj]
      exact .refl _
  next k _ =>
    split
    · exact .inl (c.touched_touch k hstep j)
    · exact .inl (c.touched_touch k hstep j)
  next k _ => exact .inl (c.touched_touch k (fun op hop => by cases hop) j)
  · rw [stepWaiting_workers]
    exact .inl (.refl _)
  · unfold Controller.stepFailed
    split <;> exact .inl (.refl _)
  · unfold Controller.stepStopped
    split
    · exact .inl (.refl _)
    next hrequest =>
      split
      · exact .inl (.refl _)
      · split
        · exact .inl (.refl _)
        · by_cases hj : j = c.spawned
          · exact .inr ⟨hj, by rw [hrequest]; rfl⟩
          · refine .inl ?_
            show Touched _ (Function.update c.workers c.spawned _ j)
            rw [Function.update_of_ne hj]
            exact .refl _
    · exact .inl (.refl _)
    · exact .inl (.refl _)
  · rw [stepAcknowledging_workers]
    exact .inl (.refl _)

/-! ## What is seen of a step -/

/-- Where an event comes from. -/
inductive From (c : Controller) (a : Action) : Event → Prop
  | invoked (id : Nat) (request : Request) : From c a (.invoked id request)
  | abandoned (id : Nat) : From c a (.abandoned id)
  | began (id : Nat) (request : Request) : (c.step a).call = some ⟨id, request, .entered⟩ →
      From c a (.began id request)
  | call (call : Call) (turn : Turn) (e : Event) : c.call = some call → a = .call turn →
      (c.step a).call = none → Ends call e → From c a e
  | unverified (call : Call) (error : String) : (c.step a).call = some { call with
      place := .failed error } → (c.step a).runtime.terminalError ≠ none →
      From c a (.unverified call.id)
  | worker (k : Nat) (m : Move) (e : Worker.Event) : a = .worker k m →
      ((c.workers k).move m).2 = some e → From c a (.worker k e)

theorem logs : Logs step log := by
  intro c a
  cases a with
  | invoke id request => exact .inr ⟨_, rfl⟩
  | abandon id =>
      simp only [Controller.step]
      split
      · exact .inr ⟨_, rfl⟩
      · exact .inl rfl
  | enter id =>
      simp only [Controller.step]
      split
      · exact .inr ⟨_, rfl⟩
      · exact .inl rfl
  | call turn =>
      simp only [Controller.step]
      split
      next call _ =>
        cases goes_stepCall c call turn with
        | stays _ hlog => exact .inl hlog
        | leads _ _ _ hlog => exact .inl hlog
        | unverified _ _ _ _ _ hlog => exact .inr ⟨_, hlog⟩
        | ends _ _ _ hlog => exact .inr ⟨_, hlog⟩
      · exact .inl rfl
  | worker k m =>
      show (c.log ++ _ = _) ∨ ∃ e, c.log ++ _ = _
      cases ((c.workers k).move m).2 with
      | none => exact .inl (List.append_nil _)
      | some e => exact .inr ⟨_, rfl⟩

theorem append_singleton_ne {α : Type} {l : List α} {x : α} (h : l = l ++ [x]) : False := by
  simpa using congrArg List.length h

theorem from_log {a : Action} {e : Event} (h : (c.step a).log = c.log ++ [e]) : From c a e := by
  cases a with
  | invoke id request =>
      cases List.append_cancel_left h
      exact .invoked id request
  | abandon id =>
      simp only [Controller.step] at h
      split at h
      · cases List.append_cancel_left h
        exact .abandoned id
      · exact (append_singleton_ne h).elim
  | enter id =>
      simp only [Controller.step] at h
      split at h
      next request hnone hfind =>
        cases List.append_cancel_left h
        refine .began id request ?_
        simp only [Controller.step]
        split
        next request' _ hfind' =>
          cases hfind.symm.trans hfind'
          rfl
        next hnot => exact absurd hfind (hnot _ _ hnone)
      · exact (append_singleton_ne h).elim
  | call turn =>
      cases hcall : c.call with
      | none =>
          simp only [Controller.step, hcall] at h
          exact (append_singleton_ne h).elim
      | some call =>
          have hstep : c.step (.call turn) = c.stepCall call turn := by
            simp only [Controller.step, hcall]
          rw [hstep] at h
          cases goes_stepCall c call turn with
          | stays _ hlog => exact (append_singleton_ne (hlog.symm.trans h)).elim
          | leads _ _ _ hlog => exact (append_singleton_ne (hlog.symm.trans h)).elim
          | unverified k error hcall' _ hterminal hlog =>
              cases List.append_cancel_left (hlog.symm.trans h)
              exact .unverified call error (by rw [hstep]; exact hcall')
                (by rw [hstep]; exact hterminal)
          | ends e' hnone hends hlog =>
              cases List.append_cancel_left (hlog.symm.trans h)
              exact .call call turn e hcall rfl (by rw [hstep]; exact hnone) hends
  | worker k m =>
      replace h : c.log ++ (((c.workers k).move m).2.map (Event.worker k)).toList = c.log ++ [e] :=
        h
      replace h := List.append_cancel_left h
      cases hevent : ((c.workers k).move m).2 with
      | none => rw [hevent] at h; cases h
      | some e' => rw [hevent] at h; cases h; exact .worker k m e' rfl hevent

/-! ## Stopped and staying so -/

/-- The worker's gate keeps what it has, unless the worker is started in this step. -/
theorem step_kept (c : Controller) (a : Action) (k : Nat) :
    Gate.Kept (c.workers k).gate ((c.step a).workers k).gate ∨ k = c.spawned := by
  cases a with
  | invoke id request => exact .inl (.refl _)
  | abandon id =>
      simp only [Controller.step]
      split <;> exact .inl (.refl _)
  | enter id =>
      simp only [Controller.step]
      split <;> exact .inl (.refl _)
  | call turn =>
      simp only [Controller.step]
      split
      next call _ =>
        rcases c.stepCall_workers call turn k with h | h
        · exact .inl h.kept
        · exact .inr h.1
      · exact .inl (.refl _)
  | worker j m =>
      refine .inl ?_
      show Gate.Kept _ (Function.update c.workers j _ k).gate
      by_cases hk : k = j
      · subst hk
        rw [Function.update_self]
        exact Worker.move_kept _ m
      · rw [Function.update_of_ne hk]
        exact .refl _

/-- The worker's gate remembers a failure. -/
theorem Owned.doomed (h : c.Owned) {k : Nat} (hk : (c.workers k).gate.Doomed) (a : Action) :
    ((c.step a).workers k).gate.Doomed := by
  rcases c.step_kept a k with hkept | hspawned
  · exact hkept.doomed (h.sound k).gate hk
  · exact absurd (h.older k (by omega)) (Worker.not_clean_of_doomed (h.sound k) hk)

theorem Owned.failed (h : c.Owned) {k : Nat} (hk : (c.workers k).gate.Failed) (a : Action) :
    ((c.step a).workers k).gate.Failed := by
  rcases c.step_kept a k with hkept | hspawned
  · exact hkept.failed hk
  · exact absurd (h.older k (by omega)) (Worker.not_clean_of_doomed (h.sound k) (.inr hk))

/-- Does the call look at a worker that runs, or wait for one it started? -/
def Place.runs : Place → Bool
  | .looking _ | .admitting _ | .reading _ | .acknowledging _ => true
  | _ => false

/-- A call that asks capture to stop does not report a running worker. -/
def Asked (c : Controller) : Prop :=
  ∀ call, c.call = some call → Place.runs call.place = true → call.request.stops = false

theorem stops_eq_false {request : Request} (h : request.resumes = true) :
    request.stops = false := by
  cases request with
  | setPaused paused => cases paused with
    | false => rfl
    | true => cases h
  | shutdown => cases h
  | isPaused => rfl

theorem Asked.step (h : c.Asked) (a : Action) : (c.step a).Asked := by
  cases a with
  | invoke id request => exact h
  | abandon id =>
      simp only [Controller.step]
      split <;> exact h
  | enter id =>
      simp only [Controller.step]
      split
      · intro call hcall hruns
        cases hcall
        cases hruns
      · exact h
  | call turn =>
      simp only [Controller.step]
      split
      next call hcall =>
        intro call' hcall' hruns
        cases goes_stepCall c call turn with
        | stays hsame _ => exact h call' (hsame ▸ hcall') hruns
        | leads place hplace hleads _ =>
            cases hplace.symm.trans hcall'
            generalize hp : call.place = before at hleads
            cases hleads with
            | look k hstops _ => exact hstops
            | admits k => exact h call hcall (by rw [hp]; rfl)
            | read k _ => exact h call hcall (by rw [hp]; rfl)
            | start k hresumes => exact stops_eq_false hresumes
            | _ => cases hruns
        | unverified k error hplace _ _ _ =>
            cases hplace.symm.trans hcall'
            cases hruns
        | ends e hnone _ _ => rw [hnone] at hcall'; cases hcall'
      · exact h
  | worker k m => exact h

/-- The state between the steps. -/
structure Reached (c : Controller) : Prop where
  owned : c.Owned
  asked : c.Asked

theorem Reached.step (h : c.Reached) (a : Action) : (c.step a).Reached :=
  ⟨h.owned.step a, h.asked.step a⟩

theorem reached_after (actions : List Action) : (init.after actions).Reached :=
  foldl_invariant (I := Reached) (fun _ a h => h.step a) actions
    ⟨owned_init, fun _ h => by cases h⟩

/-- When a stop returns `Ok`, every worker is stopped. -/
theorem Reached.stopped (h : c.Reached) {a : Action} {id : Nat} {request : Request}
    (hlog : (c.step a).log = c.log ++ [.returned id request (.ok ())])
    (hstops : request.stops = true) :
    ∃ call turn, c.call = some call ∧ a = .call turn ∧ call.place = .stopped ∧
      call.request = request ∧ (c.step a).call = none ∧ ∀ k, (c.workers k).Clean := by
  cases from_log hlog with
  | call call turn _ hcall ha hnone hends =>
      have hplace : call.place = .stopped := by
        generalize he : Event.returned id request (.ok ()) = e at hends
        cases hends with
        | stopped hplace => exact hplace
        | reading k hplace =>
            cases he
            have := h.asked call hcall (by rw [hplace]; rfl)
            rw [hstops] at this
            cases this
        | acknowledged k hplace =>
            cases he
            have := h.asked call hcall (by rw [hplace]; rfl)
            rw [hstops] at this
            cases this
        | _ => cases he
      have hrequest : call.request = request := by
        generalize he : Event.returned id request (.ok ()) = e at hends
        cases hends <;> cases he <;> rfl
      have hat := h.owned.place call hcall
      rw [hplace] at hat
      refine ⟨call, turn, hcall, ha, hplace, hrequest, hnone, ?_⟩
      refine h.owned.idle hat.1 hat.2 fun call' hcall' => ?_
      cases hcall.symm.trans hcall'
      rw [hplace]
      rfl

/-- Every worker is stopped, nobody holds one, and no call that may start one is under way. -/
structure Quiet (c : Controller) : Prop where
  clean : ∀ k, (c.workers k).Clean
  free : c.runtime.worker = none
  asked : ∀ call, c.call = some call → call.request.resumes = false

theorem stepCall_clean (h : c.Owned) {call : Call} (hclean : ∀ k, (c.workers k).Clean)
    (hresumes : call.request.resumes = false) (turn : Turn) (k : Nat) :
    ((c.stepCall call turn).workers k).Clean := by
  rcases c.stepCall_workers call turn k with htouched | ⟨-, hyes⟩
  · exact (htouched.clean (h.sound k) (hclean k)).2
  · rw [hresumes] at hyes
    cases hyes

theorem stepCall_free {call : Call} (hfree : c.runtime.worker = none)
    (hresumes : call.request.resumes = false) (turn : Turn) :
    (c.stepCall call turn).runtime.worker = none := by
  have hanswers : ∀ (c' : Controller) result, c'.runtime.worker = none →
      (c'.answers call result).runtime.worker = none := fun c' result hc => by
    unfold Controller.answers
    split <;> exact hc
  have hstop : (c.stop call).runtime.worker = none := by
    unfold Controller.stop
    rw [hfree]
    exact hfree
  unfold Controller.stepCall
  split
  · unfold Controller.stepEntered
    split
    · exact hfree
    · split
      · split
        · exact hfree
        · exact hstop
      · exact hstop
    · exact hfree
    · exact hstop
    · exact hanswers c _ hfree
    · split
      · exact hanswers c _ hfree
      · exact hfree
  · split
    · exact hanswers c _ hfree
    · exact hfree
  · split
    · exact hanswers _ _ hfree
    · exact hfree
    · exact hfree
  · exact hanswers c _ hfree
  · exact hfree
  · split <;> exact hfree
  · exact hfree
  next k _ =>
    cases turn with
    | next =>
        show (match (c.workers k).finisher with
          | .finished (.ok ()) => _ | .finished (.error error) => _ | _ => _ :
            Controller).runtime.worker = none
        split <;> exact hfree
    | _ => exact hfree
  · unfold Controller.stepFailed
    split <;> exact hfree
  · unfold Controller.stepStopped
    split
    · exact hfree
    next hrequest => rw [hrequest] at hresumes; cases hresumes
    · exact hfree
    · exact hfree
  next k _ =>
    cases turn with
    | next =>
        show (match (c.workers k).ready with | some _ => _ | none => _ :
          Controller).runtime.worker = none
        split
        · exact hfree
        · split <;> exact hfree
    | _ => exact hfree

/-- A stopped controller stays as it is until a call that asks capture to run takes the
lock, and nothing is seen of its workers. -/
theorem Quiet.step (h : c.Quiet) (ho : c.Owned) (a : Action) :
    ((c.step a).Quiet ∧ ∀ k, (c.step a).log ≠ c.log ++ [.worker k .ingestStarted]) ∨
      ∃ id maxBytes, (c.step a).log = c.log ++ [.began id (.setPaused false maxBytes)] := by
  have hsilent : ∀ k, (c.step a).log ≠ c.log ++ [.worker k .ingestStarted] := by
    intro k hlog
    generalize he : Event.worker k .ingestStarted = e at hlog
    cases from_log hlog with
    | worker j m ev ha hevent =>
        cases he
        rw [((h.clean k).move (ho.sound k) m).2] at hevent
        cases hevent
    | call call turn e _ _ _ hends =>
        subst he
        cases hends
    | _ => cases he
  cases a with
  | invoke id request => exact .inl ⟨⟨h.clean, h.free, h.asked⟩, hsilent⟩
  | abandon id =>
      refine .inl ⟨?_, hsilent⟩
      simp only [Controller.step]
      split
      · exact ⟨h.clean, h.free, h.asked⟩
      · exact h
  | enter id =>
      simp only [Controller.step] at hsilent ⊢
      split at hsilent
      next request hnone hfind =>
        cases hresumes : request.resumes with
        | true =>
            right
            cases request with
            | setPaused paused maxBytes => cases paused with
              | false => exact ⟨id, maxBytes, rfl⟩
              | true => cases hresumes
            | shutdown => cases hresumes
            | isPaused => cases hresumes
        | false =>
            refine .inl ⟨⟨h.clean, h.free, fun call hcall => ?_⟩, hsilent⟩
            cases hcall
            exact hresumes
      · exact .inl ⟨h, hsilent⟩
  | call turn =>
      refine .inl ⟨?_, hsilent⟩
      simp only [Controller.step]
      split
      next call hcall =>
        have hresumes := h.asked call hcall
        refine ⟨stepCall_clean ho h.clean hresumes turn, stepCall_free h.free hresumes turn,
          fun call' hcall' => ?_⟩
        cases goes_stepCall c call turn with
        | stays hsame _ => exact h.asked call' (hsame ▸ hcall')
        | leads place hplace _ _ => cases hplace.symm.trans hcall'; exact hresumes
        | unverified k error hplace _ _ _ => cases hplace.symm.trans hcall'; exact hresumes
        | ends e hnone _ _ => rw [hnone] at hcall'; cases hcall'
      · exact h
  | worker k m =>
      refine .inl ⟨⟨fun j => ?_, h.free, h.asked⟩, hsilent⟩
      show (Function.update c.workers k _ j).Clean
      by_cases hj : j = k
      · subst hj
        rw [Function.update_self]
        exact ((h.clean j).move (ho.sound j) m).1
      · rw [Function.update_of_ne hj]
        exact h.clean j

/-- After a stop that returned `Ok` the controller is quiet. -/
theorem Reached.quiet (h : c.Reached) {a : Action} {id : Nat} {request : Request}
    (hlog : (c.step a).log = c.log ++ [.returned id request (.ok ())])
    (hstops : request.stops = true) : (c.step a).Quiet := by
  obtain ⟨call, turn, hcall, rfl, hplace, rfl, hnone, hclean⟩ := h.stopped hlog hstops
  have hresumes : call.request.resumes = false := by
    cases hr : call.request.resumes with
    | false => rfl
    | true => rw [stops_eq_false hr] at hstops; cases hstops
  have hat := h.owned.place call hcall
  rw [hplace] at hat
  have hstep : c.step (.call turn) = c.stepCall call turn := by
    simp only [Controller.step, hcall]
  refine ⟨fun k => ?_, ?_, fun call' hcall' => ?_⟩
  · rw [hstep]
    exact stepCall_clean h.owned hclean hresumes turn k
  · rw [hstep]
    exact stepCall_free hat.1 hresumes turn
  · rw [hnone] at hcall'
    cases hcall'

/-! ## After a failure -/

/-- Can the call still return `Ok` without another look at a worker? -/
def Place.settled : Place → Bool
  | .reading _ | .stopped | .acknowledging _ => true
  | _ => false

/-- A worker's gate remembers a failure, and the call that holds the lock will see it. -/
structure Stuck (k : Nat) (c : Controller) : Prop where
  failed : (c.workers k).gate.Failed
  place : ∀ call, c.call = some call → Place.settled call.place = false

/-- A stop was not verified, and the call that holds the lock knows it. -/
structure Latched (c : Controller) : Prop where
  terminal : c.runtime.terminalError ≠ none
  place : ∀ call, c.call = some call → call.place = .entered ∨ ∃ error, call.place = .failed error

theorem not_ok_of_settled {a : Action}
    (h : ∀ call, c.call = some call → Place.settled call.place = false) (id : Nat)
    (request : Request) : (c.step a).log ≠ c.log ++ [.returned id request (.ok ())] := by
  intro hlog
  generalize he : Event.returned id request (.ok ()) = e at hlog
  cases from_log hlog with
  | call call turn e hcall _ _ hends =>
      have hplace := h call hcall
      cases hends with
      | stopped hp => rw [hp] at hplace; cases hplace
      | reading k hp => rw [hp] at hplace; cases hplace
      | acknowledged k hp => rw [hp] at hplace; cases hplace
      | _ => cases he
  | _ => cases he

/-- A failed worker is the one that everybody looks at. -/
theorem Owned.not_clean (h : c.Owned) {k : Nat} (hk : (c.workers k).gate.Failed) :
    k + 1 = c.spawned ∧ ¬(c.workers k).Clean := by
  have hnot := Worker.not_clean_of_doomed (h.sound k) (.inr hk)
  refine ⟨?_, hnot⟩
  by_contra hold
  exact hnot (h.older k hold)

theorem Stuck.step {k : Nat} (h : Stuck k c) (hr : c.Reached) (a : Action) :
    Stuck k (c.step a) := by
  obtain ⟨hspawned, hnot⟩ := hr.owned.not_clean h.failed
  refine ⟨hr.owned.failed h.failed a, fun call' hcall' => ?_⟩
  cases a with
  | invoke id request => exact h.place call' hcall'
  | abandon id =>
      simp only [Controller.step] at hcall'
      split at hcall' <;> exact h.place call' hcall'
  | enter id =>
      simp only [Controller.step] at hcall'
      split at hcall'
      · cases hcall'
        rfl
      · exact h.place call' hcall'
  | call turn =>
      simp only [Controller.step] at hcall'
      split at hcall'
      next call hcall =>
        have hat := hr.owned.place call hcall
        have hplace := h.place call hcall
        cases goes_stepCall c call turn with
        | stays hsame _ => exact h.place call' (hsame ▸ hcall')
        | leads place hgoto hleads _ =>
            cases hgoto.symm.trans hcall'
            generalize hp : call.place = before at hleads hat hplace
            cases hleads with
            | nothing hworker hterminal =>
                refine absurd (hr.owned.idle hworker hterminal (fun call'' hcall'' => ?_) k) hnot
                cases hcall.symm.trans hcall''
                rw [hp]
                rfl
            | @read j i generation he =>
                -- the gate that failed is not open
                have hj := (hr.owned.held j hat).1
                have hjk : j = k := by omega
                subst hjk
                have haccess := (c.workers j).gate.event_access CONTROL
                rw [he] at haccess
                have hopen := haccess.opens rfl
                rw [h.failed.2.1] at hopen
                cases hopen
            | verified j hfinished =>
                have hjk : j = k := by have := hat.1; omega
                subst hjk
                exact absurd ((hr.owned.sound j).verified hfinished) hnot
            | start => cases hplace
            | _ => rfl
        | unverified j error hgoto _ _ _ =>
            cases hgoto.symm.trans hcall'
            rfl
        | ends e hnone _ _ => rw [hnone] at hcall'; cases hcall'
      next hnone => rw [hnone] at hcall'; cases hcall'
  | worker j m => exact h.place call' hcall'

theorem Latched.step (h : c.Latched) (a : Action) : (c.step a).Latched := by
  cases a with
  | invoke id request => exact ⟨h.terminal, h.place⟩
  | abandon id =>
      simp only [Controller.step]
      split
      · exact ⟨h.terminal, h.place⟩
      · exact h
  | enter id =>
      simp only [Controller.step]
      split
      · refine ⟨h.terminal, fun call hcall => ?_⟩
        cases hcall
        exact .inl rfl
      · exact h
  | call turn =>
      simp only [Controller.step]
      split
      next call hcall =>
        cases hterminal : c.runtime.terminalError with
        | none => exact absurd hterminal h.terminal
        | some error =>
            have hanswers : ∀ result, (c.answers call result).Latched := fun result => by
              unfold Controller.answers
              split
              · exact ⟨h.terminal, fun _ hc => by cases hc⟩
              · exact ⟨h.terminal, fun _ hc => by cases hc⟩
            rcases h.place call hcall with hplace | ⟨error', hplace⟩
            · have hstep : c.stepCall call turn = c.stepEntered call := by
                unfold Controller.stepCall
                rw [hplace]
              rw [hstep]
              unfold Controller.stepEntered
              rw [hterminal]
              cases call.request with
              | setPaused paused maxBytes => exact ⟨h.terminal, fun _ hc => by cases hc⟩
              | shutdown => exact ⟨fun hc => by (cases hc), fun _ hc => by (cases hc)⟩
              | isPaused => exact hanswers _
            · have hstep : c.stepCall call turn = c.stepFailed call error' := by
                unfold Controller.stepCall
                rw [hplace]
              rw [hstep]
              unfold Controller.stepFailed
              split
              · exact ⟨fun hc => by (cases hc), fun _ hc => by (cases hc)⟩
              · exact ⟨h.terminal, fun _ hc => by cases hc⟩
      · exact h
  | worker k m => exact ⟨h.terminal, h.place⟩

/-- A stop that is not verified latches an error. -/
theorem Reached.latched (h : c.Reached) {a : Action} {id : Nat}
    (hlog : (c.step a).log = c.log ++ [.unverified id]) : (c.step a).Latched := by
  generalize he : Event.unverified id = e at hlog
  cases from_log hlog with
  | unverified call error hcall hterminal =>
      refine ⟨hterminal, fun call' hcall' => ?_⟩
      cases hcall.symm.trans hcall'
      exact .inr ⟨error, rfl⟩
  | call call turn e hcall ha hnone hends =>
      cases hends with
      | unverified k hplace =>
          have hat := h.owned.place call hcall
          rw [hplace] at hat
          refine ⟨?_, fun call' hcall' => by rw [hnone] at hcall'; cases hcall'⟩
          subst ha
          have hstep : c.step (.call turn) = c.stepWaiting call k turn := by
            simp only [Controller.step, hcall, Controller.stepCall, hplace]
          rw [hstep] at hnone ⊢
          cases turn with
          | next =>
              have hcallnone : (c.stepWaiting call k .next).call = none := hnone
              have hother : (match (c.workers k).finisher with
                | .finished (.ok ()) => _ | .finished (.error error) => _ | _ => _ :
                  Controller).call = none := hnone
              split at hother
              · cases hother
              · cases hother
              · rw [hcall] at hother
                cases hother
          | failed => exact fun hc => by cases hc
          | timedOut => exact fun hc => by cases hc
          | dropped => exact hat.2.2
      | _ => cases he
  | _ => cases he

/-! ## Acknowledged stops -/

theorem after_append (actions actions' : List Action) (c : Controller) :
    c.after (actions ++ actions') = (c.after actions).after actions' := List.foldl_append

theorem Reached.after (h : c.Reached) (actions : List Action) : (c.after actions).Reached :=
  foldl_invariant (I := Reached) (fun _ a h => h.step a) actions h

theorem Reached.doomed_after (h : c.Reached) {k : Nat} (hk : (c.workers k).gate.Doomed)
    (actions : List Action) : ((c.after actions).workers k).gate.Doomed := by
  have hboth := foldl_invariant
    (I := fun c : Controller => c.Reached ∧ (c.workers k).gate.Doomed)
    (fun _ a h => ⟨h.1.step a, h.1.owned.doomed h.2 a⟩) actions ⟨h, hk⟩
  exact hboth.2

theorem Reached.failed_after (h : c.Reached) {k : Nat} (hk : (c.workers k).gate.Failed)
    (actions : List Action) : ((c.after actions).workers k).gate.Failed := by
  have hboth := foldl_invariant
    (I := fun c : Controller => c.Reached ∧ (c.workers k).gate.Failed)
    (fun _ a h => ⟨h.1.step a, h.1.owned.failed h.2 a⟩) actions ⟨h, hk⟩
  exact hboth.2

theorem doomed_of_log {a : Action} {k : Nat}
    (hlog : (c.step a).log = c.log ++ [.worker k (.ingestEnded false)]) :
    ((c.step a).workers k).gate.Doomed := by
  generalize he : Event.worker k (.ingestEnded false) = e at hlog
  cases from_log hlog with
  | worker j m ev ha hevent =>
      cases he
      subst ha
      show (Function.update c.workers k _ k).gate.Doomed
      rw [Function.update_self]
      exact Worker.doomed_of_ingestEnded hevent
  | call call turn e _ _ _ hends =>
      subst he
      cases hends
  | _ => cases he

theorem Owned.failed_of_log (h : c.Owned) {a : Action} {k : Nat}
    (hlog : (c.step a).log = c.log ++ [.worker k .submitFailed]) :
    ((c.step a).workers k).gate.Failed := by
  generalize he : Event.worker k .submitFailed = e at hlog
  cases from_log hlog with
  | worker j m ev ha hevent =>
      cases he
      subst ha
      show (Function.update c.workers k _ k).gate.Failed
      rw [Function.update_self]
      exact Worker.failed_of_submitFailed (h.sound k) hevent
  | call call turn e _ _ _ hends =>
      subst he
      cases hends
  | _ => cases he

/-- From a failed submission and a later call on, no call returns `Ok`. -/
theorem Reached.stuck (h : c.Reached) {k : Nat} (hk : (c.workers k).gate.Failed) {a : Action}
    {id : Nat} {request : Request} (hlog : (c.step a).log = c.log ++ [.began id request]) :
    Stuck k (c.step a) := by
  refine ⟨h.owned.failed hk a, fun call hcall => ?_⟩
  generalize he : Event.began id request = e at hlog
  cases from_log hlog with
  | began id request hcall' =>
      cases hcall'.symm.trans hcall
      rfl
  | call call turn e _ _ _ hends =>
      subst he
      cases hends
  | _ => cases he

theorem Stuck.after {k : Nat} (h : Stuck k c) (hr : c.Reached) (actions : List Action) :
    Stuck k (c.after actions) := by
  have hboth := foldl_invariant (I := fun c : Controller => c.Reached ∧ Stuck k c)
    (fun _ a h => ⟨h.1.step a, h.2.step h.1 a⟩) actions ⟨hr, h⟩
  exact hboth.2

theorem Quiet.after (h : c.Quiet) (hr : c.Reached) (actions : List Action) :
    (c.after actions).Quiet ∨ ∃ id maxBytes, .began id (.setPaused false maxBytes) ∈
      (c.after actions).log.drop c.log.length := by
  induction actions using List.reverseRecOn with
  | nil => exact .inl h
  | append_singleton actions a ih =>
      have hreached : (c.after actions).Reached :=
        foldl_invariant (I := Reached) (fun _ a h => h.step a) actions hr
      have hlength : c.log.length ≤ (c.after actions).log.length :=
        (logs.prefix_foldl actions c).length_le
      have hstep : c.after (actions ++ [a]) = (c.after actions).step a := after_append _ _ _
      rw [hstep]
      rcases ih with hquiet | ⟨id, maxBytes, hbegan⟩
      · rcases hquiet.step hreached.owned a with hquiet' | ⟨id, maxBytes, hlog⟩
        · exact .inl hquiet'.1
        · refine .inr ⟨id, maxBytes, ?_⟩
          rw [hlog, List.drop_append_of_le_length hlength]
          exact List.mem_append_right _ (List.mem_singleton_self _)
      · refine .inr ⟨id, maxBytes, ?_⟩
        rcases logs (c.after actions) a with hlog | ⟨e, hlog⟩
        · rw [hlog]
          exact hbegan
        · rw [hlog, List.drop_append_of_le_length hlength]
          exact List.mem_append_left _ hbegan

/-- What a pause or a shutdown that returns `Ok` promises, for every behaviour of the sink
and of the Wayland loop and every order of the steps.

When it returns, no ingest call is in progress and the last call of `set_admission` agreed
to admit nothing; and no ingest call starts before a call that asks capture to run takes
the lock.  Once an ingest call has failed, no pause and no shutdown returns `Ok`; once its
submission has returned, no call does that takes the lock later; and once a stop was not
verified, no call does at all. -/
theorem acknowledged_stop (actions : List Action) :
    let c := init.after actions
    (∀ a id request, (c.step a).log = c.log ++ [.returned id request (.ok ())] →
      request.stops = true →
        (∀ k, ¬((c.step a).workers k).Ingesting) ∧ Settled (c.step a).admission) ∧
    (∀ A B C id request k, c.log = A ++ .returned id request (.ok ()) ::
        (B ++ .worker k .ingestStarted :: C) → request.stops = true →
      ∃ id' maxBytes, .began id' (.setPaused false maxBytes) ∈ B) ∧
    (∀ A E k, c.log = A ++ .worker k (.ingestEnded false) :: E →
      ∀ id request, request.stops = true → .returned id request (.ok ()) ∉ E) ∧
    (∀ A B E k id' request', c.log = A ++ .worker k .submitFailed ::
        (B ++ .began id' request' :: E) →
      ∀ id request, .returned id request (.ok ()) ∉ E) ∧
    ∀ A E id', c.log = A ++ .unverified id' :: E →
      ∀ id request, .returned id request (.ok ()) ∉ E := by
  intro c
  refine ⟨?_, ?_, ?_, ?_, ?_⟩
  · intro a id request hlog hstops
    have hreached := reached_after actions
    have hquiet := hreached.quiet hlog hstops
    have howned := (hreached.step a).owned
    exact ⟨fun k => (hquiet.clean k).not_ingesting (howned.sound k), howned.settled hquiet.clean⟩
  · intro A B C id request k hlog hstops
    obtain ⟨as₁, a, as₂, a', hreturned, hlog₁, hlog₂, hstarted⟩ := logs.split_pair rfl hlog
    have hreached := reached_after as₁
    have hlength : (((init.after as₁).step a)).log.length = A.length + 1 := by
      rw [after, hreturned, hlog₁, List.length_append, List.length_singleton]
    rcases (hreached.quiet hreturned hstops).after (hreached.step a) as₂ with hquiet | hbegan
    · rcases hquiet.step ((hreached.step a).after as₂).owned a' with ⟨-, hnot⟩ | ⟨id', n, hbegan⟩
      · exact absurd hstarted (hnot k)
      · cases List.append_cancel_left (hbegan.symm.trans hstarted)
    · rw [hlength, after, after, hlog₂, List.drop_append, List.drop_of_length_le (Nat.le_succ _),
        Nat.add_sub_cancel_left] at hbegan
      exact hbegan
  · intro A E k hlog id request hstops hmem
    obtain ⟨B, C, rfl⟩ := List.append_of_mem hmem
    obtain ⟨as₁, a, as₂, a', hended, -, -, hreturned⟩ := logs.split_pair rfl hlog
    have hreached := (reached_after as₁).step a
    have hdoomed := doomed_of_log hended
    obtain ⟨_, _, _, _, _, _, _, hclean⟩ := (hreached.after as₂).stopped hreturned hstops
    exact Worker.not_clean_of_doomed ((hreached.after as₂).owned.sound k)
      (hreached.doomed_after hdoomed as₂) (hclean k)
  · intro A B E k id' request' hlog id request hmem
    obtain ⟨C, D, rfl⟩ := List.append_of_mem hmem
    have hpair : c.log = (A ++ .worker k .submitFailed :: B) ++ .began id' request' ::
        (C ++ .returned id request (.ok ()) :: D) := by rw [hlog]; simp
    obtain ⟨as₁, a, as₂, a', hbegan, hlog₁, -, hreturned⟩ := logs.split_pair rfl hpair
    -- the failed submission returned on the way to the later call
    obtain ⟨bs, b, rest, rfl, hlog₀, hstep₀⟩ := logs.split rfl hlog₁
    have hreached := reached_after bs
    have hfailed := hreached.owned.failed_of_log (a := b) (k := k) (by rw [after, hstep₀, hlog₀])
    have hlater := (hreached.step b).failed_after hfailed rest
    have hstate : ((init.after bs).step b).after rest =
        (bs ++ b :: rest).foldl Controller.step init := by
      rw [List.foldl_append]
      rfl
    rw [hstate] at hlater
    have hstuck := (reached_after (bs ++ b :: rest)).stuck hlater hbegan
    have hreached' := (reached_after (bs ++ b :: rest)).step a
    exact not_ok_of_settled (hstuck.after hreached' as₂).place id request hreturned
  · intro A E id' hlog id request hmem
    obtain ⟨B, C, rfl⟩ := List.append_of_mem hmem
    obtain ⟨as₁, a, as₂, a', hunverified, -, -, hreturned⟩ := logs.split_pair rfl hlog
    have hlatched := foldl_invariant (I := Latched) (fun _ a h => h.step a) as₂
      ((reached_after as₁).latched hunverified)
    refine not_ok_of_settled (fun call hcall => ?_) id request hreturned
    rcases hlatched.place call hcall with hplace | ⟨error, hplace⟩
    · rw [hplace]
      rfl
    · rw [hplace]
      rfl

/-! ## Two races -/

/-- The first promise of `acknowledged_stop`, with calls that begin where they are made. -/
def StaysStopped (c : Controller) : Prop :=
  ∀ A B C id request k, c.log = A ++ .returned id request (.ok ()) ::
      (B ++ .worker k .ingestStarted :: C) → request.stops = true →
    ∃ id' maxBytes, .invoked id' (.setPaused false maxBytes) ∈ B

/-- The second promise, from the failure of the ingest call on. -/
def StaysFailed (c : Controller) : Prop :=
  ∀ A B C k id request, c.log = A ++ .worker k (.ingestEnded false) ::
      (B ++ .invoked id request :: C) → .returned id request (.ok ()) ∉ C

/-- Worker 0 opens the gate and admits a generation in its Wayland loop. -/
def opening : List Action :=
  [.worker 0 (.spawn true), .worker 0 .main, .worker 0 (.sink (.returned (.ok ()))),
    .worker 0 (.sink (.returned (.ok ()))), .worker 0 .main, .worker 0 .main, .worker 0 .main,
    .worker 0 .main, .worker 0 (.wayland .reportOk), .worker 0 (.wayland .admits),
    .worker 0 (.wayland .step), .worker 0 (.wayland .step)]

/-- It sends a job, and the ingest thread starts it. -/
def ingesting : List Action :=
  [.worker 0 (.wayland (.send ⟨1, 1⟩)), .worker 0 .ingest, .worker 0 .ingest, .worker 0 .ingest,
    .worker 0 .ingest]

/-- A call that asks capture to run is made while a pause holds the lock. -/
def queuedResume : List Action :=
  [.invoke 0 (.setPaused true 1), .enter 0, .invoke 1 (.setPaused false 1), .call .next,
    .call .next, .enter 1, .call .next, .call .next] ++ opening ++ ingesting

/-- A call looks at the gate before the failed submission has closed it. -/
def lateLook : List Action :=
  [.invoke 0 (.setPaused false 1), .enter 0, .call .next, .call .next] ++ opening ++
    [.call .next] ++ ingesting ++ [.worker 0 (.ingestEnds false), .invoke 1 (.setPaused false 1),
      .enter 1, .call .next, .call .next, .call .next, .call .next, .call .next]

theorem queuedResume_log : (init.after queuedResume).log =
    [.invoked 0 (.setPaused true 1), .began 0 (.setPaused true 1),
      .invoked 1 (.setPaused false 1)] ++
      .returned 0 (.setPaused true 1) (.ok ()) :: ([.began 1 (.setPaused false 1),
        .worker 0 (.admissionCalled true), .worker 0 (.admissionReturned (.returned (.ok ())))] ++
          .worker 0 .ingestStarted :: []) := rfl

theorem lateLook_log : (init.after lateLook).log =
    [.invoked 0 (.setPaused false 1), .began 0 (.setPaused false 1),
      .worker 0 (.admissionCalled true), .worker 0 (.admissionReturned (.returned (.ok ()))),
      .returned 0 (.setPaused false 1) (.ok ()), .worker 0 .ingestStarted] ++
      .worker 0 (.ingestEnded false) :: ([] ++ .invoked 1 (.setPaused false 1) ::
        [.began 1 (.setPaused false 1), .returned 1 (.setPaused false 1) (.ok ())]) := rfl

/-- A queued call restarts capture after the pause, and for a moment a failed ingest call
is not known to the gate. -/
theorem acknowledged_stop_races :
    (¬∀ actions, StaysStopped (init.after actions)) ∧
      ¬∀ actions, StaysFailed (init.after actions) := by
  refine ⟨fun h => ?_, fun h => ?_⟩
  · obtain ⟨id', maxBytes, hmem⟩ := h queuedResume _ _ _ _ _ _ queuedResume_log rfl
    simp at hmem
  · exact h lateLook _ _ _ _ _ _ lateLook_log (by simp)

end Controller

end Capture

end ClipDaemon
