import ClipDaemon.History.Operation

/-!
# The life of one operation

The maps, the controls and the tasks of `Operations` are keyed by the operation, and every
critical section works on one key.  So the daemon runs one small machine for each operation,
`Life`, whose steps are listed in `Life.Step`; what an operation can look like is the
inductive `Life.Valid`, with one constructor for each stage between the registration and the
terminal event.  `Moves` says that a statement makes steps of the lives, and `each_program`
that all statements do.
-/

namespace ClipDaemon

/-! ## Histories -/

/-- What has happened to one operation. -/
structure Trace where
  registered : List OperationResult
  began : Bool
  worked : List (BackendResult OperationCompletion)
  claimed : Bool
  ended : List (Nat × OperationResult)
  removed : Bool

/-- Nothing has happened. -/
def Trace.empty : Trace := ⟨[], false, [], false, [], false⟩

/-- One more effect of the operation. -/
def Trace.add (trace : Trace) : OperationEffect → Trace
  | .registered operation => { trace with registered := trace.registered ++ [operation] }
  | .started => trace
  | .began => { trace with began := true }
  | .worked result => { trace with worked := trace.worked ++ [result] }
  | .claimed => { trace with claimed := true }
  | .ended time event => { trace with ended := trace.ended ++ [(time, event)] }
  | .removed _ => { trace with removed := true }

/-- What the log says of an operation. -/
def trace (id : Uuid) (log : List (Uuid × OperationEffect)) : Trace :=
  log.foldl (fun trace entry => if entry.1 = id then trace.add entry.2 else trace) .empty

@[simp] theorem trace_self (id : Uuid) (log : List (Uuid × OperationEffect))
    (effect : OperationEffect) : trace id (log ++ [(id, effect)]) = (trace id log).add effect := by
  simp [trace]

@[simp] theorem trace_of_ne {id j : Uuid} (h : j ≠ id) (log : List (Uuid × OperationEffect))
    (effect : OperationEffect) : trace j (log ++ [(id, effect)]) = trace j log := by
  simp [trace, h.symm]

/-! ## Lives -/

/-- The part of the state that is about one operation. -/
structure Life where
  active : Option OperationTask
  cancelling : Option OperationResult
  control : Phase
  task : TaskState
  closure : Bool
  aborted : Bool
  started : Bool
  cleanup : CleanupState
  trace : Trace

/-- The result of an operation that was cancelled. -/
def OperationResult.cancelled (id : Uuid) (action : String) : OperationResult :=
  .withId id action "cancelled" "Image operation cancelled"

/-- The steps of an operation. -/
inductive Life.Step (id : Uuid) (now : Nat) : Life → Life → Prop
  | register (l : Life) (initial : OperationResult) (files : List String)
      (hfresh : l.trace.registered = []) (hid : initial.id = id)
      (hstatus : initial.status = "started") :
      Step id now l { l with
        active := some ⟨initial, initial.action, files⟩
        task := .ready initial.action
        trace := l.trace.add (.registered initial) }
  | start (l : Life) : Step id now l { l with started := true }
  | begin (l : Life) (action : String) (htask : l.task = .ready action) :
      Step id now l { l with task := .working action }
  | commit (l : Life) (action : String) (htask : l.task = .working action)
      (hcontrol : l.control = .editing) :
      Step id now l { l with control := .committing, trace := l.trace.add .began }
  | block (l : Life) (action : String) (htask : l.task = .working action) :
      Step id now l { l with task := .blocking action, closure := true }
  | unblock (l : Life) (action : String) (htask : l.task = .blocking action) :
      Step id now l { l with task := .working action, closure := false }
  | outlive (l : Life) (hclosure : l.closure = true) (htask : ∀ action, l.task ≠ .blocking action) :
      Step id now l { l with closure := false }
  | finish (l : Life) (action : String) (result : BackendResult OperationCompletion)
      (htask : l.task = .working action) :
      Step id now l { l with
        task := .ended action result
        trace := l.trace.add (.worked result) }
  | complete (l : Life) (action : String) (result : BackendResult OperationCompletion)
      (task : OperationTask) (htask : l.task = .ended action result)
      (hactive : l.active = some task) :
      Step id now l { l with
        active := none
        task := .finishing (some (Operations.report id action result))
        trace := (l.trace.add (.removed task.files)).add
          (.ended now (Operations.report id action result)) }
  | miss (l : Life) (action : String) (result : BackendResult OperationCompletion)
      (htask : l.task = .ended action result) (hactive : l.active = none) :
      Step id now l { l with task := .finishing none }
  | release (l : Life) (event : Option OperationResult) (htask : l.task = .finishing event) :
      Step id now l { l with
        control := .finished
        task := if event.isSome then .after else .over }
  | settle (l : Life) (htask : l.task = .after) : Step id now l { l with task := .over }
  | abort (l : Life) (haborted : l.aborted = true) : Step id now l { l with task := .over }
  | claim (l : Life) (task : OperationTask) (hactive : l.active = some task)
      (hcontrol : l.control = .editing) :
      Step id now l { l with
        active := none
        cancelling := some task.initial
        control := .cancelled
        cleanup := .aborting task
        trace := l.trace.add .claimed }
  | strike (l : Life) (task : OperationTask) (hcleanup : l.cleanup = .aborting task) :
      Step id now l { l with aborted := true, cleanup := .joining task }
  | join (l : Life) (task : OperationTask) (hcleanup : l.cleanup = .joining task)
      (htask : l.task = .over) :
      Step id now l { l with
        cleanup := .dropped task.action
        trace := l.trace.add (.removed task.files) }
  | publish (l : Life) (action : String) (hcleanup : l.cleanup = .dropped action) :
      Step id now l { l with
        cancelling := none
        control := .finished
        cleanup := .done
        trace := l.trace.add (.ended now (.cancelled id action)) }

/-- The work is not running, and never will. -/
def TaskState.Stopped : TaskState → Prop
  | .finishing _ | .after | .over => True
  | _ => False

/-- The work has not reported yet, and whether it waits for a closure. -/
inductive Busy (action : String) :
    TaskState → Bool → List (BackendResult OperationCompletion) → Prop
  | ready : Busy action (.ready action) false []
  | working : Busy action (.working action) false []
  | blocking : Busy action (.blocking action) true []
  | ended (result : BackendResult OperationCompletion) :
      Busy action (.ended action result) false [result]

/-- The work of an operation that a cancellation has taken: it goes on until the abortion
strikes, or until it finds that its record is gone.  A closure that runs then goes on. -/
inductive Winding (action : String) : TaskState → Phase → Bool →
    List (BackendResult OperationCompletion) → Prop
  | busy (state : TaskState) (closure : Bool) (worked : List (BackendResult OperationCompletion))
      (h : Busy action state closure worked) : Winding action state .cancelled closure worked
  | missed (worked : List (BackendResult OperationCompletion)) :
      Winding action (.finishing none) .cancelled false worked
  | released (worked : List (BackendResult OperationCompletion)) :
      Winding action .over .finished false worked
  | aborted (closure : Bool) (worked : List (BackendResult OperationCompletion)) :
      Winding action .over .cancelled closure worked

/-- The cleanup of an operation that is being cancelled, whether its task is aborted, and
whether its files are removed. -/
inductive Cleaning (task : OperationTask) : CleanupState → TaskState → Bool → Bool → Prop
  | aborting (state : TaskState) : Cleaning task (.aborting task) state false false
  | joining (state : TaskState) : Cleaning task (.joining task) state true false
  | dropped : Cleaning task (.dropped task.action) .over true true

/-- The cleanup does not look at the task before it is over. -/
theorem Cleaning.retask {task : OperationTask} {cleanup : CleanupState} {state state' : TaskState}
    {aborted removed : Bool} (h : Cleaning task cleanup state aborted removed)
    (hbusy : state ≠ .over) : Cleaning task cleanup state' aborted removed := by
  cases h with
  | aborting => exact .aborting state'
  | joining => exact .joining state'
  | dropped => exact absurd rfl hbusy

/-- The stages of an operation. -/
inductive Life.Valid (id : Uuid) : Life → Prop
  | fresh (started : Bool) :
      Valid id ⟨none, none, .editing, .none, false, false, started, .none, .empty⟩
  | running (initial : OperationResult) (files : List String) (state : TaskState)
      (began closure started : Bool) (worked : List (BackendResult OperationCompletion))
      (hid : initial.id = id) (hstatus : initial.status = "started")
      (hbusy : Busy initial.action state closure worked) :
      Valid id ⟨some ⟨initial, initial.action, files⟩, none,
        if began then .committing else .editing, state, closure, false, started, .none,
        ⟨[initial], began, worked, false, [], false⟩⟩
  | cancelling (initial : OperationResult) (files : List String) (state : TaskState)
      (control : Phase) (closure started aborted removed : Bool) (cleanup : CleanupState)
      (worked : List (BackendResult OperationCompletion))
      (hid : initial.id = id) (hstatus : initial.status = "started")
      (hwinding : Winding initial.action state control closure worked)
      (hcleaning : Cleaning ⟨initial, initial.action, files⟩ cleanup state aborted removed) :
      Valid id ⟨none, some initial, control, state, closure, aborted, started, cleanup,
        ⟨[initial], false, worked, true, [], removed⟩⟩
  | completed (initial : OperationResult) (result : BackendResult OperationCompletion)
      (state : TaskState) (control : Phase) (began started : Bool) (time : Nat)
      (hid : initial.id = id)
      (hstate : state = .finishing (some (Operations.report id initial.action result)) ∨
        (state = .after ∨ state = .over) ∧ control = .finished) :
      Valid id ⟨none, none, control, state, false, false, started, .none,
        ⟨[initial], began, [result], false,
          [(time, Operations.report id initial.action result)], true⟩⟩
  | cancelled (initial : OperationResult) (closure started : Bool) (time : Nat)
      (worked : List (BackendResult OperationCompletion)) (hid : initial.id = id) :
      Valid id ⟨none, none, .finished, .over, closure, true, started, .done,
        ⟨[initial], false, worked, true, [(time, .cancelled id initial.action)], true⟩⟩

/-- Every step leads from a stage to a stage. -/
theorem Life.Valid.step {id : Uuid} {now : Nat} {l l' : Life} (h : l.Valid id)
    (hstep : Life.Step id now l l') : l'.Valid id := by
  cases hstep with
  | register initial files hfresh hid hstatus =>
      cases h with
      | fresh started => exact .running initial files _ false false started [] hid hstatus .ready
      | _ => cases hfresh
  | start =>
      cases h with
      | fresh started => exact .fresh true
      | running initial files state began closure started worked hid hstatus hbusy =>
          exact .running initial files state began closure true worked hid hstatus hbusy
      | cancelling initial files state control closure started aborted removed cleanup worked hid
          hstatus hwinding hcleaning =>
          exact .cancelling initial files state control closure true aborted removed cleanup worked
            hid hstatus hwinding hcleaning
      | completed initial result state control began started time hid hstate =>
          exact .completed initial result state control began true time hid hstate
      | cancelled initial closure started time worked hid =>
          exact .cancelled initial closure true time worked hid
  | begin action htask =>
      cases h with
      | fresh => cases htask
      | running initial files state began closure started worked hid hstatus hbusy =>
          cases hbusy <;> cases htask
          exact .running initial files _ began false started [] hid hstatus .working
      | cancelling initial files state control closure started aborted removed cleanup worked hid
          hstatus hwinding hcleaning =>
          cases hwinding with
          | busy state closure worked hbusy =>
              cases hbusy <;> cases htask
              exact .cancelling initial files _ _ false started aborted removed cleanup [] hid
                hstatus (.busy _ _ _ .working) (hcleaning.retask (by intro h; cases h))
          | _ => cases htask
      | completed _ _ _ _ _ _ _ _ hstate => rcases hstate with rfl | ⟨rfl | rfl, -⟩ <;> cases htask
      | cancelled => cases htask
  | commit action htask hcontrol =>
      cases h with
      | running initial files state began closure started worked hid hstatus hbusy =>
          exact .running initial files state true closure started worked hid hstatus hbusy
      | cancelling _ _ _ _ _ _ _ _ _ _ _ _ hwinding => cases hwinding <;> cases hcontrol
      | completed _ _ _ _ _ _ _ _ hstate => rcases hstate with rfl | ⟨rfl | rfl, -⟩ <;> cases htask
      | _ => cases htask
  | block action htask =>
      cases h with
      | running initial files state began closure started worked hid hstatus hbusy =>
          cases hbusy <;> cases htask
          exact .running initial files _ began true started [] hid hstatus .blocking
      | cancelling initial files state control closure started aborted removed cleanup worked hid
          hstatus hwinding hcleaning =>
          cases hwinding with
          | busy state closure worked hbusy =>
              cases hbusy <;> cases htask
              exact .cancelling initial files _ _ true started aborted removed cleanup [] hid
                hstatus (.busy _ _ _ .blocking) (hcleaning.retask (by intro h; cases h))
          | _ => cases htask
      | completed _ _ _ _ _ _ _ _ hstate => rcases hstate with rfl | ⟨rfl | rfl, -⟩ <;> cases htask
      | _ => cases htask
  | unblock action htask =>
      cases h with
      | running initial files state began closure started worked hid hstatus hbusy =>
          cases hbusy <;> cases htask
          exact .running initial files _ began false started [] hid hstatus .working
      | cancelling initial files state control closure started aborted removed cleanup worked hid
          hstatus hwinding hcleaning =>
          cases hwinding with
          | busy state closure worked hbusy =>
              cases hbusy <;> cases htask
              exact .cancelling initial files _ _ false started aborted removed cleanup [] hid
                hstatus (.busy _ _ _ .working) (hcleaning.retask (by intro h; cases h))
          | _ => cases htask
      | completed _ _ _ _ _ _ _ _ hstate => rcases hstate with rfl | ⟨rfl | rfl, -⟩ <;> cases htask
      | _ => cases htask
  | outlive hclosure htask =>
      cases h with
      | running initial files state began closure started worked hid hstatus hbusy =>
          cases hbusy <;> cases hclosure
          exact absurd rfl (htask _)
      | cancelling initial files state control closure started aborted removed cleanup worked hid
          hstatus hwinding hcleaning =>
          cases hwinding with
          | busy state closure worked hbusy =>
              cases hbusy <;> cases hclosure
              exact absurd rfl (htask _)
          | aborted closure worked =>
              exact .cancelling initial files _ _ false started aborted removed cleanup worked hid
                hstatus (.aborted _ worked) hcleaning
          | _ => cases hclosure
      | cancelled initial closure started time worked hid =>
          exact .cancelled initial false started time worked hid
      | _ => cases hclosure
  | finish action result htask =>
      cases h with
      | running initial files state began closure started worked hid hstatus hbusy =>
          cases hbusy <;> cases htask
          exact .running initial files _ began false started [result] hid hstatus (.ended result)
      | cancelling initial files state control closure started aborted removed cleanup worked hid
          hstatus hwinding hcleaning =>
          cases hwinding with
          | busy state closure worked hbusy =>
              cases hbusy <;> cases htask
              exact .cancelling initial files _ _ false started aborted removed cleanup [result] hid
                hstatus (.busy _ _ _ (.ended result)) (hcleaning.retask (by intro h; cases h))
          | _ => cases htask
      | completed _ _ _ _ _ _ _ _ hstate => rcases hstate with rfl | ⟨rfl | rfl, -⟩ <;> cases htask
      | _ => cases htask
  | complete action result task htask hactive =>
      cases h with
      | running initial files state began closure started worked hid hstatus hbusy =>
          cases hbusy <;> cases htask
          exact .completed initial result _ _ began started now hid (.inl rfl)
      | _ => cases hactive
  | miss action result htask hactive =>
      cases h with
      | running => cases hactive
      | cancelling initial files state control closure started aborted removed cleanup worked hid
          hstatus hwinding hcleaning =>
          cases hwinding with
          | busy state closure worked hbusy =>
              cases hbusy <;> cases htask
              exact .cancelling initial files _ _ false started aborted removed cleanup [result] hid
                hstatus (.missed _) (hcleaning.retask (by intro h; cases h))
          | _ => cases htask
      | completed _ _ _ _ _ _ _ _ hstate => rcases hstate with rfl | ⟨rfl | rfl, -⟩ <;> cases htask
      | _ => cases htask
  | release event htask =>
      cases h with
      | running initial files state began closure started worked hid hstatus hbusy =>
          cases hbusy <;> cases htask
      | cancelling initial files state control closure started aborted removed cleanup worked hid
          hstatus hwinding hcleaning =>
          cases hwinding with
          | busy state closure worked hbusy => cases hbusy <;> cases htask
          | missed worked =>
              cases htask
              exact .cancelling initial files _ _ false started aborted removed cleanup worked hid
                hstatus (.released worked) (hcleaning.retask (by intro h; cases h))
          | _ => cases htask
      | completed initial result state control began started time hid hstate =>
          rcases hstate with rfl | ⟨rfl | rfl, -⟩ <;> cases htask
          exact .completed initial result _ _ began started time hid (.inr ⟨.inl rfl, rfl⟩)
      | _ => cases htask
  | settle htask =>
      cases h with
      | running initial files state began closure started worked hid hstatus hbusy =>
          cases hbusy <;> cases htask
      | cancelling _ _ _ _ _ _ _ _ _ _ _ _ hwinding =>
          cases hwinding with
          | busy state closure worked hbusy => cases hbusy <;> cases htask
          | _ => cases htask
      | completed initial result state control began started time hid hstate =>
          rcases hstate with rfl | ⟨rfl | rfl, rfl⟩ <;> cases htask
          exact .completed initial result _ _ began started time hid (.inr ⟨.inr rfl, rfl⟩)
      | _ => cases htask
  | abort haborted =>
      cases h with
      | cancelling initial files state control closure started aborted removed cleanup worked hid
          hstatus hwinding hcleaning =>
          have hover : Winding initial.action .over control closure worked := by
            cases hwinding with
            | released => exact .released worked
            | _ => exact .aborted _ worked
          refine .cancelling initial files _ _ closure started aborted removed cleanup worked hid
            hstatus hover ?_
          cases hcleaning with
          | aborting => exact .aborting _
          | joining => exact .joining _
          | dropped => exact .dropped
      | cancelled initial closure started time worked hid =>
          exact .cancelled initial closure started time worked hid
      | _ => cases haborted
  | claim task hactive hcontrol =>
      cases h with
      | running initial files state began closure started worked hid hstatus hbusy =>
          cases hactive
          cases began with
          | false =>
              exact .cancelling initial files state _ closure started false false _ worked hid
                hstatus (.busy state closure worked hbusy) (.aborting state)
          | true => cases hcontrol
      | _ => cases hactive
  | strike task hcleanup =>
      cases h with
      | cancelling initial files state control closure started aborted removed cleanup worked hid
          hstatus hwinding hcleaning =>
          cases hcleaning <;> cases hcleanup
          exact .cancelling initial files state control closure started true false _ worked hid
            hstatus hwinding (.joining state)
      | _ => cases hcleanup
  | join task hcleanup htask =>
      cases h with
      | cancelling initial files state control closure started aborted removed cleanup worked hid
          hstatus hwinding hcleaning =>
          cases hcleaning <;> cases hcleanup
          cases htask
          exact .cancelling initial files .over control closure started true true _ worked hid
            hstatus hwinding .dropped
      | _ => cases hcleanup
  | publish action hcleanup =>
      cases h with
      | cancelling initial files state control closure started aborted removed cleanup worked hid
          hstatus hwinding hcleaning =>
          cases hcleaning <;> cases hcleanup
          exact .cancelled initial closure started now worked hid
      | _ => cases hcleanup

/-- What is active has not ended. -/
theorem Life.Valid.of_active {id : Uuid} {l : Life} {task : OperationTask} (h : l.Valid id)
    (hactive : l.active = some task) : l.trace.ended = [] := by
  cases h with
  | running => rfl
  | _ => cases hactive

/-- What is being cancelled has not ended. -/
theorem Life.Valid.of_dropped {id : Uuid} {l : Life} {action : String} (h : l.Valid id)
    (hcleanup : l.cleanup = .dropped action) : l.trace.ended = [] := by
  cases h with
  | cancelling => rfl
  | _ => cases hcleanup

namespace Operations

/-! ## The lives of all operations -/

/-- What the state holds of one operation. -/
def life (s : Operations) (id : Uuid) : Life where
  active := s.active id
  cancelling := s.cancelling id
  control := s.control id
  task := s.task id
  closure := s.closure id
  aborted := s.aborted id
  started := s.started id
  cleanup := s.cleanup id
  trace := trace id s.log

/-- The terminal events, oldest first. -/
def results (log : List (Uuid × OperationEffect)) : List (Nat × OperationResult) :=
  log.filterMap fun entry =>
    match entry.2 with
    | .ended time event => some (time, event)
    | _ => none

/-- The queue shows what is left of all terminal events, in their order. -/
structure Shown (s : Operations) : Prop where
  kept : Retention.prune TERMINAL_AGE s.now s.terminal =
    Retention.kept MAX_TERMINAL TERMINAL_AGE s.now (results s.log)
  timed : Retention.Timed s.now s.terminal

/-- The keys are those of the operations that were registered. -/
def Listed (s : Operations) : Prop :=
  ∀ id, id ∈ s.ids ↔ (trace id s.log).registered ≠ []

/-- What a statement does.  A new entry of the queue is the terminal event of an operation
that had none. -/
structure Moves (s t : Operations) : Prop where
  now : s.now ≤ t.now
  life : ∀ id, t.life id = s.life id ∨ Life.Step id s.now (s.life id) (t.life id)
  shown : s.Shown → t.Shown
  listed : s.Listed → t.Listed
  queue : (∀ id, (s.life id).Valid id) →
    ∀ entry ∈ Retention.prune TERMINAL_AGE t.now t.terminal,
      entry ∈ Retention.prune TERMINAL_AGE s.now s.terminal ∨
        (trace entry.2.id s.log).ended = []

section Moves

variable {s t u : Operations} {id : Uuid}

theorem results_concat (id : Uuid) (log : List (Uuid × OperationEffect)) (effect : OperationEffect)
    (h : ∀ time event, effect ≠ .ended time event) :
    results (log ++ [(id, effect)]) = results log := by
  rw [results, List.filterMap_append]
  cases effect with
  | ended time event => exact absurd rfl (h time event)
  | _ => exact List.append_nil _

theorem results_ended (log : List (Uuid × OperationEffect)) (time : Nat) (event : OperationResult) :
    results (log ++ [(id, .ended time event)]) = results log ++ [(time, event)] :=
  List.filterMap_append

/-- A statement on one operation that retains no result. -/
theorem Moves.of_effect {effect : OperationEffect} (hnow : t.now = s.now)
    (hterminal : t.terminal = s.terminal) (hids : t.ids = s.ids)
    (hlog : t.log = s.log ++ [(id, effect)])
    (heffect : ∀ time event, effect ≠ .ended time event)
    (hregistered : ∀ operation, effect ≠ .registered operation)
    (hothers : ∀ j, j ≠ id → t.life j = s.life j)
    (hself : t.life id = s.life id ∨ Life.Step id s.now (s.life id) (t.life id)) : Moves s t where
  now := hnow.ge
  life j := by
    rcases eq_or_ne j id with rfl | hne
    · exact hself
    · exact .inl (hothers j hne)
  shown h := by
    constructor
    · rw [hterminal, hnow, hlog, results_concat id s.log effect heffect]
      exact h.kept
    · rw [hterminal, hnow]
      exact h.timed
  listed h j := by
    rw [hids, h j, hlog]
    rcases eq_or_ne j id with rfl | hne
    · rw [trace_self]
      cases effect with
      | registered operation => exact absurd rfl (hregistered operation)
      | _ => rfl
    · rw [trace_of_ne hne]
  queue _ entry hentry := by
    rw [hterminal, hnow] at hentry
    exact .inl hentry

/-- A statement on one operation that logs nothing. -/
theorem Moves.quiet (id : Uuid) (hnow : t.now = s.now) (hterminal : t.terminal = s.terminal)
    (hids : t.ids = s.ids) (hlog : t.log = s.log)
    (hothers : ∀ j, j ≠ id → t.life j = s.life j)
    (hself : t.life id = s.life id ∨ Life.Step id s.now (s.life id) (t.life id)) : Moves s t where
  now := hnow.ge
  life j := by
    rcases eq_or_ne j id with rfl | hne
    · exact hself
    · exact .inl (hothers j hne)
  shown h := by
    constructor
    · rw [hterminal, hnow, hlog]
      exact h.kept
    · rw [hterminal, hnow]
      exact h.timed
  listed h j := by
    rw [hids, hlog]
    exact h j
  queue _ entry hentry := by
    rw [hterminal, hnow] at hentry
    exact .inl hentry

/-- The steps of single operations and of the queue of a statement that retains a result. -/
theorem Moves.retain (id : Uuid) (event : OperationResult) (hnow : t.now = s.now)
    (hterminal : t.terminal = Retention.retain MAX_TERMINAL TERMINAL_AGE s.now s.terminal event)
    (hids : t.ids = s.ids)
    (hresults : results t.log = results s.log ++ [(s.now, event)])
    (hregistered : ∀ j, (trace j t.log).registered = (trace j s.log).registered)
    (hothers : ∀ j, j ≠ id → t.life j = s.life j)
    (hself : Life.Step id s.now (s.life id) (t.life id)) (hid : event.id = id)
    (hnew : (s.life id).Valid id → (trace id s.log).ended = []) : Moves s t where
  now := hnow.ge
  life j := by
    rcases eq_or_ne j id with rfl | hne
    · exact .inr hself
    · exact .inl (hothers j hne)
  shown h := by
    constructor
    · rw [hterminal, hnow, hresults]
      exact Retention.prune_retain (by decide) (by decide) event h.kept
    · rw [hterminal, hnow]
      exact h.timed.retain event
  listed h j := by
    rw [hids, hregistered]
    exact h j
  queue hvalid entry hentry := by
    rw [hterminal, hnow] at hentry
    have hmem := Retention.prune_retain_subset (Retention.prune_suffix.subset hentry)
    rcases List.mem_append.mp hmem with hmem | hmem
    · exact .inl hmem
    · rw [List.mem_singleton.mp hmem]
      subst hid
      exact .inr (hnew (hvalid event.id))

theorem moves_refl (s : Operations) : Moves s s :=
  ⟨Nat.le_refl _, fun _ => .inl rfl, fun h => h, fun h => h, fun _ _ h => .inl h⟩

theorem moves_elapse (time : Nat) (s : Operations) : Moves s { s with now := s.now + time } where
  now := Nat.le_add_right ..
  life _ := .inl rfl
  shown h := by
    have hlater : s.now ≤ s.now + time := Nat.le_add_right ..
    refine ⟨?_, h.timed.later hlater⟩
    change Retention.prune _ (s.now + time) s.terminal = Retention.kept _ _ (s.now + time) _
    rw [← Retention.prune_prune hlater, h.kept, Retention.kept, Retention.prune_prune hlater,
      Retention.kept]
  listed h := h
  queue _ _ hentry := .inl (Retention.prune_subset (Nat.le_add_right ..) hentry)

theorem moves_status (id : Uuid) (s : Operations) : Moves s (s.status id).2 where
  now := Nat.le_refl _
  life _ := .inl rfl
  shown h := by
    refine ⟨?_, h.timed.of_suffix Retention.prune_suffix⟩
    change Retention.prune _ s.now (Retention.prune _ s.now s.terminal) = _
    rw [Retention.prune_prune (Nat.le_refl _)]
    exact h.kept
  listed h := h
  queue _ _ hentry := .inl (Retention.prune_suffix.subset hentry)

/-! ### The task -/

theorem moves_beginCommit {action : String} (htask : s.task id = .working action) :
    Moves s (s.beginCommit id).2 := by
  rw [beginCommit]
  cases hcontrol : s.control id with
  | editing =>
      refine .of_effect rfl rfl rfl rfl (by intro _ _ h; cases h) (by intro _ h; cases h)
        (fun j hne => ?_) (.inr ?_)
      · simp [life, record, setControl, hne]
      · have hstep := @Life.Step.commit id s.now (s.life id) action htask hcontrol
        simpa [life, record, setControl] using hstep
  | _ => exact moves_refl s

/-- A step of the task alone. -/
theorem moves_setTask {state : TaskState}
    (h : Life.Step id s.now (s.life id) { s.life id with task := state }) :
    Moves s (s.setTask id state) := by
  refine .quiet id rfl rfl rfl rfl (fun j hne => ?_) (.inr ?_)
  · simp [life, setTask, hne]
  · simpa [life, setTask] using h

theorem moves_aborted (h : (if s.aborted id then some (s.setTask id .over) else none) = some t) :
    Moves s t := by
  cases haborted : s.aborted id with
  | false => simp [haborted] at h
  | true =>
      simp only [haborted, if_true, Option.some.injEq] at h
      subst h
      exact moves_setTask (.abort _ haborted)

theorem moves_complete {action : String} {result : BackendResult OperationCompletion}
    (htask : s.task id = .ended action result) : Moves s (s.complete id action result) := by
  rw [complete]
  cases hactive : s.active id with
  | some task =>
      refine .retain id (report id action result) rfl rfl rfl ?_ ?_
        (fun j hne => ?_) ?_ (by cases result <;> rfl) (fun hvalid => hvalid.of_active hactive)
      · rw [← results_concat id s.log (.removed task.files) (by intro _ _ h; cases h)]
        exact results_ended ..
      · intro j
        rcases eq_or_ne j id with rfl | hne
        · simp [-List.append_assoc, setTask, Operations.retain, record, Trace.add]
        · simp [-List.append_assoc, setTask, Operations.retain, record, hne]
      · simp [-List.append_assoc, life, setTask, Operations.retain, record, hne]
      · have hstep := @Life.Step.complete id s.now (s.life id) action result task htask
          hactive
        simpa [-List.append_assoc, life, setTask, Operations.retain, record] using hstep
  | none => exact moves_setTask (.miss _ action result htask hactive)

/-- A closure is handed to the pool, or returns. -/
theorem moves_closure {runs : Bool} {state : TaskState}
    (h : Life.Step id s.now (s.life id) { s.life id with task := state, closure := runs }) :
    Moves s ((s.setClosure id runs).setTask id state) := by
  refine .quiet id rfl rfl rfl rfl (fun j hne => ?_) (.inr ?_)
  · simp [life, setTask, setClosure, hne]
  · simpa [life, setTask, setClosure] using h

theorem moves_leavePool (hclosure : s.closure id = true) : Moves s (s.leavePool id) := by
  rw [leavePool]
  split
  next action htask => exact moves_closure (.unblock _ action htask)
  next hother =>
    refine .quiet id rfl rfl rfl rfl (fun j hne => ?_) (.inr ?_)
    · simp [life, setClosure, hne]
    · have hstep := @Life.Step.outlive id s.now (s.life id) hclosure hother
      simpa [life, setClosure] using hstep

theorem moves_pollTask {move : TaskMove} (h : s.pollTask id move = some t) : Moves s t := by
  simp only [pollTask] at h
  split at h
  next action htask =>
    split at h
    · cases h
      exact moves_setTask (.begin _ action htask)
    · cases h
  next action htask =>
    cases h
    exact moves_beginCommit htask
  next action htask =>
    cases h
    exact moves_closure (.block _ action htask)
  next htask =>
    split at h
    next hclosure =>
      cases h
      exact moves_leavePool hclosure
    next => cases h
  next result action htask =>
    cases h
    refine .of_effect rfl rfl rfl rfl (by intro _ _ h; cases h) (by intro _ h; cases h)
      (fun j hne => ?_) (.inr ?_)
    · simp [life, setTask, record, hne]
    · have hstep := @Life.Step.finish id s.now (s.life id) action result htask
      simpa [life, setTask, record] using hstep
  next action result htask =>
    cases h
    exact moves_complete htask
  next event htask =>
    cases h
    refine .quiet id rfl rfl rfl rfl (fun j hne => ?_) (.inr ?_)
    · simp [life, setTask, setControl, hne]
    · have hstep := @Life.Step.release id s.now (s.life id) event htask
      simpa [life, setTask, setControl] using hstep
  next htask =>
    cases h
    exact moves_setTask (.settle _ htask)
  next => exact moves_aborted h
  next => exact moves_aborted h
  next => exact moves_aborted h
  next => exact moves_aborted h
  next => cases h

/-! ### The cleanup -/

theorem moves_publishCancelled {action : String} (hcleanup : s.cleanup id = .dropped action) :
    Moves s (s.publishCancelled id action) := by
  refine .retain id (.cancelled id action) rfl rfl rfl (results_ended ..) ?_
    (fun j hne => ?_) ?_ rfl (fun hvalid => hvalid.of_dropped hcleanup)
  · intro j
    rcases eq_or_ne j id with rfl | hne
    · simp [publishCancelled, setCleanup, setControl, Operations.retain, record, Trace.add]
    · simp [publishCancelled, setCleanup, setControl, Operations.retain, record, hne]
  · simp [life, publishCancelled, setCleanup, setControl, Operations.retain, record, hne]
  · have hstep := @Life.Step.publish id s.now (s.life id) action hcleanup
    simpa [life, publishCancelled, setCleanup, setControl, Operations.retain, record,
      OperationResult.cancelled] using hstep

theorem moves_pollCleanup (h : s.pollCleanup id = some t) : Moves s t := by
  rw [pollCleanup] at h
  split at h
  next task hcleanup =>
    cases h
    refine .quiet id rfl rfl rfl rfl (fun j hne => ?_) (.inr ?_)
    · simp [life, setCleanup, hne]
    · have hstep := @Life.Step.strike id s.now (s.life id) task hcleanup
      simpa [life, setCleanup] using hstep
  next task hcleanup =>
    split at h
    next htask =>
      cases h
      refine .of_effect rfl rfl rfl rfl (by intro _ _ h; cases h) (by intro _ h; cases h)
        (fun j hne => ?_) (.inr ?_)
      · simp [life, setCleanup, record, hne]
      · have hstep := @Life.Step.join id s.now (s.life id) task hcleanup htask
        simpa [life, setCleanup, record] using hstep
    next => cases h
  next action hcleanup =>
    cases h
    exact moves_publishCancelled hcleanup
  next => cases h

/-! ### Callers -/

theorem moves_started (id : Uuid) (s : Operations) : Moves s (record id .started s) := by
  refine .of_effect rfl rfl rfl rfl (by intro _ _ h; cases h) (by intro _ h; cases h)
    (fun j hne => ?_) (.inl ?_)
  · simp [life, record, hne]
  · simp [life, record, Trace.add]

theorem moves_claimed {task : OperationTask} (hactive : s.active id = some task)
    (hcontrol : s.control id = .editing) :
    Moves s ((record id .claimed { s.setControl id .cancelled with
      active := Function.update s.active id none
      cancelling := Function.update s.cancelling id (some task.initial) }).setCleanup id
        (.aborting task)) := by
  refine .of_effect rfl rfl rfl rfl (by intro _ _ h; cases h) (by intro _ h; cases h)
    (fun j hne => ?_) (.inr ?_)
  · simp [life, setCleanup, setControl, record, hne]
  · have hstep := @Life.Step.claim id s.now (s.life id) task hactive hcontrol
    simpa [life, setCleanup, setControl, record] using hstep

theorem moves_registered (operation : OperationResult) {files : List String} (hfresh : id ∉ s.ids)
    (hlisted : s.Listed) (hid : operation.id = id) (hstatus : operation.status = "started") :
    let active := Function.update s.active id (some ⟨operation, operation.action, files⟩)
    Moves s ({ record id (.registered operation) { s with active := active } with
      ids := s.ids ++ [id] }.setTask id (.ready operation.action)) where
  now := Nat.le_refl _
  life j := by
    rcases eq_or_ne j id with rfl | hne
    · have hnone : (s.life j).trace.registered = [] := by
        rw [hlisted j, not_not] at hfresh
        exact hfresh
      have hstep := @Life.Step.register j s.now (s.life j) operation files hnone hid hstatus
      right
      simpa [life, setTask, record] using hstep
    · left
      simp [life, setTask, record, hne]
  shown h := by
    refine ⟨?_, h.timed⟩
    have hkept := h.kept
    rw [← results_concat id s.log (.registered operation) (by intro _ _ h; cases h)] at hkept
    exact hkept
  listed h j := by
    change j ∈ s.ids ++ [id] ↔ (trace j (s.log ++ [(id, .registered operation)])).registered ≠ []
    rcases eq_or_ne j id with rfl | hne
    · simp [Trace.add]
    · simp [hne, h j]
  queue _ _ hentry := .inl hentry

end Moves

/-- The stages of all operations, the queue of results and the keys. -/
structure Valid (s : Operations) : Prop where
  life : ∀ id, (s.life id).Valid id
  shown : s.Shown
  listed : s.Listed

theorem Valid.moves {s t : Operations} (h : s.Valid) (hmoves : Moves s t) : t.Valid where
  life id := by
    rcases hmoves.life id with heq | hstep
    · rw [heq]
      exact h.life id
    · exact (h.life id).step hstep
  shown := hmoves.shown h.shown
  listed := hmoves.listed h.listed

theorem valid_initial (now : Nat) : (initial now).Valid where
  life _ := .fresh false
  shown := ⟨by simp [initial, results, Retention.kept], by simp [initial, Retention.Timed]⟩
  listed id := by simp [initial, trace, Trace.empty]

/-! ## Programs -/

/-- What a statement does in a valid state. -/
def Keeps (s t : Operations) : Prop := s.Listed → Moves s t

theorem Moves.keeps {s t : Operations} (h : Moves s t) : Keeps s t := fun _ => h

theorem each_register (action message : String) (files : List String) :
    (register action message files).Each Keeps := by
  refine Thread.each_atomic fun chance s operation t h hlisted => ?_
  cases chance with
  | uuid id =>
      simp only at h
      split at h
      · cases h
      next hfresh =>
        obtain ⟨rfl, rfl⟩ := Prod.mk.inj (Option.some.inj h)
        exact moves_registered
          { OperationResult.completed id action message with status := "started" }
          hfresh hlisted rfl rfl
  | _ => cases h

theorem each_start (id : Uuid) : (start id).Each Keeps := by
  refine Thread.each_modify fun s => ?_
  split
  · exact (moves_refl s).keeps
  · have hmoves : Moves s { s with started := Function.update s.started id true } := by
      refine .quiet id rfl rfl rfl rfl (fun j hne => ?_) (.inr ?_)
      · simp [life, hne]
      · simpa [life] using @Life.Step.start id s.now (s.life id)
    exact hmoves.keeps

theorem each_launch (action message : String) (files : List String) :
    (launch action message files).Each Keeps := by
  refine Thread.each_bind (each_register action message files) fun operation => ?_
  refine Thread.each_bind (Thread.each_modify fun s => (moves_started _ s).keeps) fun _ => ?_
  refine Thread.each_bind (each_start operation.id) fun result => ?_
  cases result with
  | ok _ => exact Thread.each_pure _
  | error _ => exact Thread.each_pure _

theorem each_claim (id : Uuid) : (claim id).Each Keeps := by
  refine Thread.each_modify fun s => ?_
  split
  next task hactive hcontrol => exact (moves_claimed hactive hcontrol).keeps
  next => exact (moves_refl s).keeps

theorem each_cleaned (id : Uuid) : (cleaned id).Each Keeps := by
  refine Thread.each_atomic fun _ s _ t h => ?_
  split at h
  · cases h
    exact (moves_refl s).keeps
  · cases h

theorem each_cancel (id : Uuid) : (cancel id).Each Keeps := by
  refine Thread.each_bind (each_claim id) fun claimed => ?_
  cases claimed with
  | true => exact Thread.each_bind (each_cleaned id) fun _ => Thread.each_pure _
  | false => exact Thread.each_pure _

theorem each_wait (id : Uuid) : (wait id).Each Keeps := by
  refine Thread.each_atomic fun _ s _ t h => ?_
  split at h
  · cases h
    exact (moves_refl s).keeps
  · cases h

theorem each_drain (ids : List Uuid) : (drain ids).Each Keeps := by
  induction ids with
  | nil => exact Thread.each_pure _
  | cons id ids ih =>
      refine Thread.each_bind (each_cancel id) fun cancelled => ?_
      cases cancelled with
      | true => exact ih
      | false => exact Thread.each_bind (each_wait id) fun _ => ih

theorem each_stop : stop.Each Keeps := by
  refine Thread.each_bind (Thread.each_atomic fun chance s ids t h => ?_) each_drain
  split at h
  next =>
    split at h
    · cases h
      exact (moves_refl s).keeps
    · cases h
  next => cases h

theorem each_poll : poll.Each Keeps := by
  refine Thread.each_atomic fun chance s _ t h => ?_
  split at h
  next =>
    obtain ⟨u, hu, heq⟩ := Option.map_eq_some_iff.mp h
    cases heq
    exact (moves_pollTask hu).keeps
  next =>
    obtain ⟨u, hu, heq⟩ := Option.map_eq_some_iff.mp h
    cases heq
    exact (moves_pollCleanup hu).keeps
  next => cases h

/-- Every statement of every call makes steps of the operations. -/
theorem each_program (i : Nat) (call : Call) : (program i call).Each Keeps := by
  cases call with
  | launch action message files =>
      exact Thread.each_bind (each_launch action message files) fun _ => Thread.each_pure _
  | cancel id => exact Thread.each_bind (each_cancel id) fun _ => Thread.each_pure _
  | stop => exact Thread.each_bind each_stop fun _ => Thread.each_pure _
  | status id =>
      exact Thread.each_bind (Thread.each_modify fun s => (moves_status id s).keeps) fun _ =>
        Thread.each_pure _
  | activeIds =>
      exact Thread.each_bind (Thread.each_modify fun s => (moves_refl s).keeps) fun _ =>
        Thread.each_pure _
  | contains action =>
      exact Thread.each_bind (Thread.each_modify fun s => (moves_refl s).keeps) fun _ =>
        Thread.each_pure _
  | poll => exact Thread.each_bind each_poll fun _ => Thread.each_pure _
  | elapse time =>
      exact Thread.each_bind (Thread.each_modify fun s => (moves_elapse time s).keeps) fun _ =>
        Thread.each_pure _

end Operations

end ClipDaemon
