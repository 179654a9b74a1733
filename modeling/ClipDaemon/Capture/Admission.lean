import ClipDaemon.Lib.Transition
import Mathlib.Algebra.GroupWithZero.Nat
import Mathlib.Logic.Function.Basic

/-!
# The admission gate

Capture is admitted by an open flag and a generation, and every submission to the sink
runs under one mutex (`capture.rs`).  The flag and the generation are separate atomics,
and closing and reopening write them one after the other.

Each atomic access and each acquisition of the mutex is one step of its thread here, and
any number of threads take their steps in any order.  The mutex is released, and the call
returns, with the last access made under it.  A panicking closure is caught, so the mutex
is never poisoned.

The generation is a 64-bit counter that wraps.  What a fence promises holds until the
counter has gone around (`fence_excludes`, `fence_wraps`).
-/

namespace ClipDaemon

open Transition

/-- The number of a thread. -/
abbrev ThreadId := Nat

/-- A generation that `admit` handed out.  The code keeps the value; `count` is the number
of increments when it was read, and no step looks at it. -/
structure Generation where
  value : UInt64
  count : Nat
deriving DecidableEq

/-- The memory the threads share. -/
structure Admission where
  isOpen : Bool
  generation : UInt64
  /-- The increments of the generation so far; no step looks at it. -/
  count : Nat
  /-- The thread that holds the mutex. -/
  submission : Option ThreadId
  uncertain : Bool
deriving DecidableEq

namespace Admission

/-- `Admission::default`. -/
def default : Admission := ⟨false, 0, 0, none, false⟩

/-- `generation.fetch_add(1)`. -/
def increment (a : Admission) : Admission :=
  { a with generation := a.generation + 1, count := a.count + 1 }

/-- The calls a thread makes. -/
inductive Op
  | close
  | resume
  | fence
  | admits
  | submit (generation : Generation)
deriving DecidableEq

/-- Where a thread is: the access it makes next. -/
inductive Local
  | idle
  | closeOpen
  | closeGeneration
  | resumeLock
  | resumeUncertain
  | resumeGeneration
  | resumeOpen
  | fenceLock
  | fenceUncertain
  | admitGeneration
  | admitOpen (generation : Generation)
  | submitLock (generation : Generation)
  | submitOpen (generation : Generation)
  | submitGeneration (generation : Generation)
  /-- The closure runs. -/
  | running (generation : Generation)
  | failUncertain
  | failOpen
  | failGeneration
deriving DecidableEq

/-- What is seen of a run. -/
inductive Event
  | began (thread : ThreadId) (op : Op)
  | closed (thread : ThreadId)
  | resumed (thread : ThreadId) (ok : Bool)
  | fenced (thread : ThreadId) (ok : Bool)
  | admitted (thread : ThreadId) (generation : Option Generation)
  /-- A closure was not run. -/
  | rejected (thread : ThreadId) (generation : Generation)
  | started (thread : ThreadId) (generation : Generation)
  | ended (thread : ThreadId) (ok : Bool)
  /-- A submission whose closure failed returned. -/
  | failed (thread : ThreadId)
deriving DecidableEq

/-- The first access of a call. -/
def Op.enter : Op → Local
  | .close => .closeOpen
  | .resume => .resumeLock
  | .fence => .fenceLock
  | .admits => .admitGeneration
  | .submit generation => .submitLock generation

/-- One access of thread `i`. -/
def advance (i : ThreadId) (a : Admission) : Local → Admission × Local × Option Event
  | .idle => (a, .idle, none)
  | .closeOpen => ({ a with isOpen := false }, .closeGeneration, none)
  | .closeGeneration => (a.increment, .idle, some (.closed i))
  | .resumeLock =>
      if a.submission = none then ({ a with submission := some i }, .resumeUncertain, none)
      else (a, .resumeLock, none)
  | .resumeUncertain =>
      if a.uncertain then ({ a with submission := none }, .idle, some (.resumed i false))
      else (a, .resumeGeneration, none)
  | .resumeGeneration => (a.increment, .resumeOpen, none)
  | .resumeOpen => ({ a with isOpen := true, submission := none }, .idle, some (.resumed i true))
  | .fenceLock =>
      if a.submission = none then ({ a with submission := some i }, .fenceUncertain, none)
      else (a, .fenceLock, none)
  | .fenceUncertain => ({ a with submission := none }, .idle, some (.fenced i (!a.uncertain)))
  | .admitGeneration => (a, .admitOpen ⟨a.generation, a.count⟩, none)
  | .admitOpen generation =>
      (a, .idle, some (.admitted i (if a.isOpen then some generation else none)))
  | .submitLock generation =>
      if a.submission = none then
        ({ a with submission := some i }, .submitOpen generation, none)
      else (a, .submitLock generation, none)
  | .submitOpen generation =>
      if a.isOpen then (a, .submitGeneration generation, none)
      else ({ a with submission := none }, .idle, some (.rejected i generation))
  | .submitGeneration generation =>
      if generation.value = a.generation then
        (a, .running generation, some (.started i generation))
      else ({ a with submission := none }, .idle, some (.rejected i generation))
  | .running generation => (a, .running generation, none)
  | .failUncertain => ({ a with uncertain := true }, .failOpen, none)
  | .failOpen => ({ a with isOpen := false }, .failGeneration, none)
  | .failGeneration => ({ a.increment with submission := none }, .idle, some (.failed i))

end Admission

/-- The gate, its threads, and what was seen. -/
structure Gate where
  admission : Admission
  threads : ThreadId → Admission.Local
  log : List Admission.Event

namespace Gate

open Admission

/-- The gate before anything is called. -/
def init : Gate := ⟨Admission.default, fun _ => .idle, []⟩

/-- What a thread does next. -/
inductive Action
  /-- A thread calls. -/
  | call (thread : ThreadId) (op : Op)
  /-- A thread makes its next access. -/
  | step (thread : ThreadId)
  /-- The closure of a thread returns, or it returns an error or panics. -/
  | finish (thread : ThreadId) (ok : Bool)

/-- May the call be made?  A generation comes from `admit`. -/
def allowed (g : Gate) : Op → Bool
  | .submit generation => g.log.any fun e =>
      match e with
      | .admitted _ (some given) => given = generation
      | _ => false
  | _ => true

/-- The thread makes its next access. -/
def stepThread (g : Gate) (i : ThreadId) : Gate :=
  let r := advance i g.admission (g.threads i)
  ⟨r.1, Function.update g.threads i r.2.1, g.log ++ r.2.2.toList⟩

/-- The thread calls. -/
def call (g : Gate) (i : ThreadId) (op : Op) : Gate :=
  if g.threads i = .idle ∧ g.allowed op then
    ⟨g.admission, Function.update g.threads i op.enter, g.log ++ [.began i op]⟩
  else g

/-- The closure of the thread ends. -/
def finish (g : Gate) (i : ThreadId) (ok : Bool) : Gate :=
  match g.threads i with
  | .running _ =>
      if ok then
        ⟨{ g.admission with submission := none }, Function.update g.threads i .idle,
          g.log ++ [.ended i true]⟩
      else ⟨g.admission, Function.update g.threads i .failUncertain, g.log ++ [.ended i false]⟩
  | _ => g

/-- One step of a thread. -/
def step (g : Gate) : Action → Gate
  | .call i op => g.call i op
  | .step i => g.stepThread i
  | .finish i ok => g.finish i ok

/-- The gate after a sequence of actions. -/
def after (actions : List Action) (g : Gate) : Gate := actions.foldl step g

theorem logs : Logs step Gate.log := by
  intro g a
  cases a with
  | call i op =>
      simp only [step, call]
      split
      · exact .inr ⟨_, rfl⟩
      · exact .inl rfl
  | step i =>
      simp only [step, stepThread]
      cases (advance i g.admission (g.threads i)).2.2 with
      | none => exact .inl (List.append_nil _)
      | some e => exact .inr ⟨e, rfl⟩
  | finish i ok =>
      simp only [step, finish]
      split
      · split
        · exact .inr ⟨_, rfl⟩
        · exact .inr ⟨_, rfl⟩
      · exact .inl rfl

end Gate

/-! ## One access -/

namespace Admission

/-- What one access of thread `i` can do. -/
inductive Access (i : ThreadId) (a : Admission) : Local → Admission → Local → Option Event → Prop
  /-- Idle, in the closure, or waiting for the mutex. -/
  | stay (l : Local) : Access i a l a l none
  | closeOpen : Access i a .closeOpen { a with isOpen := false } .closeGeneration none
  | closed : Access i a .closeGeneration a.increment .idle (some (.closed i))
  | resumeLock : a.submission = none →
      Access i a .resumeLock { a with submission := some i } .resumeUncertain none
  | refused : a.uncertain = true → Access i a .resumeUncertain { a with submission := none } .idle
      (some (.resumed i false))
  | resumeUncertain : a.uncertain = false → Access i a .resumeUncertain a .resumeGeneration none
  | resumeGeneration : Access i a .resumeGeneration a.increment .resumeOpen none
  | resumed : Access i a .resumeOpen { a with isOpen := true, submission := none } .idle
      (some (.resumed i true))
  | fenceLock : a.submission = none →
      Access i a .fenceLock { a with submission := some i } .fenceUncertain none
  | fenced : Access i a .fenceUncertain { a with submission := none } .idle
      (some (.fenced i (!a.uncertain)))
  | admitGeneration : Access i a .admitGeneration a (.admitOpen ⟨a.generation, a.count⟩) none
  | admitted (g : Generation) : a.isOpen = true →
      Access i a (.admitOpen g) a .idle (some (.admitted i (some g)))
  | notAdmitted (g : Generation) : a.isOpen = false →
      Access i a (.admitOpen g) a .idle (some (.admitted i none))
  | submitLock (g : Generation) : a.submission = none →
      Access i a (.submitLock g) { a with submission := some i } (.submitOpen g) none
  | submitOpen (g : Generation) : a.isOpen = true →
      Access i a (.submitOpen g) a (.submitGeneration g) none
  | notOpen (g : Generation) : a.isOpen = false →
      Access i a (.submitOpen g) { a with submission := none } .idle (some (.rejected i g))
  | started (g : Generation) : g.value = a.generation →
      Access i a (.submitGeneration g) a (.running g) (some (.started i g))
  | notCurrent (g : Generation) : g.value ≠ a.generation →
      Access i a (.submitGeneration g) { a with submission := none } .idle (some (.rejected i g))
  | failUncertain : Access i a .failUncertain { a with uncertain := true } .failOpen none
  | failOpen : Access i a .failOpen { a with isOpen := false } .failGeneration none
  | failed : Access i a .failGeneration { a.increment with submission := none } .idle
      (some (.failed i))

theorem advance_access (i : ThreadId) (a : Admission) (l : Local) :
    Access i a l (advance i a l).1 (advance i a l).2.1 (advance i a l).2.2 := by
  cases l with
  | idle => exact .stay _
  | closeOpen => exact .closeOpen
  | closeGeneration => exact .closed
  | resumeLock =>
      by_cases h : a.submission = none
      · simp only [advance, if_pos h]; exact .resumeLock h
      · simp only [advance, if_neg h]; exact .stay _
  | resumeUncertain =>
      by_cases h : a.uncertain = true
      · simp only [advance, if_pos h]; exact .refused h
      · simp only [advance, if_neg h]; exact .resumeUncertain (Bool.eq_false_iff.mpr h)
  | resumeGeneration => exact .resumeGeneration
  | resumeOpen => exact .resumed
  | fenceLock =>
      by_cases h : a.submission = none
      · simp only [advance, if_pos h]; exact .fenceLock h
      · simp only [advance, if_neg h]; exact .stay _
  | fenceUncertain => exact .fenced
  | admitGeneration => exact .admitGeneration
  | admitOpen g =>
      by_cases h : a.isOpen = true
      · simp only [advance, if_pos h]; exact .admitted g h
      · simp only [advance, if_neg h]; exact .notAdmitted g (Bool.eq_false_iff.mpr h)
  | submitLock g =>
      by_cases h : a.submission = none
      · simp only [advance, if_pos h]; exact .submitLock g h
      · simp only [advance, if_neg h]; exact .stay _
  | submitOpen g =>
      by_cases h : a.isOpen = true
      · simp only [advance, if_pos h]; exact .submitOpen g h
      · simp only [advance, if_neg h]; exact .notOpen g (Bool.eq_false_iff.mpr h)
  | submitGeneration g =>
      by_cases h : g.value = a.generation
      · simp only [advance, if_pos h]; exact .started g h
      · simp only [advance, if_neg h]; exact .notCurrent g h
  | running g => exact .stay _
  | failUncertain => exact .failUncertain
  | failOpen => exact .failOpen
  | failGeneration => exact .failed

/-- Does the thread hold the mutex? -/
def Local.holds : Local → Bool
  | .resumeUncertain | .resumeGeneration | .resumeOpen | .fenceUncertain | .submitOpen _
  | .submitGeneration _ | .running _ | .failUncertain | .failOpen | .failGeneration => true
  | _ => false

/-- The generation the thread works with. -/
def Local.generation : Local → Option Generation
  | .admitOpen g | .submitLock g | .submitOpen g | .submitGeneration g | .running g => some g
  | _ => none

/-- Is the thread past its look at the flags? -/
def Local.passed : Local → Bool
  | .resumeGeneration | .resumeOpen | .submitGeneration _ | .running _ => true
  | _ => false

/-- A thread that is past its look at the flags holds the mutex. -/
theorem Local.holds_of_passed {l : Local} (h : l.passed = true) : l.holds = true := by
  cases l <;> first | rfl | cases h

/-- Is the thread recording the failure of its closure? -/
def Local.Fails (a : Admission) : Local → Prop
  | .failUncertain => True
  | .failOpen => a.uncertain = true
  | .failGeneration => a.uncertain = true ∧ a.isOpen = false
  | _ => False

theorem Local.Fails.holds {a : Admission} {l : Local} (h : l.Fails a) : l.holds = true := by
  cases l <;> first | rfl | exact h.elim

/-- Closing the gate and raising the flag leave a failing thread where it is. -/
theorem Local.Fails.mono {a a' : Admission} {l : Local} (h : l.Fails a)
    (huncertain : a.uncertain = true → a'.uncertain = true)
    (hopen : a.isOpen = false → a'.isOpen = false) : l.Fails a' := by
  cases l with
  | failUncertain => trivial
  | failOpen => exact huncertain h
  | failGeneration => exact ⟨huncertain h.1, hopen h.2⟩
  | _ => exact h.elim

/-- An event that is possible after a failure. -/
def Event.harmless : Event → Bool
  | .fenced _ ok => !ok
  | .resumed _ ok => !ok
  | .started _ _ => false
  | _ => true

section Access

variable {i : ThreadId} {a a' : Admission} {l l' : Local} {e : Option Event}

/-- The generation is the number of increments, wrapped. -/
def Wrapped (a : Admission) : Prop := a.generation = UInt64.ofNat a.count

theorem Wrapped.increment (h : a.Wrapped) : a.increment.Wrapped := by
  show a.generation + 1 = UInt64.ofNat (a.count + 1)
  rw [h, UInt64.ofNat_add]
  rfl

theorem Access.wrapped (h : Access i a l a' l' e) (ha : a.Wrapped) : a'.Wrapped := by
  cases h with
  | closed => exact ha.increment
  | resumeGeneration => exact ha.increment
  | failed => exact ha.increment
  | _ => exact ha

theorem Access.count_le (h : Access i a l a' l' e) : a.count ≤ a'.count := by
  cases h with
  | closed => exact Nat.le_succ _
  | resumeGeneration => exact Nat.le_succ _
  | failed => exact Nat.le_succ _
  | _ => exact Nat.le_refl _

/-- A thread takes the mutex when nobody has it, and releases only its own. -/
theorem Access.submission (h : Access i a l a' l' e) :
    (l.holds = false ∧ l'.holds = true ∧ a.submission = none ∧ a'.submission = some i) ∨
      (l.holds = true ∧ l'.holds = false ∧ a'.submission = none) ∨
      (l'.holds = l.holds ∧ a'.submission = a.submission) := by
  cases h with
  | resumeLock hnone => exact .inl ⟨rfl, rfl, hnone, rfl⟩
  | fenceLock hnone => exact .inl ⟨rfl, rfl, hnone, rfl⟩
  | submitLock _ hnone => exact .inl ⟨rfl, rfl, hnone, rfl⟩
  | refused => exact .inr (.inl ⟨rfl, rfl, rfl⟩)
  | resumed => exact .inr (.inl ⟨rfl, rfl, rfl⟩)
  | fenced => exact .inr (.inl ⟨rfl, rfl, rfl⟩)
  | notOpen => exact .inr (.inl ⟨rfl, rfl, rfl⟩)
  | notCurrent => exact .inr (.inl ⟨rfl, rfl, rfl⟩)
  | failed => exact .inr (.inl ⟨rfl, rfl, rfl⟩)
  | _ => exact .inr (.inr ⟨rfl, rfl⟩)

/-- The generation of a thread is its old one or the current one. -/
theorem Access.generation (h : Access i a l a' l' e) {g : Generation}
    (hg : l'.generation = some g) : l.generation = some g ∨ g = ⟨a.generation, a.count⟩ := by
  cases h with
  | admitGeneration => cases hg; exact .inr rfl
  | stay => exact .inl hg
  | submitLock => exact .inl hg
  | submitOpen => exact .inl hg
  | started => exact .inl hg
  | _ => cases hg

theorem Access.closes (h : Access i a l a' l' e) {j : ThreadId} (he : e = some (.closed j)) :
    a'.count = a.count + 1 := by
  cases h with
  | closed => rfl
  | _ => cases he

/-- `admit` gives a generation out after it found the gate open. -/
theorem Access.gives (h : Access i a l a' l' e) {j : ThreadId} {g : Generation}
    (he : e = some (.admitted j (some g))) : i = j ∧ a.isOpen = true ∧ l = .admitOpen g := by
  cases h with
  | admitted given hopen => cases he; exact ⟨rfl, hopen, rfl⟩
  | _ => cases he

theorem Access.not_ended (h : Access i a l a' l' e) {j : ThreadId} {ok : Bool} :
    e ≠ some (.ended j ok) := by
  cases h <;> exact fun he => by cases he

/-- A fence returns with the mutex released. -/
theorem Access.fences (h : Access i a l a' l' e) {j : ThreadId} {ok : Bool}
    (he : e = some (.fenced j ok)) : a'.submission = none ∧ ok = !a.uncertain := by
  cases h with
  | fenced => cases he; exact ⟨rfl, rfl⟩
  | _ => cases he

/-- A closure is started with the generation that is current. -/
theorem Access.starts (h : Access i a l a' l' e) {j : ThreadId} {g : Generation}
    (he : e = some (.started j g)) : g.value = a.generation := by
  cases h with
  | started _ hvalue => cases he; exact hvalue
  | _ => cases he

theorem Access.runs (h : Access i a l a' l' e) {g : Generation} (hl : l' = .running g) :
    l = .running g ∨ g.value = a.generation := by
  cases h with
  | stay => exact .inl hl
  | started _ hvalue => cases hl; exact .inr hvalue
  | _ => cases hl

theorem Access.admits (h : Access i a l a' l' e) {j : ThreadId} {g : Generation}
    (he : e = some (.admitted j (some g))) : l.generation = some g := by
  cases h with
  | admitted => cases he; rfl
  | _ => cases he

/-- While another thread holds the mutex, a thread can close the gate and nothing else. -/
theorem Access.outside (h : Access i a l a' l' e) (hl : l.holds = false)
    (hheld : a.submission ≠ none) :
    a'.uncertain = a.uncertain ∧ (a.isOpen = false → a'.isOpen = false) ∧
      ∀ ev ∈ e, ev.harmless = true := by
  cases h with
  | stay => exact ⟨rfl, id, fun _ hev => by cases hev⟩
  | closeOpen => exact ⟨rfl, fun _ => rfl, fun _ hev => by cases hev⟩
  | closed => exact ⟨rfl, id, fun _ hev => by cases hev; rfl⟩
  | resumeLock hnone => exact absurd hnone hheld
  | fenceLock hnone => exact absurd hnone hheld
  | submitLock _ hnone => exact absurd hnone hheld
  | admitGeneration => exact ⟨rfl, id, fun _ hev => by cases hev⟩
  | admitted => exact ⟨rfl, id, fun _ hev => by cases hev; rfl⟩
  | notAdmitted => exact ⟨rfl, id, fun _ hev => by cases hev; rfl⟩
  | _ => cases hl

/-- A failure is recorded step by step, and then it is on record. -/
theorem Access.records (h : Access i a l a' l' e) (hl : l.Fails a) :
    (l'.Fails a' ∨ (a'.uncertain = true ∧ a'.isOpen = false ∧ l' = .idle)) ∧
      ∀ ev ∈ e, ev.harmless = true := by
  cases h with
  | stay => exact ⟨.inl hl, fun _ hev => by cases hev⟩
  | failUncertain => exact ⟨.inl rfl, fun _ hev => by cases hev⟩
  | failOpen => exact ⟨.inl ⟨hl, rfl⟩, fun _ hev => by cases hev⟩
  | failed => exact ⟨.inr ⟨hl.1, hl.2, rfl⟩, fun _ hev => by cases hev; rfl⟩
  | _ => exact hl.elim

/-- Once a failure is recorded, no thread gets past the flags. -/
theorem Access.afterFailure (h : Access i a l a' l' e) (huncertain : a.uncertain = true)
    (hopen : a.isOpen = false) (hl : l.passed = false) :
    a'.uncertain = true ∧ a'.isOpen = false ∧ l'.passed = false ∧ ∀ ev ∈ e, ev.harmless = true := by
  cases h with
  | stay => exact ⟨huncertain, hopen, hl, fun _ hev => by cases hev⟩
  | closeOpen => exact ⟨huncertain, rfl, rfl, fun _ hev => by cases hev⟩
  | resumeUncertain hno => rw [huncertain] at hno; cases hno
  | resumeGeneration => cases hl
  | resumed => cases hl
  | fenced =>
      refine ⟨huncertain, hopen, rfl, fun _ hev => ?_⟩
      cases hev
      simp [Event.harmless, huncertain]
  | admitted _ hyes => rw [hopen] at hyes; cases hyes
  | submitOpen _ hyes => rw [hopen] at hyes; cases hyes
  | started => cases hl
  | notCurrent => cases hl
  | failUncertain => exact ⟨rfl, hopen, rfl, fun _ hev => by cases hev⟩
  | failOpen => exact ⟨huncertain, rfl, rfl, fun _ hev => by cases hev⟩
  | resumeLock => exact ⟨huncertain, hopen, rfl, fun _ hev => by cases hev⟩
  | fenceLock => exact ⟨huncertain, hopen, rfl, fun _ hev => by cases hev⟩
  | submitLock => exact ⟨huncertain, hopen, rfl, fun _ hev => by cases hev⟩
  | admitGeneration => exact ⟨huncertain, hopen, rfl, fun _ hev => by cases hev⟩
  | closed => exact ⟨huncertain, hopen, rfl, fun _ hev => by cases hev; rfl⟩
  | refused => exact ⟨huncertain, hopen, rfl, fun _ hev => by cases hev; rfl⟩
  | notAdmitted => exact ⟨huncertain, hopen, rfl, fun _ hev => by cases hev; rfl⟩
  | notOpen => exact ⟨huncertain, hopen, rfl, fun _ hev => by cases hev; rfl⟩
  | failed => exact ⟨huncertain, hopen, rfl, fun _ hev => by cases hev; rfl⟩

end Access

/-- The generation was current at some time. -/
def Issued (a : Admission) (g : Generation) : Prop :=
  g.value = UInt64.ofNat g.count ∧ g.count ≤ a.count

theorem Issued.mono {a a' : Admission} {g : Generation} (h : a.Issued g)
    (hle : a.count ≤ a'.count) :
    a'.Issued g :=
  ⟨h.1, Nat.le_trans h.2 hle⟩

end Admission

/-! ## The mutex and the generations -/

namespace Gate

open Admission

/-- The mutex is held by the thread that acts under it, and every generation in use was
current once. -/
structure Ordered (g : Gate) : Prop where
  wrapped : g.admission.Wrapped
  holder : ∀ i, (g.threads i).holds = true ↔ g.admission.submission = some i
  issued : ∀ i gen, (g.threads i).generation = some gen → g.admission.Issued gen
  admitted : ∀ i gen, .admitted i (some gen) ∈ g.log → g.admission.Issued gen

theorem ordered_init : Ordered init where
  wrapped := rfl
  holder _ := by simp [init, Local.holds, Admission.default]
  issued _ _ h := by cases h
  admitted _ _ h := by cases h

variable {g : Gate}

/-- One thread moves. -/
theorem Ordered.move (h : g.Ordered) {i : ThreadId} {a : Admission} {l : Local} {es : List Event}
    (hwrapped : a.Wrapped) (hcount : g.admission.count ≤ a.count)
    (hsubmission :
      ((g.threads i).holds = false ∧ l.holds = true ∧ g.admission.submission = none ∧
          a.submission = some i) ∨
        ((g.threads i).holds = true ∧ l.holds = false ∧ a.submission = none) ∨
        (l.holds = (g.threads i).holds ∧ a.submission = g.admission.submission))
    (hissued : ∀ gen, l.generation = some gen → a.Issued gen)
    (hadmitted : ∀ j gen, .admitted j (some gen) ∈ es → a.Issued gen) :
    Ordered ⟨a, Function.update g.threads i l, g.log ++ es⟩ where
  wrapped := hwrapped
  holder j := by
    have hi := h.holder i
    have hj := h.holder j
    show (Function.update g.threads i l j).holds = true ↔ a.submission = some j
    by_cases hji : j = i
    · subst hji
      rw [Function.update_self]
      rcases hsubmission with ⟨-, hl, -, ha⟩ | ⟨-, hl, ha⟩ | ⟨hl, ha⟩
      · simp [hl, ha]
      · simp [hl, ha]
      · rw [hl, ha]
        exact hj
    · rw [Function.update_of_ne hji]
      rcases hsubmission with ⟨-, -, hnone, ha⟩ | ⟨hheld, -, ha⟩ | ⟨-, ha⟩
      · rw [hj, ha, hnone]
        simp [Ne.symm hji]
      · rw [hj, ha, hi.mp hheld]
        simp [Ne.symm hji]
      · rw [ha]
        exact hj
  issued j gen hgen := by
    replace hgen : (Function.update g.threads i l j).generation = some gen := hgen
    by_cases hji : j = i
    · subst hji
      rw [Function.update_self] at hgen
      exact hissued gen hgen
    · rw [Function.update_of_ne hji] at hgen
      exact (h.issued j gen hgen).mono hcount
  admitted j gen hgen := by
    rcases List.mem_append.mp hgen with hgen | hgen
    · exact (h.admitted j gen hgen).mono hcount
    · exact hadmitted j gen hgen

theorem Ordered.stepThread (h : g.Ordered) (i : ThreadId) : (g.stepThread i).Ordered := by
  have haccess := advance_access i g.admission (g.threads i)
  refine h.move (haccess.wrapped h.wrapped) haccess.count_le haccess.submission
    (fun gen hgen => ?_) fun j gen hgen => ?_
  · rcases haccess.generation hgen with hold | rfl
    · exact (h.issued i gen hold).mono haccess.count_le
    · exact ⟨h.wrapped, haccess.count_le⟩
  · exact (h.issued i gen (haccess.admits (Option.mem_toList.mp hgen))).mono haccess.count_le

theorem Ordered.call (h : g.Ordered) (i : ThreadId) (op : Op) : (g.call i op).Ordered := by
  unfold Gate.call
  split
  next hcall =>
    obtain ⟨hidle, hallowed⟩ := hcall
    have hholds : op.enter.holds = (g.threads i).holds := by
      rw [hidle]
      cases op <;> rfl
    refine h.move h.wrapped (Nat.le_refl _) (.inr (.inr ⟨hholds, rfl⟩)) (fun gen hgen => ?_)
      fun j gen hgen => by simp at hgen
    cases op with
    | submit given =>
        cases hgen
        obtain ⟨e, he, hgiven⟩ := List.any_eq_true.mp hallowed
        split at hgiven
        next j gen' =>
          cases of_decide_eq_true hgiven
          exact h.admitted j _ he
        · cases hgiven
    | _ => cases hgen
  · exact h

theorem Ordered.finish (h : g.Ordered) (i : ThreadId) (ok : Bool) : (g.finish i ok).Ordered := by
  unfold Gate.finish
  split
  next gen hrunning =>
    cases ok with
    | true =>
        exact h.move (a := { g.admission with submission := none }) h.wrapped (Nat.le_refl _)
          (.inr (.inl ⟨by rw [hrunning]; rfl, rfl, rfl⟩)) (fun _ hgen => by cases hgen)
          fun _ _ hgen => by simp at hgen
    | false =>
        exact h.move h.wrapped (Nat.le_refl _) (.inr (.inr ⟨by rw [hrunning]; rfl, rfl⟩))
          (fun _ hgen => by cases hgen) fun _ _ hgen => by simp at hgen
  · exact h

theorem Ordered.step (h : g.Ordered) (action : Action) : (g.step action).Ordered := by
  cases action with
  | call i op => exact h.call i op
  | step i => exact h.stepThread i
  | finish i ok => exact h.finish i ok

theorem ordered_after (actions : List Action) : (init.after actions).Ordered :=
  foldl_invariant (I := Ordered) (fun _ action h => h.step action) actions ordered_init

theorem count_le_step (g : Gate) (action : Action) :
    g.admission.count ≤ (g.step action).admission.count := by
  cases action with
  | call i op =>
      simp only [step, call]
      split <;> exact Nat.le_refl _
  | step i => exact (advance_access i g.admission (g.threads i)).count_le
  | finish i ok =>
      simp only [step, finish]
      split
      · split <;> exact Nat.le_refl _
      · exact Nat.le_refl _

theorem count_le_after (actions : List Action) (g : Gate) :
    g.admission.count ≤ (g.after actions).admission.count :=
  foldl_rel (I := fun _ : Gate => True) (R := fun g g' => g.admission.count ≤ g'.admission.count)
    (fun _ => Nat.le_refl _) (fun _ _ _ => Nat.le_trans) (fun _ _ _ => trivial)
    (fun g action _ => count_le_step g action) actions trivial

/-- The action that an event comes from. -/
theorem logged {action : Action} {e : Event} (h : (g.step action).log = g.log ++ [e]) :
    (∃ i op, e = .began i op) ∨
      (∃ i, g.step action = g.stepThread i ∧
        (advance i g.admission (g.threads i)).2.2 = some e) ∨
      ∃ i ok gen, g.step action = g.finish i ok ∧ g.threads i = .running gen ∧
        e = .ended i ok := by
  cases action with
  | call i op =>
      simp only [step, call] at h
      split at h
      · exact .inl ⟨i, op, (List.singleton_inj.mp (List.append_cancel_left h)).symm⟩
      · simp at h
  | step i =>
      refine .inr (.inl ⟨i, rfl, ?_⟩)
      have hnew := List.append_cancel_left h
      cases hevent : (advance i g.admission (g.threads i)).2.2 with
      | none => rw [hevent] at hnew; cases hnew
      | some e' => rw [hevent] at hnew; cases hnew; rfl
  | finish i ok =>
      simp only [step, finish] at h
      split at h
      next gen hrunning =>
        refine .inr (.inr ⟨i, ok, gen, rfl, hrunning, ?_⟩)
        cases ok with
        | true => exact (List.singleton_inj.mp (List.append_cancel_left h)).symm
        | false => exact (List.singleton_inj.mp (List.append_cancel_left h)).symm
      · simp at h

/-- A close that returns has incremented the generation. -/
theorem count_of_closed {action : Action} {i : ThreadId}
    (h : (g.step action).log = g.log ++ [.closed i]) :
    (g.step action).admission.count = g.admission.count + 1 := by
  rcases logged h with ⟨_, _, he⟩ | ⟨k, hstep, he⟩ | ⟨_, _, _, _, _, he⟩
  · cases he
  · rw [hstep]
    exact (advance_access k g.admission (g.threads k)).closes he
  · cases he

/-- When a fence returns, no thread is under the mutex. -/
theorem holds_of_fenced {action : Action} {i : ThreadId} {ok : Bool} (ho : g.Ordered)
    (h : (g.step action).log = g.log ++ [.fenced i ok]) (j : ThreadId) :
    ((g.step action).threads j).holds = false := by
  rcases logged h with ⟨_, _, he⟩ | ⟨k, hstep, he⟩ | ⟨_, _, _, _, _, he⟩
  · cases he
  · have hnone : (g.step action).admission.submission = none := by
      rw [hstep]
      exact ((advance_access k g.admission (g.threads k)).fences he).1
    have hholder := (ho.step action).holder j
    rw [hnone] at hholder
    simpa using hholder
  · cases he

/-! ## What a fence excludes -/

/-- The value of the generation was current between the increments `c` and `count`. -/
def Since (c count : Nat) (gen : Generation) : Prop :=
  ∃ c', c ≤ c' ∧ c' ≤ count ∧ gen.value = UInt64.ofNat c'

theorem Since.mono {c count count' : Nat} {gen : Generation} (h : Since c count gen)
    (hle : count ≤ count') : Since c count' gen := by
  obtain ⟨c', hc, hc', hvalue⟩ := h
  exact ⟨c', hc, Nat.le_trans hc' hle, hvalue⟩

/-- A generation from before, used again, means that the counter went around. -/
theorem Since.wrapped_around {c count : Nat} {gen : Generation} (h : Since c count gen)
    (hvalue : gen.value = UInt64.ofNat gen.count) (hlt : gen.count < c) :
    gen.count + 2 ^ 64 ≤ count := by
  obtain ⟨c', hc, hc', hcurrent⟩ := h
  have hmod := congrArg UInt64.toNat (hvalue.symm.trans hcurrent)
  simp only [UInt64.toNat_ofNat'] at hmod
  omega

/-- From the increment `c` and the log position `n` on, closures run with generations that
were current since. -/
structure Recent (c n : Nat) (g : Gate) : Prop where
  count_le : c ≤ g.admission.count
  log_le : n ≤ g.log.length
  running : ∀ j gen, g.threads j = .running gen → Since c g.admission.count gen
  started : ∀ j gen, .started j gen ∈ g.log.drop n → Since c g.admission.count gen

/-- One thread moves. -/
theorem Recent.move {c n : Nat} (h : Recent c n g) {i : ThreadId} {a : Admission} {l : Local}
    {es : List Event} (hcount : g.admission.count ≤ a.count)
    (hrunning : ∀ gen, l = .running gen → Since c a.count gen)
    (hstarted : ∀ j gen, .started j gen ∈ es → Since c a.count gen) :
    Recent c n ⟨a, Function.update g.threads i l, g.log ++ es⟩ where
  count_le := Nat.le_trans h.count_le hcount
  log_le := by
    show n ≤ (g.log ++ es).length
    rw [List.length_append]
    exact Nat.le_add_right_of_le h.log_le
  running j gen hj := by
    replace hj : Function.update g.threads i l j = .running gen := hj
    by_cases hji : j = i
    · subst hji
      rw [Function.update_self] at hj
      exact hrunning gen hj
    · rw [Function.update_of_ne hji] at hj
      exact (h.running j gen hj).mono hcount
  started j gen hj := by
    replace hj : .started j gen ∈ (g.log ++ es).drop n := hj
    rw [List.drop_append_of_le_length h.log_le] at hj
    rcases List.mem_append.mp hj with hj | hj
    · exact (h.started j gen hj).mono hcount
    · exact hstarted j gen hj

theorem Recent.step {c n : Nat} (h : Recent c n g) (ho : g.Ordered) (action : Action) :
    Recent c n (g.step action) := by
  have hcurrent : ∀ gen : Generation, gen.value = g.admission.generation →
      Since c g.admission.count gen := fun gen hgen =>
    ⟨g.admission.count, h.count_le, Nat.le_refl _, hgen.trans ho.wrapped⟩
  cases action with
  | call i op =>
      simp only [Gate.step, call]
      split
      · refine h.move (Nat.le_refl _) (fun gen hgen => ?_) fun j gen hgen => ?_
        · cases op <;> cases hgen
        · cases List.mem_singleton.mp hgen
      · exact h
  | step i =>
      have haccess := advance_access i g.admission (g.threads i)
      refine h.move haccess.count_le (fun gen hgen => ?_) fun j gen hgen => ?_
      · rcases haccess.runs hgen with hold | hvalue
        · exact (h.running i gen hold).mono haccess.count_le
        · exact (hcurrent gen hvalue).mono haccess.count_le
      · exact (hcurrent gen (haccess.starts (Option.mem_toList.mp hgen))).mono haccess.count_le
  | finish i ok =>
      simp only [Gate.step, finish]
      split
      · split
        · exact h.move (Nat.le_refl _) (fun _ hgen => by cases hgen)
            fun _ _ hgen => by cases List.mem_singleton.mp hgen
        · exact h.move (Nat.le_refl _) (fun _ hgen => by cases hgen)
            fun _ _ hgen => by cases List.mem_singleton.mp hgen
      · exact h

theorem Recent.after {c n : Nat} (h : Recent c n g) (ho : g.Ordered) (actions : List Action) :
    Recent c n (g.after actions) := by
  have hboth := foldl_invariant (I := fun g : Gate => g.Ordered ∧ Recent c n g)
    (fun _ action hg => ⟨hg.1.step action, hg.2.step hg.1 action⟩) actions ⟨ho, h⟩
  exact hboth.2

/-! ## After a failure -/

/-- A failure is recorded. -/
def Failed (g : Gate) : Prop :=
  g.admission.uncertain = true ∧ g.admission.isOpen = false ∧
    ∀ k, (g.threads k).passed = false

/-- A closure failed, and the failure is recorded or about to be. -/
def Doomed (g : Gate) : Prop := (∃ j, (g.threads j).Fails g.admission) ∨ g.Failed

theorem Failed.move {i : ThreadId} {a : Admission} {l : Local} {es : List Event}
    (hothers : ∀ k ≠ i, (g.threads k).passed = false) (huncertain : a.uncertain = true)
    (hopen : a.isOpen = false) (hl : l.passed = false) :
    Failed ⟨a, Function.update g.threads i l, g.log ++ es⟩ := by
  refine ⟨huncertain, hopen, fun k => ?_⟩
  show (Function.update g.threads i l k).passed = false
  by_cases hk : k = i
  · subst hk
    rw [Function.update_self, hl]
  · rw [Function.update_of_ne hk]
    exact hothers k hk

theorem Failed.stepThread (h : g.Failed) (i : ThreadId) : (g.stepThread i).Failed := by
  obtain ⟨huncertain, hopen, hpassed⟩ := h
  obtain ⟨huncertain', hopen', hl, -⟩ :=
    (advance_access i g.admission (g.threads i)).afterFailure huncertain hopen (hpassed i)
  exact Failed.move (fun k _ => hpassed k) huncertain' hopen' hl

theorem Failed.call (h : g.Failed) (i : ThreadId) (op : Op) : (g.call i op).Failed := by
  obtain ⟨huncertain, hopen, hpassed⟩ := h
  unfold Gate.call
  split
  · exact Failed.move (fun k _ => hpassed k) huncertain hopen (by cases op <;> rfl)
  · exact ⟨huncertain, hopen, hpassed⟩

theorem Failed.not_running (h : g.Failed) (i : ThreadId) (gen : Generation) :
    g.threads i ≠ .running gen := by
  intro hrunning
  have hidle := h.2.2 i
  rw [hrunning] at hidle
  cases hidle

theorem Failed.finish (h : g.Failed) (i : ThreadId) (ok : Bool) : (g.finish i ok).Failed := by
  unfold Gate.finish
  split
  next gen hrunning => exact absurd hrunning (h.not_running i gen)
  · exact h

/-- The thread that holds the mutex is the only one past the flags. -/
theorem Ordered.passed_eq_false (ho : g.Ordered) {j k : ThreadId} (hj : (g.threads j).holds = true)
    (hk : k ≠ j) : (g.threads k).passed = false := by
  cases hpassed : (g.threads k).passed with
  | false => rfl
  | true =>
      have hheld := (ho.holder k).mp (Local.holds_of_passed hpassed)
      rw [(ho.holder j).mp hj] at hheld
      exact absurd (Option.some.inj hheld).symm hk

/-- While a thread holds the mutex, another one does not. -/
theorem Ordered.holds_eq_false (ho : g.Ordered) {i j : ThreadId} (hj : (g.threads j).holds = true)
    (hji : j ≠ i) : (g.threads i).holds = false := by
  cases hi : (g.threads i).holds with
  | false => rfl
  | true =>
      have hheld := (ho.holder i).mp hi
      rw [(ho.holder j).mp hj] at hheld
      exact absurd (Option.some.inj hheld) hji

/-- A step of a thread after a failure, and what is seen of it. -/
theorem Doomed.access (h : g.Doomed) (ho : g.Ordered) (i : ThreadId) :
    (g.stepThread i).Doomed ∧
      ∀ e ∈ (advance i g.admission (g.threads i)).2.2, e.harmless = true := by
  have haccess := advance_access i g.admission (g.threads i)
  rcases h with ⟨j, hj⟩ | hfailed
  · by_cases hji : j = i
    · subst hji
      obtain ⟨hstate, hharmless⟩ := haccess.records hj
      refine ⟨?_, hharmless⟩
      rcases hstate with hstate | ⟨huncertain, hopen, hidle⟩
      · exact .inl ⟨j, by simp only [Gate.stepThread, Function.update_self]; exact hstate⟩
      · exact .inr (Failed.move (fun k hk => ho.passed_eq_false hj.holds hk) huncertain hopen
          (by rw [hidle]; rfl))
    · have hheld := (ho.holder j).mp hj.holds
      obtain ⟨huncertain, hopen, hharmless⟩ :=
        haccess.outside (ho.holds_eq_false hj.holds hji) (by rw [hheld]; simp)
      refine ⟨.inl ⟨j, ?_⟩, hharmless⟩
      simp only [Gate.stepThread, Function.update_of_ne hji]
      exact hj.mono huncertain.trans hopen
  · have hpassed := hfailed.2.2 i
    have hafter := haccess.afterFailure hfailed.1 hfailed.2.1 hpassed
    exact ⟨.inr (hfailed.stepThread i), hafter.2.2.2⟩

theorem Doomed.call (h : g.Doomed) (i : ThreadId) (op : Op) : (g.call i op).Doomed := by
  rcases h with ⟨j, hj⟩ | hfailed
  · unfold Gate.call
    split
    next hcall =>
      have hji : j ≠ i := by
        rintro rfl
        rw [hcall.1] at hj
        exact hj
      exact .inl ⟨j, by simp only [Function.update_of_ne hji]; exact hj⟩
    · exact .inl ⟨j, hj⟩
  · exact .inr (hfailed.call i op)

/-- No closure runs after a failure. -/
theorem Doomed.not_running (h : g.Doomed) (ho : g.Ordered) (i : ThreadId) (gen : Generation) :
    g.threads i ≠ .running gen := by
  rcases h with ⟨j, hj⟩ | hfailed
  · intro hrunning
    by_cases hji : j = i
    · subst hji
      rw [hrunning] at hj
      exact hj
    · have hidle := ho.passed_eq_false hj.holds (Ne.symm hji)
      rw [hrunning] at hidle
      cases hidle
  · exact hfailed.not_running i gen

theorem Doomed.finish (h : g.Doomed) (ho : g.Ordered) (i : ThreadId) (ok : Bool) :
    (g.finish i ok).Doomed := by
  unfold Gate.finish
  split
  next gen hrunning => exact absurd hrunning (h.not_running ho i gen)
  · exact h

theorem Doomed.step (h : g.Doomed) (ho : g.Ordered) (action : Action) :
    (g.step action).Doomed := by
  cases action with
  | call i op => exact h.call i op
  | step i => exact (h.access ho i).1
  | finish i ok => exact h.finish ho i ok

/-- A closure failed, and since the log position `n` nothing was acknowledged and no
closure was started. -/
structure Dead (n : Nat) (g : Gate) : Prop where
  state : g.Doomed
  log_le : n ≤ g.log.length
  harmless : ∀ e ∈ g.log.drop n, e.harmless = true

/-- What a step after a failure has to show. -/
theorem Dead.move {n : Nat} (h : Dead n g) {g' : Gate} {es : List Event} (hstate : g'.Doomed)
    (hlog : g'.log = g.log ++ es) (hharmless : ∀ e ∈ es, e.harmless = true) : Dead n g' where
  state := hstate
  log_le := by
    rw [hlog, List.length_append]
    exact Nat.le_add_right_of_le h.log_le
  harmless e he := by
    rw [hlog, List.drop_append_of_le_length h.log_le] at he
    rcases List.mem_append.mp he with he | he
    · exact h.harmless e he
    · exact hharmless e he

theorem Dead.step {n : Nat} (h : Dead n g) (ho : g.Ordered) (action : Action) :
    Dead n (g.step action) := by
  have hstate := h.state.step ho action
  cases action with
  | call i op =>
      simp only [Gate.step, Gate.call] at hstate ⊢
      split at hstate
      next hcall =>
        rw [if_pos hcall]
        exact h.move hstate rfl fun e he => by cases List.mem_singleton.mp he; rfl
      next hcall =>
        rw [if_neg hcall]
        exact h
  | step i =>
      exact h.move hstate rfl fun e he => (h.state.access ho i).2 e (Option.mem_toList.mp he)
  | finish i ok =>
      simp only [Gate.step, Gate.finish]
      split
      next gen hrunning => exact absurd hrunning (h.state.not_running ho i gen)
      · exact h

theorem Dead.after {n : Nat} (h : Dead n g) (ho : g.Ordered) (actions : List Action) :
    Dead n (g.after actions) := by
  have hboth := foldl_invariant (I := fun g : Gate => g.Ordered ∧ Dead n g)
    (fun _ action hg => ⟨hg.1.step action, hg.2.step hg.1 action⟩) actions ⟨ho, h⟩
  exact hboth.2

/-- A closure that fails leaves its thread recording the failure. -/
theorem dead_of_ended {action : Action} {i : ThreadId}
    (h : (g.step action).log = g.log ++ [.ended i false]) :
    Dead (g.log.length + 1) (g.step action) := by
  have hlength : (g.step action).log.length = g.log.length + 1 := by
    rw [h, List.length_append, List.length_singleton]
  refine ⟨.inl ⟨i, ?_⟩, Nat.le_of_eq hlength.symm, fun e he => ?_⟩
  · rcases logged h with ⟨_, _, he⟩ | ⟨k, hstep, he⟩ | ⟨k, ok, gen, hstep, hrunning, he⟩
    · cases he
    · exact absurd he ((advance_access k g.admission (g.threads k)).not_ended)
    · cases he
      rw [hstep, finish, hrunning]
      show (Function.update g.threads i .failUncertain i).Fails g.admission
      rw [Function.update_self]
      trivial
  · rw [List.drop_eq_nil_of_le (Nat.le_of_eq hlength)] at he
    cases he

theorem after_append (actions actions' : List Action) (g : Gate) :
    g.after (actions ++ actions') = (g.after actions).after actions' := List.foldl_append

theorem count_le_append (actions actions' : List Action) (g : Gate) :
    (g.after actions).admission.count ≤ (g.after (actions ++ actions')).admission.count := by
  rw [after_append]
  exact count_le_after _ _

/-- After a fence returned, closures run with generations that are current later on. -/
theorem recent_of_fenced {action : Action} {i : ThreadId} {ok : Bool} (ho : g.Ordered)
    (h : (g.step action).log = g.log ++ [.fenced i ok]) :
    Recent (g.step action).admission.count (g.step action).log.length (g.step action) where
  count_le := Nat.le_refl _
  log_le := Nat.le_refl _
  running j gen hj := by
    have hholds := holds_of_fenced ho h j
    rw [hj] at hholds
    cases hholds
  started j gen hj := by
    rw [List.drop_length] at hj
    cases hj

/-- Events behind a position of the log. -/
theorem mem_drop_of_split {log before after : List Event} {e x : Event}
    (hlog : log = before ++ e :: after) (hx : x ∈ after) : x ∈ log.drop (before.length + 1) := by
  rw [hlog, List.drop_append, List.drop_of_length_le (Nat.le_succ _), Nat.add_sub_cancel_left]
  exact hx

/-- What a fence promises, for every number of threads and every order of their steps.

When a thread's `close` returned and a `fence` it began after that returned `Ok`, no
closure with a generation admitted before that `close` began is running, and none was
started since the fence, unless the generation was incremented 2^64 times since it was
read.  And once a closure failed, no fence and no resume returns `Ok`, no closure is
started, and none is running. -/
theorem fence_excludes (actions : List Action) :
    let g := init.after actions
    (∀ A B C D E i, g.log = A ++ .began i .close :: (B ++ .closed i :: (C ++ .began i .fence ::
        (D ++ .fenced i true :: E))) →
      ∀ k gen, .admitted k (some gen) ∈ A →
        (∀ j, g.threads j = .running gen → gen.count + 2 ^ 64 ≤ g.admission.count) ∧
        ∀ j, .started j gen ∈ E → gen.count + 2 ^ 64 ≤ g.admission.count) ∧
    ∀ A E i, g.log = A ++ .ended i false :: E →
      (∀ k, .fenced k true ∉ E) ∧ (∀ k, .resumed k true ∉ E) ∧
        ∀ k gen, .started k gen ∉ E ∧ g.threads k ≠ .running gen := by
  intro g
  constructor
  · intro A B C D E i hlog k gen hadmitted
    -- the states when the fence returned, when the close returned, and when it began
    have hfence :
        g.log = (A ++ .began i .close :: (B ++ .closed i :: (C ++ .began i .fence :: D))) ++
        .fenced i true :: E := by rw [hlog]; simp
    obtain ⟨as₃, a₃, rest, has, hlog₃, hstep₃⟩ := logs.split rfl hfence
    have hclose : (init.after as₃).log = (A ++ .began i .close :: B) ++
        .closed i :: (C ++ .began i .fence :: D) := by
      rw [after, hlog₃]
      simp
    obtain ⟨as₂, a₂, rest₂, has₃, hlog₂, hstep₂⟩ := logs.split rfl hclose
    obtain ⟨as₁, a₁, rest₁, has₂, hlog₁, -⟩ := logs.split rfl hlog₂
    have hissued := (ordered_after as₁).admitted k gen (by rw [after, hlog₁]; exact hadmitted)
    have hclosed : ((init.after as₂).step a₂).log = (init.after as₂).log ++ [.closed i] := by
      rw [after, hstep₂, hlog₂]
    have hfenced : ((init.after as₃).step a₃).log = (init.after as₃).log ++ [.fenced i true] := by
      rw [after, hstep₃, hlog₃]
    -- the close incremented the generation after it was admitted
    have hlt : gen.count < ((init.after as₃).step a₃).admission.count := by
      have h₁ : (init.after as₁).admission.count ≤ (init.after as₂).admission.count := by
        rw [has₂]; exact count_le_append _ _ _
      have h₂ := count_of_closed hclosed
      have h₃ : ((init.after as₂).step a₂).admission.count ≤ (init.after as₃).admission.count := by
        rw [has₃, after_append]; exact count_le_after rest₂ _
      have h₄ := count_le_step (init.after as₃) a₃
      have := hissued.2
      omega
    have hg : g = ((init.after as₃).step a₃).after rest := by
      show init.after _ = _
      rw [has, after_append]
      rfl
    have hrecent := (recent_of_fenced (ordered_after as₃) hfenced).after
      ((ordered_after as₃).step a₃) rest
    rw [← hg] at hrecent
    refine ⟨fun j hj => (hrecent.running j gen hj).wrapped_around hissued.1 hlt, fun j hj => ?_⟩
    refine (hrecent.started j gen ?_).wrapped_around hissued.1 hlt
    rw [hfenced, List.length_append, List.length_singleton, after, hlog₃]
    exact mem_drop_of_split hfence hj
  · intro A E i hlog
    obtain ⟨as₁, a, as₂, rfl, hbefore, hstep⟩ := logs.split rfl hlog
    have ho := ordered_after as₁
    have hended : ((init.after as₁).step a).log = (init.after as₁).log ++ [.ended i false] := by
      rw [after, hstep, hbefore]
    have hg : g = ((init.after as₁).step a).after as₂ := List.foldl_append
    have hdead := (dead_of_ended hended).after (ho.step a) as₂
    rw [← hg] at hdead
    have hE : ∀ e ∈ E, e.harmless = true := fun e he =>
      hdead.harmless e (by rw [after, hbefore]; exact mem_drop_of_split hlog he)
    refine ⟨fun k hk => ?_, fun k hk => ?_, fun k gen => ⟨fun hk => ?_, fun hk => ?_⟩⟩
    · cases hE _ hk
    · cases hE _ hk
    · cases hE _ hk
    · exact hdead.state.not_running (ordered_after _) k gen hk

/-! ## Around the counter -/

/-- A fence without the exception of `fence_excludes`. -/
def FenceExcludes (g : Gate) : Prop :=
  ∀ A B C D E i, g.log = A ++ .began i .close :: (B ++ .closed i :: (C ++ .began i .fence ::
      (D ++ .fenced i true :: E))) →
    ∀ k gen, .admitted k (some gen) ∈ A →
      (∀ j, g.threads j ≠ .running gen) ∧ ∀ j, .started j gen ∉ E

/-- Thread 0 resumes. -/
def resumeOnce : List Action := .call 0 .resume :: List.replicate 4 (.step 0)

/-- Thread 0 resumes, admits a generation, closes the gate and fences it. -/
def opening : List Action :=
  resumeOnce ++ .call 0 .admits :: List.replicate 2 (.step 0) ++
    .call 0 .close :: List.replicate 2 (.step 0) ++ .call 0 .fence :: List.replicate 2 (.step 0)

/-- Thread 1 submits that generation. -/
def lateSubmit : List Action := .call 1 (.submit ⟨1, 1⟩) :: List.replicate 3 (.step 1)

/-- What is seen of `opening`. -/
def openingLog : List Event :=
  [.began 0 .resume, .resumed 0 true, .began 0 .admits, .admitted 0 (some ⟨1, 1⟩),
    .began 0 .close, .closed 0, .began 0 .fence, .fenced 0 true]

/-- The gate after `opening` and some resumes. -/
structure Resumed (n : Nat) (g : Gate) : Prop where
  admission : ∃ isOpen, g.admission = ⟨isOpen, UInt64.ofNat n, n, none, false⟩
  zero : g.threads 0 = .idle
  one : g.threads 1 = .idle
  log : openingLog <+: g.log

theorem resumed_opening : Resumed 2 (init.after opening) where
  admission := ⟨false, rfl⟩
  zero := rfl
  one := rfl
  log := ⟨[], rfl⟩

theorem Resumed.resumeOnce {n : Nat} (h : Resumed n g) :
    Resumed (n + 1) (g.after resumeOnce) ∧ (g.after resumeOnce).admission.isOpen = true := by
  obtain ⟨⟨isOpen, hadmission⟩, hzero, hone, rest, hlog⟩ := h
  have hafter : g.after Gate.resumeOnce =
      ⟨⟨true, UInt64.ofNat (n + 1), n + 1, none, false⟩, Function.update g.threads 0 .idle,
        g.log ++ [.began 0 .resume, .resumed 0 true]⟩ := by
    simp [after, step, call, Gate.resumeOnce, stepThread, advance, hzero, hadmission, allowed,
      Op.enter, increment, List.replicate, UInt64.ofNat_add]
  rw [hafter]
  refine ⟨⟨⟨true, rfl⟩, ?_, ?_, ?_⟩, rfl⟩
  · show Function.update g.threads 0 .idle 0 = .idle
    rw [Function.update_self]
  · show Function.update g.threads 0 .idle 1 = .idle
    rw [Function.update_of_ne (by decide), hone]
  · exact ⟨rest ++ [.began 0 .resume, .resumed 0 true], by rw [← List.append_assoc, hlog]⟩

theorem resumed_after (n : Nat) :
    Resumed (n + 3) (init.after (opening ++ (List.replicate (n + 1) resumeOnce).flatten)) ∧
      (init.after (opening ++ (List.replicate (n + 1) resumeOnce).flatten)).admission.isOpen =
        true := by
  induction n with
  | zero =>
      rw [after_append]
      exact resumed_opening.resumeOnce
  | succ n ih =>
      rw [List.replicate_succ', List.flatten_append, ← List.append_assoc, after_append,
        List.flatten_singleton]
      exact ih.1.resumeOnce

theorem Resumed.lateSubmit (h : Resumed (2 ^ 64 + 1) g) (hopen : g.admission.isOpen = true) :
    (g.after lateSubmit).log =
      g.log ++ [.began 1 (.submit ⟨1, 1⟩), .started 1 ⟨1, 1⟩] := by
  obtain ⟨⟨isOpen, hadmission⟩, hzero, hone, rest, hlog⟩ := h
  have hallowed : g.allowed (.submit ⟨1, 1⟩) = true :=
    List.any_eq_true.mpr ⟨.admitted 0 (some ⟨1, 1⟩), by rw [← hlog]; simp [openingLog], by decide⟩
  rw [hadmission] at hopen
  replace hopen : isOpen = true := hopen
  simp [after, step, call, Gate.lateSubmit, stepThread, advance, hone, hadmission, hallowed,
    Op.enter, List.replicate, hopen]

/-- The exception is needed: after enough resumes the generation is current again, and a
closure runs with a generation that was admitted before the fence. -/
theorem fence_wraps : ¬∀ actions, FenceExcludes (init.after actions) := by
  intro hall
  obtain ⟨hresumed, hopen⟩ := resumed_after (2 ^ 64 - 2)
  have hlate := hresumed.lateSubmit hopen
  rw [← after_append] at hlate
  obtain ⟨rest, hlog⟩ := hresumed.log
  rw [← hlog] at hlate
  refine (hall _ (openingLog.take 4) [] [] [] _ 0 hlate 0 ⟨1, 1⟩ (by decide)).2 1 ?_
  simp

end Gate

end ClipDaemon
