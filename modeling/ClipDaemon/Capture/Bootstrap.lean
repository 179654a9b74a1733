import ClipDaemon.Capture.Collector

/-!
# Selections that were there before

A connection that is made after a pause must not capture what was copied before it
(`docs/adr-0003-daemon-wayland-capture.md`).  A compositor sends the current selection of a
seat as the first selection event of every device, so the collector drops selections until
the second of two barriers has passed: the first follows the announcement of the globals,
and the second the devices that the first has attached.

`Link` is the collector with a compositor that serves requests in order: the requests on
their way, the events on their way, and what of them was seen.  The first selection of a
device that the first barrier has attached starts nothing.  A seat that is announced later
has its device attached behind the second barrier, and its first selection is captured
(`replayed_late`, `late_selection_captured`).
-/

namespace ClipDaemon.Capture.Wayland

/-! ## One thing before another -/

section Before

variable {α : Type*} {p q : α → Prop} {xs ys zs : List α} {x : α}

/-- Some `p` is in the list, with no `q` ahead of it. -/
def Before (p q : α → Prop) : List α → Prop
  | [] => False
  | x :: xs => p x ∨ ¬ q x ∧ Before p q xs

theorem Before.append (h : Before p q xs) (ys : List α) : Before p q (xs ++ ys) := by
  induction xs with
  | nil => cases h
  | cons x xs ih =>
      rcases h with h | ⟨hx, h⟩
      · exact .inl h
      · exact .inr ⟨hx, ih h⟩

theorem Before.behind (hxs : ∀ x ∈ xs, ¬ q x) (h : Before p q ys) : Before p q (xs ++ ys) := by
  induction xs with
  | nil => exact h
  | cons x xs ih =>
      exact .inr ⟨hxs x List.mem_cons_self, ih fun y hy => hxs y (List.mem_cons_of_mem x hy)⟩

/-- An element is replaced by what stands for it. -/
theorem Before.replace (h : Before p q (xs ++ x :: zs)) (hp : p x → Before p q ys)
    (hq : ¬ q x → ∀ y ∈ ys, ¬ q y) : Before p q (xs ++ (ys ++ zs)) := by
  induction xs with
  | nil =>
      rw [List.nil_append]
      rcases h with h | ⟨hx, h⟩
      · exact (hp h).append zs
      · exact Before.behind (hq hx) h
  | cons x' xs ih =>
      rcases h with h | ⟨hx, h⟩
      · exact .inl h
      · exact .inr ⟨hx, ih h⟩

theorem Before.insert (h : Before p q (xs ++ zs)) (hys : ∀ y ∈ ys, ¬ q y) :
    Before p q (xs ++ (ys ++ zs)) := by
  induction xs with
  | nil =>
      rw [List.nil_append]
      exact Before.behind hys h
  | cons x xs ih =>
      rcases h with h | ⟨hx, h⟩
      · exact .inl h
      · exact .inr ⟨hx, ih h⟩

end Before

/-! ## The compositor -/

def Request.device : Request → Option Nat
  | .getDataDevice device => some device
  | .sync _ => none

/-- The device whose selection the event tells. -/
def Event.selects : Event → Option Nat
  | .selection device _ => some device
  | _ => none

/-- May a compositor with these devices send the event unasked? -/
def Event.unasked (created : List Nat) : Event → Bool
  | .done _ => false
  | .dataOffer device _ | .selection device _ | .primarySelection device _ | .finished device =>
      created.contains device
  | _ => true

/-- The collector and the compositor, with what is on its way between them. -/
structure Link where
  collector : State
  /-- Requests that were not served. -/
  requests : List Request
  /-- Events that were not dispatched. -/
  events : List Event
  /-- The devices the compositor has made. -/
  created : List Nat
  /-- The devices the first barrier has attached; no step looks at these and the following. -/
  attached : List Nat
  /-- The devices of seats announced after the first barrier. -/
  late : List Nat
  /-- The devices whose first selection was dispatched. -/
  selected : List Nat
  /-- Those whose first selection has started a transfer. -/
  replayed : List Nat

namespace Link

/-- A new connection that skips the initial selections. -/
def begin (s : State) : Link where
  collector := s.connect true
  requests := [.sync .registry]
  events := []
  created := []
  attached := []
  late := []
  selected := []
  replayed := []

/-- What the two of them do. -/
inductive Move
  /-- The compositor sends an event unasked. -/
  | emit (event : Event)
  /-- The compositor serves a request.  A new device gets its selection, after events like
  the offer and its types. -/
  | serve (before : List Event) (selection : Option Nat)
  | dispatch (opening : Opening)
  /-- A step of the collector that dispatches no event. -/
  | collect (move : Wayland.Move)

/-- The compositor sends an event. -/
def emit (event : Event) (l : Link) : Link :=
  if event.unasked l.created then { l with events := l.events ++ [event] } else l

/-- The compositor serves the oldest request. -/
def serve (before : List Event) (selection : Option Nat) (l : Link) : Link :=
  match l.requests with
  | [] => l
  | .sync barrier :: requests => { l with requests, events := l.events ++ [.done barrier] }
  | .getDataDevice device :: requests =>
      if before.all (Event.unasked (device :: l.created)) then
        { l with
          requests, events := l.events ++ (before ++ [.selection device selection])
          created := device :: l.created }
      else l

/-- The first selection of a device was dispatched, and a transfer was started. -/
def replays (event : Event) (next : State) (l : Link) : List Nat :=
  event.selects.toList.filter fun device =>
    !l.selected.contains device && decide (l.collector.transfers.length < next.transfers.length)

/-- The oldest event reaches the collector. -/
def dispatch (opening : Opening) (l : Link) : Link :=
  match l.events with
  | [] => l
  | event :: events =>
      if l.collector.taken = [] ∧ opening.allowed l.collector.session then
        let (next, requests) := l.collector.handle opening event
        let devices := requests.filterMap Request.device
        { l with
          collector := next
          requests := l.requests ++ requests
          events
          attached := if event = .done .registry then devices ++ l.attached else l.attached
          late := if event = .done .registry then l.late else devices ++ l.late
          selected := event.selects.toList ++ l.selected
          replayed := l.replays event next ++ l.replayed }
      else l

/-- Another step of the collector. -/
def collect (l : Link) : Wayland.Move → Link
  | .dispatch _ _ => l
  | .connect _ => l
  | move => { l with collector := l.collector.step move }

/-- One step of the two. -/
def step (l : Link) : Move → Link
  | .emit event => l.emit event
  | .serve before selection => l.serve before selection
  | .dispatch opening => l.dispatch opening
  | .collect move => l.collect move

def after (moves : List Move) (l : Link) : Link := moves.foldl step l

end Link

/-- An event to be dispatched, or a request that will be answered. -/
abbrev Item := Event ⊕ Request

/-- The item is the second barrier, or its request. -/
def IsReady : Item → Prop
  | .inl event => event = .done .ready
  | .inr request => request = .sync .ready

/-- The item is the first barrier, or its request. -/
def isRegistry : Item → Bool
  | .inl event => event = .done .registry
  | .inr request => request = .sync .registry

/-- The item is a selection of the device, or the request that is answered by one. -/
def Selects (device : Nat) : Item → Prop
  | .inl event => event.selects = some device
  | .inr request => request = .getDataDevice device

/-- What is on its way to the collector. -/
def Link.future (l : Link) : List Item :=
  l.events.map .inl ++ l.requests.map .inr

/-! ## What a handler does to the bootstrap -/

namespace State

variable {s : State} {o : Opening} {event : Event}

theorem start_frame (o : Opening) (pending : Pending) (s : State) :
    ∃ session transfers, s.start o pending = { s with session, transfers } := by
  rcases start_cases o pending s with hs | ⟨generation, mime, mimes, -, -, -, hs⟩
  · exact ⟨s.session, s.transfers, hs⟩
  · exact ⟨_, _, hs⟩

theorem select_frame (id : Nat) (o : Opening) (s : State) :
    ∃ session offers transfers, s.select id o = { s with session, offers, transfers } := by
  simp only [select]
  split
  · exact ⟨s.session, s.offers, s.transfers, rfl⟩
  next pending hfind =>
    split
    · exact ⟨s.session, _, s.transfers, rfl⟩
    · obtain ⟨session, transfers, hstart⟩ :=
        start_frame o pending { s with offers := s.offers.filter (·.1 ≠ id) }
      exact ⟨session, _, transfers, hstart⟩

theorem receive_frame (look : Look) (s : State) :
    ∃ session transfers taken, s.receive look = { s with session, transfers, taken } := by
  simp only [State.receive]
  split
  · exact ⟨s.session, s.transfers, s.taken, rfl⟩
  next r rest htaken =>
    split
    · exact ⟨_, s.transfers, rest, rfl⟩
    · split
      · exact ⟨s.session, _, rest, rfl⟩
      next transfer hreceive =>
        simp only [State.finish]
        split
        · obtain ⟨session, transfers, hstart⟩ := start_frame look.opening r.pending
            (({ s with taken := rest } : State).release r.reserved)
          exact ⟨session, transfers, rest, hstart⟩
        · split
          · exact ⟨_, s.transfers, rest, rfl⟩
          · exact ⟨_, s.transfers, rest, rfl⟩
        · exact ⟨_, s.transfers, rest, rfl⟩
      · exact ⟨_, s.transfers, rest, rfl⟩

/-- What a handler does to the fields the bootstrap looks at. -/
structure Handled (s t : State) (event : Event) (requests : List Request) : Prop where
  skips : t.skipInitial = s.skipInitial
  ready : t.ready = true → s.ready = true ∨ event = .done .ready
  devices : ∀ seat ∈ t.seats, ∀ device, seat.device = some device →
    (∃ seat' ∈ s.seats, seat'.device = some device) ∨ .getDataDevice device ∈ requests
  asks : event ≠ .done .registry → ∀ request ∈ requests, ∃ device, request = .getDataDevice device

/-- A handler that leaves the seats alone, or removes some. -/
theorem Handled.of_subset {t : State} (hskips : t.skipInitial = s.skipInitial)
    (hready : t.ready = s.ready) (hseats : t.seats ⊆ s.seats) : Handled s t event [] where
  skips := hskips
  ready := fun h => .inl (hready ▸ h)
  devices := fun seat hseat _ hdevice => .inl ⟨seat, hseats hseat, hdevice⟩
  asks := by simp

theorem handled_addSeat (name : Nat) (s : State) :
    Handled s (s.addSeat name).1 event (s.addSeat name).2 := by
  simp only [addSeat]
  split
  · refine ⟨rfl, .inl, ?_, by simp⟩
    intro seat hseat device hdevice
    simp only [insertSeat, List.mem_append, List.mem_singleton] at hseat
    rcases hseat with hseat | rfl
    · exact .inl ⟨seat, (List.mem_filter.mp hseat).1, hdevice⟩
    · cases hdevice
  · refine ⟨rfl, .inl, ?_, by simp⟩
    intro seat hseat device hdevice
    simp only [insertSeat, List.mem_append, List.mem_singleton] at hseat
    rcases hseat with hseat | rfl
    · exact .inl ⟨seat, (List.mem_filter.mp hseat).1, hdevice⟩
    · right
      simp [Option.some.inj hdevice]

/-- The first barrier asks for a device for every seat, and then for the second barrier. -/
theorem initializeState_requests (s : State) :
    s.initializeState.2 = [] ∨ s.initializeState.2 =
      (List.range' s.nextDevice s.seats.length).map .getDataDevice ++ [.sync .ready] := by
  simp only [initializeState]
  split
  · exact .inl rfl
  · exact .inr rfl

theorem handled_initializeState (s : State) :
    Handled s s.initializeState.1 (.done .registry) s.initializeState.2 := by
  simp only [initializeState]
  split
  · exact ⟨rfl, .inl, fun seat hseat _ hdevice => .inl ⟨seat, hseat, hdevice⟩, by simp⟩
  · refine ⟨rfl, .inl, ?_, by simp⟩
    intro seat hseat device hdevice
    obtain ⟨⟨seat', number⟩, hmem, rfl⟩ := List.mem_map.mp hseat
    obtain ⟨hge, hlt, -⟩ := List.mem_zipIdx hmem
    right
    have hnumber : number = device := Option.some.inj hdevice
    subst hnumber
    refine List.mem_append_left _ (List.mem_map_of_mem ?_)
    exact List.mem_range'_1.mpr ⟨hge, hlt⟩

theorem handled (o : Opening) (s : State) (event : Event) :
    Handled s (s.handle o event).1 event (s.handle o event).2 := by
  have hsame (t : State) (h : t.skipInitial = s.skipInitial) (h' : t.ready = s.ready)
      (h'' : t.seats = s.seats) : Handled s t event [] :=
    .of_subset h h' (h'' ▸ List.Subset.refl _)
  have hfewer (name : Nat) : (s.removeSeat name).seats ⊆ s.seats :=
    List.filter_sublist.subset
  cases event with
  | global name interface version =>
      simp only [handle, State.addGlobal]
      split
      · exact hsame _ rfl rfl rfl
      · split
        · exact hsame _ rfl rfl rfl
        · split
          · exact handled_addSeat name s
          · exact hsame s rfl rfl rfl
  | globalRemove name =>
      simp only [handle]
      split
      · split
        · exact .of_subset rfl rfl (hfewer name)
        · exact .of_subset rfl rfl (hfewer name)
      · split
        · exact .of_subset rfl rfl (hfewer name)
        · exact .of_subset rfl rfl (hfewer name)
  | done barrier =>
      cases barrier with
      | registry => exact handled_initializeState s
      | ready =>
          simp only [handle]
          split
          · exact hsame _ rfl rfl rfl
          · exact ⟨rfl, fun _ => .inr rfl,
              fun seat hseat _ hdevice => .inl ⟨seat, hseat, hdevice⟩, by simp⟩
  | dataOffer device id =>
      simp only [handle, State.offer]
      split
      · exact hsame s rfl rfl rfl
      · split
        · exact hsame s rfl rfl rfl
        · exact hsame _ rfl rfl rfl
  | offerMime id mime => exact hsame _ rfl rfl rfl
  | selection device id =>
      simp only [handle]
      split
      next id hseat =>
        obtain ⟨session, offers, transfers, hselect⟩ := select_frame id o s
        rw [hselect]
        exact hsame _ rfl rfl rfl
      · exact hsame s rfl rfl rfl
  | primarySelection device id =>
      simp only [handle]
      split
      · exact hsame _ rfl rfl rfl
      · exact hsame s rfl rfl rfl
  | finished device =>
      simp only [handle]
      split
      · exact hsame s rfl rfl rfl
      · exact .of_subset rfl rfl (hfewer _)

/-- During the bootstrap a selection starts nothing. -/
theorem selection_skipped (hskips : s.skipInitial = true) (hready : s.ready = false)
    (device : Nat) (id : Option Nat) :
    (s.handle o (.selection device id)).1.transfers = s.transfers := by
  simp only [handle]
  split
  · simp only [select, hskips, hready]
    split
    · rfl
    · rfl
  · rfl

/-- Only the announcement of a seat asks for a device. -/
theorem handle_silent (hregistry : event ≠ .done .registry)
    (hseat : ∀ name version, event = .global name "wl_seat" version →
      s.manager = none ∨ MAX_SEATS ≤ s.seats.length) : (s.handle o event).2 = [] := by
  cases event with
  | global name interface version =>
      simp only [handle, State.addGlobal]
      split
      · rfl
      · split
        · rfl
        · split
          next hwl =>
            rcases hseat name version (by rw [hwl.1]) with hmanager | hfull
            · simp [addSeat, hmanager]
            · omega
          · rfl
  | done barrier =>
      cases barrier with
      | registry => exact absurd rfl hregistry
      | ready =>
          simp only [handle]
          split <;> rfl
  | globalRemove name =>
      simp only [handle]
      split_ifs <;> rfl
  | dataOffer device id =>
      simp only [handle]
      split <;> rfl
  | offerMime id mime => rfl
  | selection device id =>
      simp only [handle]
      split <;> rfl
  | primarySelection device id =>
      simp only [handle]
      split <;> rfl
  | finished device =>
      simp only [handle]
      split <;> rfl

end State

/-- A selection starts a transfer for a live device only. -/
theorem State.selection_live {s : State} {o : Opening} {device : Nat} {id : Option Nat}
    (h : s.transfers.length < (s.handle o (.selection device id)).1.transfers.length) :
    ∃ seat ∈ s.seats, seat.device = some device := by
  simp only [State.handle] at h
  split at h
  next hseat =>
    obtain ⟨seat, hseat, -⟩ := Option.map_eq_some_iff.mp hseat
    exact ⟨seat, List.mem_of_find?_eq_some hseat, by simpa using List.find?_some hseat⟩
  · exact absurd h (Nat.lt_irrefl _)

/-! ## What is kept -/

/-- The items answer one that was asked. -/
structure Answers (x : Item) (ys : List Item) : Prop where
  registry : ys.countP isRegistry = if isRegistry x then 1 else 0
  ready : ¬ IsReady x → ∀ y ∈ ys, ¬ IsReady y
  selects : ∀ device, Selects device x → Before (Selects device) IsReady ys

theorem answers_sync (barrier : Barrier) :
    Answers (.inr (.sync barrier)) [.inl (.done barrier)] where
  registry := by cases barrier <;> simp [isRegistry]
  ready := by simp [IsReady]
  selects := by simp [Selects]

theorem ready_unasked {event : Event} {created : List Nat} (h : event.unasked created = true) :
    ¬ IsReady (.inl event) := by
  rintro rfl
  cases h

theorem registry_unasked {event : Event} {created : List Nat}
    (h : event.unasked created = true) : isRegistry (.inl event) = false := by
  simp only [isRegistry, decide_eq_false_iff_not]
  rintro rfl
  cases h

theorem answers_getDataDevice {device : Nat} {created : List Nat} {before : List Event}
    (h : before.all (Event.unasked created) = true) (selection : Option Nat) :
    Answers (.inr (.getDataDevice device))
      ((before ++ [Event.selection device selection]).map .inl) := by
  have hbefore : ∀ y ∈ before.map (Sum.inl : Event → Item), ¬ IsReady y := by
    intro y hy
    obtain ⟨event, hevent, rfl⟩ := List.mem_map.mp hy
    exact ready_unasked (List.all_eq_true.mp h event hevent)
  constructor
  · have hcount : (before.map (Sum.inl : Event → Item)).countP isRegistry = 0 := by
      refine List.countP_eq_zero.mpr fun y hy => ?_
      obtain ⟨event, hevent, rfl⟩ := List.mem_map.mp hy
      simp [registry_unasked (List.all_eq_true.mp h event hevent)]
    simp [List.countP_append, hcount, isRegistry]
  · intro _ y hy
    rw [List.map_append, List.mem_append] at hy
    rcases hy with hy | hy
    · exact hbefore y hy
    · rw [List.map_singleton, List.mem_singleton] at hy
      simp [hy, IsReady]
  · intro device' hselects
    have hdevice : device = device' := by simpa [Selects] using hselects
    rw [List.map_append]
    exact .behind hbefore (.inl (by simp [Selects, Event.selects, hdevice]))

namespace Link

variable {l t : Link}

/-- Until the first barrier nothing is on its way that could end the bootstrap; then every
device it has attached gets its selection ahead of the second. -/
structure Bootstraps (l : Link) : Prop where
  skips : l.collector.skipInitial = true
  once : l.future.countP isRegistry ≤ 1
  waits : 0 < l.future.countP isRegistry →
    (∀ x ∈ l.future, ¬ IsReady x) ∧ l.attached = [] ∧ l.collector.ready = false
  first : ∀ device ∈ l.attached,
    device ∈ l.selected ∨ Before (Selects device) IsReady l.future
  ready : l.collector.ready = true → l.attached ⊆ l.selected
  devices : ∀ seat ∈ l.collector.seats, ∀ device, seat.device = some device →
    device ∈ l.attached ∨ device ∈ l.late
  replayed : l.replayed ⊆ l.late

theorem bootstraps_begin (s : State) : (begin s).Bootstraps where
  skips := rfl
  once := by simp [future, begin, isRegistry]
  waits := by simp [future, begin, IsReady, State.connect]
  first := by simp [begin]
  ready := by simp [begin, State.connect]
  devices := by simp [begin, State.connect]
  replayed := by simp [begin]

/-- What is on its way changes, and nothing else. -/
theorem Bootstraps.arrive (h : l.Bootstraps) (hcollector : t.collector = l.collector)
    (hattached : t.attached = l.attached) (hlate : t.late = l.late)
    (hselected : t.selected = l.selected) (hreplayed : t.replayed = l.replayed)
    (hcount : t.future.countP isRegistry = l.future.countP isRegistry)
    (hready : (∀ x ∈ l.future, ¬ IsReady x) → ∀ x ∈ t.future, ¬ IsReady x)
    (hfirst : ∀ device, Before (Selects device) IsReady l.future →
      Before (Selects device) IsReady t.future) : t.Bootstraps where
  skips := hcollector ▸ h.skips
  once := hcount ▸ h.once
  waits := by
    rw [hcount, hattached, hcollector]
    intro hpos
    obtain ⟨hnone, hrest⟩ := h.waits hpos
    exact ⟨hready hnone, hrest⟩
  first := by
    rw [hattached, hselected]
    exact fun device hdevice => (h.first device hdevice).imp_right (hfirst device)
  ready := by
    rw [hcollector, hattached, hselected]
    exact h.ready
  devices := by
    rw [hcollector, hattached, hlate]
    exact h.devices
  replayed := by
    rw [hreplayed, hlate]
    exact h.replayed

theorem Bootstraps.emit (h : l.Bootstraps) (event : Event) : (l.emit event).Bootstraps := by
  simp only [Link.emit]
  split
  next hunasked =>
    have hfuture : ({ l with events := l.events ++ [event] } : Link).future =
        l.events.map .inl ++ ([.inl event] ++ l.requests.map .inr) := by
      simp [future]
    have hready := ready_unasked hunasked
    refine h.arrive rfl rfl rfl rfl rfl ?_ ?_ ?_
    · rw [hfuture]
      simp [future, List.countP_append, registry_unasked hunasked]
    · rw [hfuture]
      intro hnone x hx
      simp only [future, List.mem_append, List.mem_singleton] at hnone hx
      rcases hx with hx | rfl | hx
      · exact hnone x (.inl hx)
      · exact hready
      · exact hnone x (.inr hx)
    · rw [hfuture]
      exact fun device hbefore => hbefore.insert (by simpa using hready)
  · exact h

/-- A request is answered in its place. -/
theorem Bootstraps.answer (h : l.Bootstraps) {request : Request} {requests : List Request}
    {events : List Event} {created : List Nat} (hrequests : l.requests = request :: requests)
    (hanswers : Answers (.inr request) (events.map .inl)) :
    ({ l with requests, events := l.events ++ events, created } : Link).Bootstraps := by
  have hold : l.future = l.events.map .inl ++ .inr request :: requests.map .inr := by
    simp [future, hrequests]
  have hnew : ({ l with requests, events := l.events ++ events, created } : Link).future =
      l.events.map .inl ++ (events.map .inl ++ requests.map .inr) := by
    simp [future]
  refine h.arrive rfl rfl rfl rfl rfl ?_ ?_ ?_
  · rw [hold, hnew]
    simp only [List.countP_append, List.countP_cons, hanswers.registry]
    omega
  · rw [hold, hnew]
    intro hnone x hx
    simp only [List.mem_append] at hx
    rcases hx with hx | hx | hx
    · exact hnone x (List.mem_append_left _ hx)
    · exact hanswers.ready (hnone _ (by simp)) x hx
    · exact hnone x (List.mem_append_right _ (List.mem_cons_of_mem _ hx))
  · rw [hold, hnew]
    exact fun device hbefore => hbefore.replace (hanswers.selects device) hanswers.ready

theorem Bootstraps.serve (h : l.Bootstraps) (before : List Event) (selection : Option Nat) :
    (l.serve before selection).Bootstraps := by
  simp only [Link.serve]
  split
  · exact h
  next barrier requests hrequests =>
    exact h.answer hrequests (answers_sync barrier)
  next device requests hrequests =>
    split
    next hbefore => exact h.answer hrequests (answers_getDataDevice hbefore selection)
    · exact h

/-- The devices that requests ask for. -/
theorem mem_devices {requests : List Request} {device : Nat} :
    device ∈ requests.filterMap Request.device ↔ .getDataDevice device ∈ requests := by
  simp only [List.mem_filterMap]
  constructor
  · rintro ⟨request, hrequest, hdevice⟩
    cases request with
    | sync barrier => cases hdevice
    | getDataDevice device' => exact Option.some.inj hdevice ▸ hrequest
  · exact fun h => ⟨_, h, rfl⟩

theorem future_cons {event : Event} {events : List Event} (hevents : l.events = event :: events) :
    l.future = .inl event :: (events.map .inl ++ l.requests.map .inr) := by
  simp [future, hevents]

theorem before_asked {device : Nat} {devices : List Nat} (h : device ∈ devices) :
    Before (Selects device) IsReady ((devices.map Request.getDataDevice).map .inr) := by
  induction devices with
  | nil => cases h
  | cons device' devices ih =>
      rcases List.mem_cons.mp h with rfl | h
      · exact .inl rfl
      · exact .inr ⟨by simp [IsReady], ih h⟩

/-- The first barrier attaches the devices.  Their selections come ahead of the second. -/
theorem Bootstraps.registry (h : l.Bootstraps) {events : List Event}
    (hevents : l.events = .done .registry :: events) (next : State) (requests : List Request)
    (hhandled : State.Handled l.collector next (.done .registry) requests)
    (hrequests : requests = [] ∨
      ∃ devices : List Nat, requests = devices.map .getDataDevice ++ [.sync .ready]) :
    ({ l with
      collector := next, requests := l.requests ++ requests, events
      attached := requests.filterMap Request.device ++ l.attached } : Link).Bootstraps := by
  have hold := future_cons hevents
  have hcount := h.once
  rw [hold, List.countP_cons] at hcount
  simp only [isRegistry, decide_true, if_true] at hcount
  obtain ⟨hnone, hattached, hready⟩ := h.waits (by
    rw [hold]
    simp [isRegistry])
  have hrest : ∀ x ∈ (events.map .inl ++ l.requests.map .inr : List Item), ¬ IsReady x := by
    intro x hx
    exact hnone x (by rw [hold]; exact List.mem_cons_of_mem _ hx)
  have hnew : ({ l with
      collector := next, requests := l.requests ++ requests, events
      attached := requests.filterMap Request.device ++ l.attached } : Link).future =
        (events.map .inl ++ l.requests.map .inr) ++ requests.map .inr := by
    simp [future]
  have hzero : ((events.map .inl ++ l.requests.map .inr) ++
      requests.map .inr : List Item).countP isRegistry = 0 := by
    rw [List.countP_append]
    have : (requests.map (Sum.inr : Request → Item)).countP isRegistry = 0 := by
      refine List.countP_eq_zero.mpr fun x hx => ?_
      obtain ⟨request, hrequest, rfl⟩ := List.mem_map.mp hx
      rcases hrequests with rfl | ⟨devices, rfl⟩
      · cases hrequest
      · simp only [List.mem_append, List.mem_map, List.mem_singleton] at hrequest
        rcases hrequest with ⟨device, -, rfl⟩ | rfl <;> simp [isRegistry]
    omega
  have hnext : next.ready = false := by
    by_contra hnext
    rcases hhandled.ready (by simpa using hnext) with hs | hs
    · simp [hready] at hs
    · cases hs
  constructor
  · exact hhandled.skips.trans h.skips
  · rw [hnew, hzero]
    exact Nat.zero_le _
  · rw [hnew, hzero]
    exact fun hpos => absurd hpos (Nat.lt_irrefl _)
  · intro device hdevice
    right
    rw [hattached, List.append_nil, mem_devices] at hdevice
    rw [hnew]
    refine .behind hrest ?_
    rcases hrequests with rfl | ⟨devices, rfl⟩
    · cases hdevice
    · rw [List.map_append]
      exact .append (before_asked (by simpa using hdevice)) _
  · exact fun hready => absurd hready (by simp [hnext])
  · intro seat hseat device hdevice
    rcases hhandled.devices seat hseat device hdevice with ⟨seat', hseat', hdevice'⟩ | hasked
    · rcases h.devices seat' hseat' device hdevice' with hmem | hmem
      · exact .inl (List.mem_append_right _ hmem)
      · exact .inr hmem
    · exact .inl (List.mem_append_left _ (mem_devices.mpr hasked))
  · exact h.replayed

/-- Any other event, the second barrier included: it comes behind the selection of every
device the first has attached. -/
theorem Bootstraps.other (h : l.Bootstraps) {event : Event} {events : List Event}
    (hevents : l.events = event :: events) (hregistry : event ≠ .done .registry) (o : Opening) :
    ({ l with
      collector := (l.collector.handle o event).1
      requests := l.requests ++ (l.collector.handle o event).2, events
      late := (l.collector.handle o event).2.filterMap Request.device ++ l.late
      selected := event.selects.toList ++ l.selected
      replayed := l.replays event (l.collector.handle o event).1 ++ l.replayed } :
        Link).Bootstraps := by
  have hhandled := State.handled o l.collector event
  have hold := future_cons hevents
  have hasks : ∀ x ∈ ((l.collector.handle o event).2.map .inr : List Item),
      ¬ IsReady x ∧ isRegistry x = false := by
    intro x hx
    obtain ⟨request, hrequest, rfl⟩ := List.mem_map.mp hx
    obtain ⟨device, rfl⟩ := hhandled.asks hregistry request hrequest
    simp [IsReady, isRegistry]
  have hzero : ((l.collector.handle o event).2.map .inr : List Item).countP isRegistry = 0 :=
    List.countP_eq_zero.mpr fun x hx => by simp [(hasks x hx).2]
  have hcount : (events.map .inl ++ l.requests.map .inr ++
      (l.collector.handle o event).2.map .inr : List Item).countP isRegistry =
        l.future.countP isRegistry := by
    rw [hold, List.countP_append, hzero, List.countP_cons]
    simp [isRegistry, hregistry]
  have hfirst : ∀ device ∈ l.attached, device ∈ event.selects.toList ++ l.selected ∨
      event ≠ .done .ready ∧
        Before (Selects device) IsReady (events.map .inl ++ l.requests.map .inr) := by
    intro device hdevice
    rcases h.first device hdevice with hselected | hbefore
    · exact .inl (List.mem_append_right _ hselected)
    · rw [hold] at hbefore
      rcases hbefore with hselects | ⟨hready, hbefore⟩
      · left
        rw [show event.selects = some device from hselects]
        simp
      · exact .inr ⟨hready, hbefore⟩
  have hreadies : (l.collector.handle o event).1.ready = true →
      l.attached ⊆ event.selects.toList ++ l.selected := by
    intro hready device hdevice
    rcases hhandled.ready hready with hs | hs
    · exact List.mem_append_right _ (h.ready hs hdevice)
    · rcases hfirst device hdevice with hselected | ⟨hne, -⟩
      · exact hselected
      · exact absurd hs hne
  have hlate : l.replays event (l.collector.handle o event).1 ⊆ l.late := by
    intro device hdevice
    simp only [replays, List.mem_filter, Option.mem_toList, Bool.and_eq_true,
      decide_eq_true_eq] at hdevice
    obtain ⟨hselects, hfresh, hgrows⟩ := hdevice
    cases event with
    | selection device' id =>
        obtain rfl : device' = device := Option.some.inj hselects
        obtain ⟨seat, hseat, hlive⟩ := State.selection_live hgrows
        rcases h.devices seat hseat device' hlive with hattached | hlate
        · exfalso
          have hready : l.collector.ready = false := by
            by_contra hready
            have := h.ready (by simpa using hready) hattached
            simp [this] at hfresh
          rw [State.selection_skipped h.skips hready] at hgrows
          exact Nat.lt_irrefl _ hgrows
        · exact hlate
    | _ => cases hselects
  have hnew : ({ l with
      collector := (l.collector.handle o event).1
      requests := l.requests ++ (l.collector.handle o event).2, events
      late := (l.collector.handle o event).2.filterMap Request.device ++ l.late
      selected := event.selects.toList ++ l.selected
      replayed := l.replays event (l.collector.handle o event).1 ++ l.replayed } :
        Link).future =
      events.map .inl ++ l.requests.map .inr ++ (l.collector.handle o event).2.map .inr := by
    simp [future]
  constructor
  · exact hhandled.skips.trans h.skips
  · rw [hnew, hcount]
    exact h.once
  · rw [hnew, hcount]
    intro hpos
    obtain ⟨hnone, hattached, hready⟩ := h.waits hpos
    refine ⟨?_, hattached, ?_⟩
    · intro x hx
      rcases List.mem_append.mp hx with hx | hx
      · exact hnone x (by rw [hold]; exact List.mem_cons_of_mem _ hx)
      · exact (hasks x hx).1
    · by_contra hnext
      rcases hhandled.ready (by simpa using hnext) with hs | rfl
      · simp [hready] at hs
      · exact hnone (.inl (.done .ready)) (by simp [hold]) rfl
  · intro device hdevice
    rw [hnew]
    exact (hfirst device hdevice).imp_right fun hbefore => hbefore.2.append _
  · exact hreadies
  · intro seat hseat device hdevice
    rcases hhandled.devices seat hseat device hdevice with ⟨seat', hseat', hdevice'⟩ | hasked
    · exact (h.devices seat' hseat' device hdevice').imp_right (List.mem_append_right _)
    · exact .inr (List.mem_append_left _ (mem_devices.mpr hasked))
  · intro device hdevice
    rcases List.mem_append.mp hdevice with hdevice | hdevice
    · exact List.mem_append_right _ (hlate hdevice)
    · exact List.mem_append_right _ (h.replayed hdevice)

theorem Bootstraps.dispatch (h : l.Bootstraps) (o : Opening) : (l.dispatch o).Bootstraps := by
  simp only [Link.dispatch]
  split
  · exact h
  next event events hevents =>
    split
    · by_cases hregistry : event = .done .registry
      · subst hregistry
        simp only [if_true]
        refine h.registry hevents _ _ (State.handled o l.collector _) ?_
        exact (State.initializeState_requests l.collector).imp_right fun hasked => ⟨_, hasked⟩
      · simp only [if_neg hregistry]
        exact h.other hevents hregistry o
    · exact h

/-- The bootstrap does not look at transfers and jobs. -/
theorem Bootstraps.local (h : l.Bootstraps) {next : State}
    (hskips : next.skipInitial = l.collector.skipInitial)
    (hready : next.ready = l.collector.ready) (hseats : next.seats = l.collector.seats) :
    ({ l with collector := next } : Link).Bootstraps where
  skips := hskips.trans h.skips
  once := h.once
  waits := fun hpos => (h.waits hpos).imp_right fun hrest => ⟨hrest.1, hready.trans hrest.2⟩
  first := h.first
  ready := fun hnext => h.ready (hready ▸ hnext)
  devices := fun seat hseat => h.devices seat (hseats ▸ hseat)
  replayed := h.replayed

theorem Bootstraps.collect (h : l.Bootstraps) (move : Wayland.Move) :
    (l.collect move).Bootstraps := by
  cases move with
  | gate action => exact h.local rfl rfl rfl
  | dispatch event opening => exact h
  | take =>
      simp only [Link.collect, State.step]
      split
      · exact h.local rfl rfl rfl
      · exact h
  | receive look =>
      simp only [Link.collect, State.step]
      split
      · obtain ⟨session, transfers, taken, hreceive⟩ := State.receive_frame look l.collector
        rw [hreceive]
        exact h.local rfl rfl rfl
      · exact h
  | connect skipInitial => exact h
  | work =>
      simp only [Link.collect, State.step]
      split
      · exact h.local rfl rfl rfl
      · exact h
  | worked =>
      simp only [Link.collect, State.step]
      split
      · exact h
      · exact h.local rfl rfl rfl
  | leave => exact h.local rfl rfl rfl

theorem Bootstraps.step (h : l.Bootstraps) (move : Move) : (l.step move).Bootstraps := by
  cases move with
  | emit event => exact h.emit event
  | serve before selection => exact h.serve before selection
  | dispatch opening => exact h.dispatch opening
  | collect move => exact h.collect move

theorem bootstraps_after (s : State) (moves : List Move) :
    ((begin s).after moves).Bootstraps :=
  Transition.foldl_invariant (I := Bootstraps) (fun _ move h => h.step move) moves
    (bootstraps_begin s)

/-- Whatever the run is, the first selection of a device starts a transfer only if its seat
was announced behind the first barrier. -/
theorem replayed_late (s : State) (moves : List Move) :
    ((begin s).after moves).replayed ⊆ ((begin s).after moves).late :=
  (bootstraps_after s moves).replayed

/-! ## Runs without late seats -/

/-- The step does not announce a seat to a collector that has bound its manager, unless the
seats are full. -/
def Timely (l : Link) : Move → Prop
  | .dispatch _ =>
      match l.events with
      | .global _ interface _ :: _ =>
          interface = "wl_seat" →
            l.collector.manager = none ∨ MAX_SEATS ≤ l.collector.seats.length
      | _ => True
  | _ => True

instance (l : Link) : ∀ move, Decidable (l.Timely move)
  | .dispatch _ =>
      match h : l.events with
      | .global _ interface _ :: _ =>
          decidable_of_iff (interface = "wl_seat" →
            l.collector.manager = none ∨ MAX_SEATS ≤ l.collector.seats.length) (by simp [Timely, h])
      | [] | .globalRemove _ :: _ | .done _ :: _ | .dataOffer _ _ :: _ | .offerMime _ _ :: _
      | .selection _ _ :: _ | .primarySelection _ _ :: _ | .finished _ :: _ =>
          .isTrue (by simp [Timely, h])
  | .emit _ | .serve _ _ | .collect _ => .isTrue trivial

theorem dispatch_late (o : Opening) (h : l.Timely (.dispatch o)) :
    (l.dispatch o).late = l.late := by
  simp only [Link.dispatch]
  split
  · rfl
  next event events hevents =>
    split
    · by_cases hregistry : event = .done .registry
      · simp [hregistry]
      · have hsilent : (l.collector.handle o event).2 = [] :=
          State.handle_silent hregistry fun name version hseat => by
            simpa only [Timely, hevents, hseat, true_implies] using h
        simp [hregistry, hsilent]
    · rfl

theorem step_late (move : Move) (h : l.Timely move) : (l.step move).late = l.late := by
  cases move with
  | emit event =>
      simp only [step, emit]
      split <;> rfl
  | serve before selection =>
      simp only [step, serve]
      split
      · rfl
      · rfl
      · split <;> rfl
  | dispatch opening => exact dispatch_late opening h
  | collect move => cases move <;> rfl

theorem late_timely {s : State} {moves : List Move}
    (h : Transition.Throughout step Timely (begin s) moves) :
    ((begin s).after moves).late = [] :=
  Transition.foldl_invariant_of (I := fun l => l.late = [])
    (fun _ move hlate htimely => (step_late move htimely).trans hlate) h rfl

end Link

/-! ## Three runs -/

namespace Link

/-- The gate is opened, and gives out its generation. -/
def openGate : List Move :=
  ([Gate.Action.call 0 .resume, .step 0, .step 0, .step 0, .step 0, .call 0 .admits, .step 0,
    .step 0]).map fun action => .collect (.gate action)

def plainOpening : Opening := ⟨some ⟨1, 1⟩, true, [104, 105], 0⟩

/-- A manager and a seat are announced, and both barriers pass. -/
def bootstrap : List Move :=
  [.emit (.global 1 "ext_data_control_manager_v1" 1), .emit (.global 2 "wl_seat" 7),
    .serve [] none, .dispatch plainOpening, .dispatch plainOpening, .dispatch plainOpening,
    .serve [.dataOffer 0 8, .offerMime 8 "text/plain"] (some 8), .serve [] none,
    .dispatch plainOpening, .dispatch plainOpening, .dispatch plainOpening,
    .dispatch plainOpening]

/-- A later selection. -/
def copied : List Move :=
  [.emit (.dataOffer 0 9), .emit (.offerMime 9 "text/plain"), .emit (.selection 0 (some 9)),
    .dispatch plainOpening, .dispatch plainOpening, .dispatch plainOpening]

/-- A second seat is announced, and its device gets the selection that is there. -/
def hotplug : List Move :=
  [.emit (.global 3 "wl_seat" 7), .dispatch plainOpening,
    .serve [.dataOffer 1 9, .offerMime 9 "text/plain"] (some 9), .dispatch plainOpening,
    .dispatch plainOpening, .dispatch plainOpening]

end Link

/-- The first selection of a device whose seat was announced ahead of the first barrier
starts nothing, in any run; and in a run that announces no seat later, no first selection
starts anything. -/
theorem first_selections_discarded (s : State) (moves : List Link.Move) :
    let l := (Link.begin s).after moves
    l.replayed ⊆ l.late ∧
      (Transition.Throughout Link.step Link.Timely (Link.begin s) moves → l.replayed = []) := by
  intro l
  have hlate : l.replayed ⊆ l.late := Link.replayed_late s moves
  refine ⟨hlate, fun htimely => ?_⟩
  have hnone : l.late = [] := Link.late_timely htimely
  exact List.subset_nil.mp (hnone ▸ hlate)

/-- In a run with one seat, announced in time, the selection that was there is dropped and
the next one is captured. -/
theorem first_selections_discarded_copied :
    let moves := Link.openGate ++ Link.bootstrap ++ Link.copied
    let l := (Link.begin (.initial 1024 true)).after moves
    l.selected = [0, 0] ∧ l.collector.transfers.length = 1 ∧ l.replayed = [] := by
  intro moves l
  exact ⟨by decide, by decide,
    (first_selections_discarded (.initial 1024 true) moves).2 (by decide)⟩

/-- The selection that was there when a second seat came is captured. -/
theorem late_selection_captured :
    let l := (Link.begin (.initial 1024 true)).after
      (Link.openGate ++ Link.bootstrap ++ Link.hotplug)
    l.collector.skipInitial = true ∧ l.selected = [1, 0] ∧ l.replayed = [1] ∧
      l.collector.transfers.length = 1 := by
  decide

end ClipDaemon.Capture.Wayland
