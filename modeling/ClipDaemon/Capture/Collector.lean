import ClipDaemon.Capture.Admission
import ClipDaemon.Capture.Policy
import ClipDaemon.Capture.Transfer

/-!
# The Wayland collector

The capture thread follows the events of a compositor (`capture/wayland.rs`): seats come
and go, a data control device is attached to each, the device announces offers and the
selection among them, and a selected offer is received over the next ticks.  A received
payload becomes a job of the ingest thread.

A tick takes the list of transfers out and rebuilds it, one transfer after the other; the
ingest thread and the callers of the gate work in between, so each transfer of a tick is a
step here.  Every transfer and every job holds a reservation of the session's budget until
it is dropped.

`State.Sound` collects the bounds, and every run keeps them (`collector_bounded`).
-/

namespace ClipDaemon.Capture.Wayland

def MAX_TRANSFERS : Nat := 4
def TOTAL_BYTES : Nat := 128 * 1024 * 1024

/-- The jobs the queue to the ingest thread holds. -/
def QUEUED_JOBS : Nat := 1

/-! ## State -/

/-- An offer whose types are still being announced. -/
structure Pending where
  mimes : OfferedMimes
  seat : Nat

/-- A transfer that is read. -/
structure Receiving where
  pending : Pending
  mime : String
  transfer : Transfer
  generation : Generation
  /-- The bytes the transfer holds of the budget. -/
  reserved : Nat

/-- A payload that was read. -/
structure Job where
  file : Bytes
  mime : String
  generation : Generation
  reserved : Nat

/-- What the capture thread shares with the ingest thread. -/
structure Session where
  gate : Gate
  limit : Nat
  /-- The counter of the budget. -/
  budget : Nat
  jobs : List Job
  /-- The job the ingest thread executes. -/
  executing : Option Job
  /-- The ingest thread receives jobs. -/
  connected : Bool

/-- The global that offers come from, and its protocol. -/
inductive Manager
  | ext (name : Nat)
  | wlr (name : Nat)
deriving DecidableEq

/-- A seat and its data control device. -/
structure Seat where
  name : Nat
  device : Option Nat
deriving DecidableEq

/-- The state of the collector. -/
structure State where
  session : Session
  ext : Option Nat
  wlr : Option Nat
  manager : Option Manager
  seats : List Seat
  /-- The offers by their object ids. -/
  offers : List (Nat × Pending)
  transfers : List Receiving
  /-- The transfers a tick has taken out and not looked at yet. -/
  taken : List Receiving
  ready : Bool
  skipInitial : Bool
  error : Option String
  /-- The number of the next device. -/
  nextDevice : Nat

/-- What a round trip was made for. -/
inductive Barrier
  | registry
  | ready
deriving DecidableEq

/-- The requests whose order matters. -/
inductive Request
  | sync (barrier : Barrier)
  | getDataDevice (device : Nat)
deriving DecidableEq

/-- The events of the compositor. -/
inductive Event
  | global (name : Nat) (interface : String) (version : Nat)
  | globalRemove (name : Nat)
  | done (barrier : Barrier)
  | dataOffer (device id : Nat)
  | offerMime (id : Nat) (mime : String)
  | selection (device : Nat) (id : Option Nat)
  | primarySelection (device : Nat) (id : Option Nat)
  | finished (device : Nat)
deriving DecidableEq

/-- What starting a transfer meets: what the gate's `admit` returned, whether the pipe and
the memory file can be made, the stream the source sends, and the time. -/
structure Opening where
  admitted : Option Generation
  opens : Bool
  source : Bytes
  now : Nat

/-- What one transfer meets in a tick. -/
structure Look where
  /-- The gate still accepts the generation. -/
  accepts : Bool
  tick : Tick
  rewinds : Bool
  /-- A blank payload starts the next one. -/
  opening : Opening

/-! ## Transfers -/

namespace Session

/-- Room for a payload of this length, if the budget has it. -/
def reserve (bytes : Nat) (s : Session) : Option Session :=
  if s.budget + bytes ≤ TOTAL_BYTES then some { s with budget := s.budget + bytes } else none

/-- A reservation is dropped. -/
def release (bytes : Nat) (s : Session) : Session := { s with budget := s.budget - bytes }

/-- The jobs that were not dropped. -/
def pending (s : Session) : List Job := s.executing.toList ++ s.jobs

/-- The generation is one that `admit` gave to some thread. -/
def gave (generation : Generation) (s : Session) : Bool :=
  s.gate.log.any fun
    | .admitted _ (some given) => given = generation
    | _ => false

end Session

/-- The reservations of some transfers. -/
def reservedBy (rs : List Receiving) : Nat := (rs.map (·.reserved)).sum

namespace State

/-- The bytes are given back to the budget. -/
def release (bytes : Nat) (s : State) : State := { s with session := s.session.release bytes }

/-- A transfer is begun for the offer. -/
def start (o : Opening) (pending : Pending) (s : State) : State :=
  if MAX_TRANSFERS ≤ s.transfers.length then s
  else
    match o.admitted with
    | none => s
    | some generation =>
        match pending.mimes.next with
        | none => s
        | some (mime, mimes) =>
            match s.session.reserve (s.session.limit + 1) with
            | none => s
            | some session =>
                if o.opens then
                  { s with
                    session
                    transfers := s.transfers ++ [{
                      pending := { pending with mimes }, mime
                      transfer := .new o.source s.session.limit o.now
                      generation, reserved := s.session.limit + 1 }] }
                else s

/-- The transfer is over, and its payload goes to the ingest thread. -/
def finish (look : Look) (r : Receiving) (s : State) : State :=
  match r.transfer.finish look.rewinds with
  | .ok .blank => (s.release r.reserved).start look.opening r.pending
  | .ok (.complete file) =>
      if s.session.connected ∧ s.session.jobs.length < QUEUED_JOBS then
        { s with
          session.jobs := s.session.jobs ++ [⟨file, r.mime, r.generation, r.reserved⟩] }
      else s.release r.reserved
  | .error _ => s.release r.reserved

/-- The next of the transfers taken out. -/
def receive (look : Look) (s : State) : State :=
  match s.taken with
  | [] => s
  | r :: rest =>
      let s := { s with taken := rest }
      if !look.accepts then s.release r.reserved
      else
        match r.transfer.receive look.tick with
        | .ok (false, transfer) => { s with transfers := s.transfers ++ [{ r with transfer }] }
        | .ok (true, transfer) => s.finish look { r with transfer }
        | .error _ => s.release r.reserved

/-! ## Seats, offers and barriers -/

/-- `seats.insert`. -/
def insertSeat (seat : Seat) (seats : List Seat) : List Seat :=
  seats.filter (·.name ≠ seat.name) ++ [seat]

/-- Bind a seat; its device is attached once there is a manager. -/
def addSeat (name : Nat) (s : State) : State × List Request :=
  match s.manager with
  | none => ({ s with seats := insertSeat ⟨name, none⟩ s.seats }, [])
  | some _ =>
      ({ s with
          seats := insertSeat ⟨name, some s.nextDevice⟩ s.seats
          nextDevice := s.nextDevice + 1 },
        [.getDataDevice s.nextDevice])

/-- A global is announced. -/
def addGlobal (name : Nat) (interface : String) (version : Nat) (s : State) :
    State × List Request :=
  if interface = "ext_data_control_manager_v1" then ({ s with ext := some name }, [])
  else if interface = "zwlr_data_control_manager_v1" ∧ 2 ≤ version then
    ({ s with wlr := some name }, [])
  else if interface = "wl_seat" ∧ s.seats.length < MAX_SEATS then s.addSeat name
  else (s, [])

/-- A seat is gone, with its device. -/
def removeSeat (name : Nat) (s : State) : State :=
  { s with
    session := s.session.release (reservedBy (s.transfers.filter (·.pending.seat = name)))
    offers := s.offers.filter (·.2.seat ≠ name)
    transfers := s.transfers.filter (·.pending.seat ≠ name)
    seats := s.seats.filter (·.name ≠ name) }

/-- A device has a new offer. -/
def offer (id seat : Nat) (s : State) : State :=
  if MAX_OFFERS ≤ s.offers.length + s.transfers.length then s
  else { s with offers := s.offers.filter (·.1 ≠ id) ++ [(id, ⟨.default, seat⟩)] }

/-- A device has a new selection. -/
def select (id : Nat) (o : Opening) (s : State) : State :=
  match s.offers.find? (·.1 = id) with
  | none => s
  | some (_, pending) =>
      let s := { s with offers := s.offers.filter (·.1 ≠ id) }
      if s.skipInitial && !s.ready then s else s.start o pending

/-- Bind the manager and attach a device to every seat. -/
def initializeState (s : State) : State × List Request :=
  let manager := (s.ext.map Manager.ext).orElse fun _ => s.wlr.map Manager.wlr
  let s := { s with manager }
  if manager.isNone ∨ s.seats = [] then
    ({ s with error := some "Wayland capture requires data-control and a seat" }, [])
  else
    ({ s with
        seats := (s.seats.zipIdx s.nextDevice).map fun (seat, device) =>
          { seat with device := some device }
        nextDevice := s.nextDevice + s.seats.length },
      ((List.range' s.nextDevice s.seats.length).map .getDataDevice) ++ [.sync .ready])

/-- The seat of a live device. -/
def seatOf (device : Nat) (s : State) : Option Nat :=
  (s.seats.find? (·.device = some device)).map (·.name)

/-- The handler of an event.  Nothing is heard of destroyed devices. -/
def handle (o : Opening) (s : State) : Event → State × List Request
  | .global name interface version => s.addGlobal name interface version
  | .globalRemove name =>
      let s := s.removeSeat name
      let s :=
        if s.ready ∧ s.seats = [] then { s with error := some "Wayland capture has no seats" }
          else s
      if s.ext = some name ∨ s.wlr = some name then
        ({ s with error := some "Wayland data-control manager disappeared" }, [])
      else (s, [])
  | .done .registry => s.initializeState
  | .done .ready =>
      if s.error.isSome ∨ s.seats = [] then
        ({ s with error := s.error.orElse fun _ => some "Wayland capture has no seats" }, [])
      else ({ s with ready := true }, [])
  | .dataOffer device id =>
      match s.seatOf device with
      | none => (s, [])
      | some seat => (s.offer id seat, [])
  | .offerMime id mime =>
      ({ s with
          offers := s.offers.map fun p =>
            if p.1 = id then (p.1, { p.2 with mimes := p.2.mimes.add mime }) else p }, [])
  | .selection device id =>
      match s.seatOf device, id with
      | some _, some id => (s.select id o, [])
      | _, _ => (s, [])
  | .primarySelection device id =>
      match s.seatOf device, id with
      | some _, some id => ({ s with offers := s.offers.filter (·.1 ≠ id) }, [])
      | _, _ => (s, [])
  | .finished device =>
      match s.seatOf device with
      | none => (s, [])
      | some seat =>
          ({ s.removeSeat seat with error := some "Wayland capture device finished" }, [])

/-- A connection of a session.  The transfers of the connection before are dropped. -/
def connect (skipInitial : Bool) (s : State) : State where
  session := s.session.release (reservedBy s.transfers)
  ext := none
  wlr := none
  manager := none
  seats := []
  offers := []
  transfers := []
  taken := []
  ready := false
  skipInitial := skipInitial
  error := none
  nextDevice := s.nextDevice

/-- The first connection of a new session. -/
def initial (limit : Nat) (skipInitial : Bool) : State where
  session := ⟨Gate.init, limit, 0, [], none, true⟩
  ext := none
  wlr := none
  manager := none
  seats := []
  offers := []
  transfers := []
  taken := []
  ready := false
  skipInitial := skipInitial
  error := none
  nextDevice := 0

end State

/-! ## Runs -/

/-- The steps of the threads.  Events are dispatched and connections replaced between
ticks. -/
inductive Move
  /-- A thread uses the gate. -/
  | gate (action : Gate.Action)
  | dispatch (event : Event) (opening : Opening)
  /-- A tick takes the transfers out. -/
  | take
  | receive (look : Look)
  | connect (skipInitial : Bool)
  /-- The ingest thread takes a job. -/
  | work
  /-- The job is done and dropped. -/
  | worked
  /-- The ingest thread ends and drops its jobs. -/
  | leave

/-- What `admit` returned was given by the gate. -/
def Opening.allowed (session : Session) (o : Opening) : Bool :=
  match o.admitted with
  | none => true
  | some generation => session.gave generation

namespace State

/-- One step of the collector. -/
def step (s : State) : Move → State
  | .gate action => { s with session := { s.session with gate := s.session.gate.step action } }
  | .dispatch event opening =>
      if s.taken = [] ∧ opening.allowed s.session then (s.handle opening event).1 else s
  | .take => if s.taken = [] then { s with taken := s.transfers, transfers := [] } else s
  | .receive look => if look.opening.allowed s.session then s.receive look else s
  | .connect skipInitial => if s.taken = [] then s.connect skipInitial else s
  | .work =>
      match s.session.executing, s.session.jobs with
      | none, job :: jobs =>
          { s with session := { s.session with executing := some job, jobs } }
      | _, _ => s
  | .worked =>
      match s.session.executing with
      | none => s
      | some job =>
          { s with session := { s.session.release job.reserved with executing := none } }
  | .leave =>
      { s with
        session := { s.session.release (s.session.pending.map (·.reserved)).sum with
          jobs := [], executing := none, connected := false } }

def after (moves : List Move) (s : State) : State := moves.foldl step s

end State

/-- The slots of a poll with room for `n`: one for the connection and one for each
transfer. -/
def pollSlots (n : Nat) (transfers : List Receiving) : Except String Nat :=
  transfers.foldlM (fun count _ =>
    if count < n then .ok (count + 1) else .error "Too many Wayland transfers to poll") 1

/-! ## What is kept -/

/-- The names of the live seats. -/
def State.names (s : State) : List Nat := s.seats.map (·.name)

/-- The reservations of the jobs. -/
def Session.owed (s : Session) : Nat := (s.pending.map (·.reserved)).sum

/-- A running transfer belongs to a live seat, stays within its limit and reservation, and
carries a generation that the gate gave. -/
structure State.Holds (s : State) (r : Receiving) : Prop where
  live : r.pending.seat ∈ s.names
  within : r.transfer.length ≤ r.transfer.limit
  limit : r.transfer.limit = s.session.limit
  paid : r.reserved = s.session.limit + 1
  gave : s.session.gave r.generation = true

/-- The transfers that run, those a tick has not looked at included. -/
def State.running (s : State) : List Receiving := s.transfers ++ s.taken

/-- The collector keeps within its bounds. -/
structure State.Sound (s : State) : Prop where
  seats : s.seats.length ≤ MAX_SEATS
  offers : s.offers.length + s.running.length ≤ MAX_OFFERS
  transfers : s.running.length ≤ MAX_TRANSFERS
  budget : s.session.budget = reservedBy s.running + s.session.owed
  total : s.session.budget ≤ TOTAL_BYTES
  live : ∀ p ∈ s.offers, p.2.seat ∈ s.names
  holds : ∀ r ∈ s.running, s.Holds r

/-! ### Reservations -/

@[simp] theorem reservedBy_nil : reservedBy [] = 0 := by simp [reservedBy]

@[simp] theorem reservedBy_cons (r : Receiving) (rs : List Receiving) :
    reservedBy (r :: rs) = r.reserved + reservedBy rs := by
  simp [reservedBy]

@[simp] theorem reservedBy_append (rs rs' : List Receiving) :
    reservedBy (rs ++ rs') = reservedBy rs + reservedBy rs' := by
  simp [reservedBy]

theorem reservedBy_filter (p : Receiving → Bool) (rs : List Receiving) :
    reservedBy (rs.filter p) + reservedBy (rs.filter fun r => !p r) = reservedBy rs := by
  induction rs with
  | nil => rfl
  | cons r rs ih =>
      by_cases h : p r
      · simp [h]
        omega
      · simp [h]
        omega

namespace State

variable {s t : State} {o : Opening} {look : Look} {r : Receiving} {pending : Pending}

/-! ### One transfer -/

/-- What starting a transfer can do. -/
theorem start_cases (o : Opening) (pending : Pending) (s : State) :
    s.start o pending = s ∨ ∃ generation mime mimes,
      o.admitted = some generation ∧ s.transfers.length < MAX_TRANSFERS ∧
      s.session.budget + (s.session.limit + 1) ≤ TOTAL_BYTES ∧
      s.start o pending = { s with
        session.budget := s.session.budget + (s.session.limit + 1)
        transfers := s.transfers ++ [{
          pending := { pending with mimes }, mime
          transfer := .new o.source s.session.limit o.now
          generation, reserved := s.session.limit + 1 }] } := by
  simp only [start, Session.reserve]
  split
  · exact .inl rfl
  next hroom =>
    split
    · exact .inl rfl
    next generation hadmitted =>
      split
      · exact .inl rfl
      next mime mimes hnext =>
        split
        · exact .inl rfl
        next session hsession =>
          split at hsession
          next hbudget =>
            split
            · right
              refine ⟨generation, mime, mimes, hadmitted, by omega, hbudget, ?_⟩
              rw [← Option.some.inj hsession]
            · exact .inl rfl
          · cases hsession

theorem Holds.congr (h : s.Holds r) (hnames : t.names = s.names)
    (hlimit : t.session.limit = s.session.limit) (hgate : t.session.gate = s.session.gate) :
    t.Holds r where
  live := hnames ▸ h.live
  within := h.within
  limit := hlimit ▸ h.limit
  paid := hlimit ▸ h.paid
  gave := by simpa only [Session.gave, hgate] using h.gave

/-- A transfer starts where there is room for it, for an offer of a live seat. -/
theorem Sound.start (h : s.Sound) (hseat : pending.seat ∈ s.names)
    (hroom : s.offers.length + s.running.length < MAX_OFFERS)
    (hfree : s.transfers.length < MAX_TRANSFERS → s.running.length < MAX_TRANSFERS)
    (hallowed : o.allowed s.session = true) : (s.start o pending).Sound := by
  rcases start_cases o pending s with hs | ⟨generation, mime, mimes, ho, hlt, htotal, hs⟩
  · rw [hs]
    exact h
  · have hlength := hfree hlt
    have hbudget := h.budget
    rw [hs]
    simp only [running, List.length_append, reservedBy_append, Opening.allowed, ho] at *
    exact {
      seats := h.seats
      offers := by
        simp only [running, List.length_append, List.length_cons, List.length_nil]
        omega
      transfers := by
        simp only [running, List.length_append, List.length_cons, List.length_nil]
        omega
      budget := by
        simp only [running, reservedBy_append, reservedBy_cons, reservedBy_nil]
        simp only [Session.owed, Session.pending] at *
        omega
      total := htotal
      live := h.live
      holds := by
        intro r hr
        simp only [running, List.mem_append, List.mem_singleton] at hr
        rcases hr with (hr | rfl) | hr
        · exact (h.holds r (by simp [running, hr])).congr rfl rfl rfl
        · exact ⟨hseat, Nat.zero_le _, rfl, rfl, hallowed⟩
        · exact (h.holds r (by simp [running, hr])).congr rfl rfl rfl }

/-- The next transfer of a tick is dropped. -/
theorem Sound.drop (h : s.Sound) {rest : List Receiving} (htaken : s.taken = r :: rest) :
    (({ s with taken := rest } : State).release r.reserved).Sound where
  seats := h.seats
  offers := by
    have := h.offers
    simp only [running, release, htaken, List.length_append, List.length_cons] at *
    omega
  transfers := by
    have := h.transfers
    simp only [running, release, htaken, List.length_append, List.length_cons] at *
    omega
  budget := by
    have := h.budget
    simp only [running, release, Session.release, Session.owed, Session.pending, htaken,
      reservedBy_append, reservedBy_cons] at *
    omega
  total := Nat.le_trans (Nat.sub_le ..) h.total
  live := h.live
  holds := by
    intro r' hr'
    refine (h.holds r' ?_).congr rfl rfl rfl
    simp only [running, release, htaken, List.mem_append, List.mem_cons] at *
    tauto

/-- The next transfer of a tick becomes a job. -/
theorem Sound.send (h : s.Sound) {rest : List Receiving} {file : Bytes}
    (htaken : s.taken = r :: rest) :
    ({ s with
      taken := rest
      session.jobs := s.session.jobs ++ [⟨file, r.mime, r.generation, r.reserved⟩] } :
        State).Sound where
  seats := h.seats
  offers := by
    have := h.offers
    simp only [running, htaken, List.length_append, List.length_cons] at *
    omega
  transfers := by
    have := h.transfers
    simp only [running, htaken, List.length_append, List.length_cons] at *
    omega
  budget := by
    have := h.budget
    simp only [running, Session.owed, Session.pending, htaken, reservedBy_append, reservedBy_cons,
      List.map_append, List.sum_append, List.map_cons, List.map_nil, List.sum_cons,
      List.sum_nil] at *
    omega
  total := h.total
  live := h.live
  holds := by
    intro r' hr'
    refine (h.holds r' ?_).congr rfl rfl rfl
    simp only [running, htaken, List.mem_append, List.mem_cons] at *
    tauto

/-- The next transfer of a tick goes on. -/
theorem Sound.keep (h : s.Sound) {rest : List Receiving} {transfer : Transfer}
    (htaken : s.taken = r :: rest) (hlimit : transfer.limit = r.transfer.limit)
    (hwithin : transfer.length ≤ transfer.limit) :
    ({ s with taken := rest, transfers := s.transfers ++ [{ r with transfer }] } :
      State).Sound where
  seats := h.seats
  offers := by
    have := h.offers
    simp only [running, htaken, List.length_append, List.length_cons, List.length_nil] at *
    omega
  transfers := by
    have := h.transfers
    simp only [running, htaken, List.length_append, List.length_cons, List.length_nil] at *
    omega
  budget := by
    have := h.budget
    simp only [running, htaken, reservedBy_append, reservedBy_cons, reservedBy_nil] at *
    omega
  total := h.total
  live := h.live
  holds := by
    intro r' hr'
    simp only [running, List.mem_append, List.mem_singleton] at hr'
    rcases hr' with (hr' | rfl) | hr'
    · exact (h.holds r' (by simp [running, hr'])).congr rfl rfl rfl
    · have hr := h.holds r (by simp [running, htaken])
      exact ⟨hr.live, hwithin, hlimit.trans hr.limit, hr.paid, hr.gave⟩
    · exact (h.holds r' (by simp [running, htaken, hr'])).congr rfl rfl rfl

/-- A transfer of a tick that is over: a blank one may start the next into the list that is
being rebuilt, which the one taken out has left a place in. -/
theorem Sound.finish (h : s.Sound) {rest : List Receiving} {transfer : Transfer}
    (htaken : s.taken = r :: rest) (hallowed : look.opening.allowed s.session = true) :
    (({ s with taken := rest } : State).finish look { r with transfer }).Sound := by
  have hdrop := h.drop htaken
  simp only [State.finish]
  split
  · refine hdrop.start (h.holds r (by simp [running, htaken])).live ?_ ?_ hallowed
    · have := h.offers
      simp only [running, release, htaken, List.length_append, List.length_cons] at *
      omega
    · have := h.transfers
      simp only [running, release, htaken, List.length_append, List.length_cons] at *
      omega
  · split
    · exact h.send htaken
    · exact hdrop
  · exact hdrop

theorem Sound.receive (h : s.Sound) (hallowed : look.opening.allowed s.session = true) :
    (s.receive look).Sound := by
  simp only [State.receive]
  split
  · exact h
  next r rest htaken =>
    split
    · exact h.drop htaken
    · split
      next transfer hreceive =>
        have hr := h.holds r (by simp [running, htaken])
        obtain ⟨hlimit, hwithin⟩ := Transfer.receive_within hreceive hr.within
        exact h.keep htaken hlimit hwithin
      · exact h.finish htaken hallowed
      · exact h.drop htaken

/-! ### Events -/

/-- What the bounds do not look at. -/
theorem Sound.congr (h : s.Sound) (hsession : t.session = s.session) (hseats : t.seats = s.seats)
    (hoffers : t.offers = s.offers) (hrunning : t.running = s.running) : t.Sound where
  seats := hseats ▸ h.seats
  offers := by rw [hoffers, hrunning]; exact h.offers
  transfers := hrunning ▸ h.transfers
  budget := by rw [hsession, hrunning]; exact h.budget
  total := hsession ▸ h.total
  live := by
    rw [hoffers, names, hseats]
    exact h.live
  holds := by
    rw [hrunning]
    exact fun r hr => (h.holds r hr).congr (by simp [names, hseats]) (by rw [hsession])
      (by rw [hsession])

/-- Seats change within their number, and every name stays. -/
theorem Sound.seated (h : s.Sound) (hsession : t.session = s.session)
    (hoffers : t.offers = s.offers) (hrunning : t.running = s.running)
    (hlength : t.seats.length ≤ MAX_SEATS) (hnames : s.names ⊆ t.names) : t.Sound where
  seats := hlength
  offers := by rw [hoffers, hrunning]; exact h.offers
  transfers := hrunning ▸ h.transfers
  budget := by rw [hsession, hrunning]; exact h.budget
  total := hsession ▸ h.total
  live := by
    rw [hoffers]
    exact fun p hp => hnames (h.live p hp)
  holds := by
    rw [hrunning]
    intro r hr
    have hr := h.holds r hr
    exact ⟨hnames hr.live, hr.within, hsession ▸ hr.limit, hsession ▸ hr.paid, hsession ▸ hr.gave⟩

/-- Offers of live seats change within their number. -/
theorem Sound.offered (h : s.Sound) {offers : List (Nat × Pending)}
    (hlength : offers.length + s.running.length ≤ MAX_OFFERS)
    (hlive : ∀ p ∈ offers, p.2.seat ∈ s.names) : ({ s with offers } : State).Sound where
  seats := h.seats
  offers := hlength
  transfers := h.transfers
  budget := h.budget
  total := h.total
  live := hlive
  holds := fun r hr => (h.holds r hr).congr rfl rfl rfl

theorem Sound.unoffered (h : s.Sound) (p : Nat × Pending → Bool) :
    ({ s with offers := s.offers.filter p } : State).Sound := by
  refine h.offered ?_ fun q hq => h.live q (List.mem_filter.mp hq).1
  have := h.offers
  have := List.length_filter_le p s.offers
  omega

/-- Binding a seat again keeps its name. -/
theorem names_insertSeat (seat : Seat) (seats : List Seat) :
    seats.map (·.name) ⊆ (insertSeat seat seats).map (·.name) := by
  intro n hn
  by_cases hname : n = seat.name
  · simp [insertSeat, hname]
  · obtain ⟨other, hother, rfl⟩ := List.mem_map.mp hn
    refine List.mem_map.mpr ⟨other, ?_, rfl⟩
    simp [insertSeat, hother, hname]

theorem length_insertSeat (seat : Seat) (seats : List Seat) :
    (insertSeat seat seats).length ≤ seats.length + 1 := by
  simpa [insertSeat] using List.length_filter_le ..

theorem Sound.addSeat (h : s.Sound) (name : Nat) (hroom : s.seats.length < MAX_SEATS) :
    (s.addSeat name).1.Sound := by
  have hlength (seat : Seat) := Nat.le_trans (length_insertSeat seat s.seats) hroom
  simp only [State.addSeat]
  split
  · exact h.seated rfl rfl rfl (hlength _) (names_insertSeat ..)
  · exact h.seated rfl rfl rfl (hlength _) (names_insertSeat ..)

theorem Sound.addGlobal (h : s.Sound) (name : Nat) (interface : String) (version : Nat) :
    (s.addGlobal name interface version).1.Sound := by
  simp only [State.addGlobal]
  split
  · exact h.congr rfl rfl rfl rfl
  · split
    · exact h.congr rfl rfl rfl rfl
    · split
      next hseat => exact h.addSeat name hseat.2
      · exact h

/-- A seat goes with its offers and its transfers. -/
theorem Sound.removeSeat (h : s.Sound) (hidle : s.taken = []) (name : Nat) :
    (s.removeSeat name).Sound where
  seats := Nat.le_trans (List.length_filter_le ..) h.seats
  offers := by
    have hoffers := h.offers
    have := List.length_filter_le (fun p : Nat × Pending => p.2.seat ≠ name) s.offers
    have := List.length_filter_le (fun r : Receiving => r.pending.seat ≠ name) s.transfers
    simp only [running, State.removeSeat, hidle, List.append_nil] at *
    omega
  transfers := by
    have htransfers := h.transfers
    have := List.length_filter_le (fun r : Receiving => r.pending.seat ≠ name) s.transfers
    simp only [running, State.removeSeat, hidle, List.append_nil] at *
    omega
  budget := by
    have hbudget := h.budget
    have hsplit := reservedBy_filter (fun r => decide (r.pending.seat = name)) s.transfers
    simp only [running, State.removeSeat, Session.release, Session.owed, Session.pending, hidle,
      List.append_nil, ne_eq, decide_not] at *
    omega
  total := Nat.le_trans (Nat.sub_le ..) h.total
  live := by
    intro p hp
    obtain ⟨hp, hseat⟩ := List.mem_filter.mp hp
    obtain ⟨seat, hmem, heq⟩ := List.mem_map.mp (h.live p hp)
    refine List.mem_map.mpr ⟨seat, List.mem_filter.mpr ⟨hmem, ?_⟩, heq⟩
    rw [heq]
    exact hseat
  holds := by
    intro r hr
    simp only [running, State.removeSeat, hidle, List.append_nil] at hr
    obtain ⟨hr, hseat⟩ := List.mem_filter.mp hr
    have hholds := h.holds r (by simp [running, hr])
    obtain ⟨seat, hmem, heq⟩ := List.mem_map.mp hholds.live
    have hlive : r.pending.seat ∈ (s.removeSeat name).names := by
      refine List.mem_map.mpr ⟨seat, List.mem_filter.mpr ⟨hmem, ?_⟩, heq⟩
      rw [heq]
      exact hseat
    exact ⟨hlive, hholds.within, hholds.limit, hholds.paid, hholds.gave⟩

theorem seatOf_mem {device seat : Nat} (h : s.seatOf device = some seat) : seat ∈ s.names := by
  obtain ⟨entry, hentry, rfl⟩ := Option.map_eq_some_iff.mp h
  exact List.mem_map_of_mem (List.mem_of_find?_eq_some hentry)

theorem Sound.offer (h : s.Sound) (hidle : s.taken = []) (id : Nat) {seat : Nat}
    (hseat : seat ∈ s.names) : (s.offer id seat).Sound := by
  simp only [State.offer]
  split
  · exact h
  next hroom =>
    have := List.length_filter_le (fun p : Nat × Pending => p.1 ≠ id) s.offers
    refine h.offered ?_ ?_
    · simp only [running, hidle, List.append_nil, List.length_append, List.length_singleton]
      omega
    · intro p hp
      rcases List.mem_append.mp hp with hp | hp
      · exact h.live p (List.mem_filter.mp hp).1
      · rw [List.mem_singleton.mp hp]
        exact hseat

/-- The offer that is selected leaves the list, so the transfer has its place. -/
theorem Sound.select (h : s.Sound) (hidle : s.taken = []) (id : Nat)
    (hallowed : o.allowed s.session = true) : (s.select id o).Sound := by
  simp only [State.select]
  split
  · exact h
  next id' pending hfind =>
    have hmem := List.mem_of_find?_eq_some hfind
    have hless : (s.offers.filter (·.1 ≠ id)).length < s.offers.length := by
      refine List.length_filter_lt_length_iff_exists.mpr ⟨_, hmem, ?_⟩
      simpa using List.find?_some hfind
    have hrest := h.unoffered fun p => decide (p.1 ≠ id)
    split
    · exact hrest
    · refine hrest.start (h.live _ hmem) ?_ ?_ hallowed
      · have := h.offers
        simp only [running] at *
        omega
      · simp [running, hidle]

theorem names_attached (seats : List Seat) (n : Nat) :
    ((seats.zipIdx n).map fun (p : Seat × Nat) => { p.1 with device := some p.2 }).map (·.name) =
      seats.map (·.name) := by
  induction seats generalizing n with
  | nil => rfl
  | cons seat seats ih =>
      simp only [List.zipIdx_cons, List.map_cons, ih]

theorem Sound.initializeState (h : s.Sound) : s.initializeState.1.Sound := by
  simp only [State.initializeState]
  split
  · exact h.congr rfl rfl rfl rfl
  · refine h.seated rfl rfl rfl ?_ ?_
    · simpa using h.seats
    · simp only [names, names_attached]
      exact List.Subset.refl _

theorem Sound.handle (h : s.Sound) (hidle : s.taken = []) (hallowed : o.allowed s.session = true)
    (event : Event) : (s.handle o event).1.Sound := by
  cases event with
  | global name interface version => exact h.addGlobal name interface version
  | globalRemove name =>
      have hremoved := h.removeSeat hidle name
      simp only [State.handle]
      split
      · split
        · exact hremoved.congr rfl rfl rfl rfl
        · exact hremoved.congr rfl rfl rfl rfl
      · split
        · exact hremoved.congr rfl rfl rfl rfl
        · exact hremoved
  | done barrier =>
      cases barrier with
      | registry => exact h.initializeState
      | ready =>
          simp only [State.handle]
          split
          · exact h.congr rfl rfl rfl rfl
          · exact h.congr rfl rfl rfl rfl
  | dataOffer device id =>
      simp only [State.handle]
      split
      · exact h
      next seat hseat => exact h.offer hidle id (seatOf_mem hseat)
  | offerMime id mime =>
      refine h.offered (by simpa using h.offers) ?_
      intro p hp
      obtain ⟨q, hq, rfl⟩ := List.mem_map.mp hp
      split
      · exact h.live q hq
      · exact h.live q hq
  | selection device id =>
      simp only [State.handle]
      split
      · exact h.select hidle _ hallowed
      · exact h
  | primarySelection device id =>
      simp only [State.handle]
      split
      · exact h.unoffered _
      · exact h
  | finished device =>
      simp only [State.handle]
      split
      · exact h
      next seat hseat => exact (h.removeSeat hidle seat).congr rfl rfl rfl rfl

theorem Sound.connect (h : s.Sound) (hidle : s.taken = []) (skipInitial : Bool) :
    (s.connect skipInitial).Sound where
  seats := Nat.zero_le _
  offers := Nat.zero_le _
  transfers := Nat.zero_le _
  budget := by
    have := h.budget
    simp only [running, State.connect, Session.release, Session.owed, Session.pending, hidle,
      List.append_nil, reservedBy_nil] at *
    omega
  total := Nat.le_trans (Nat.sub_le ..) h.total
  live := by simp [State.connect]
  holds := by simp [running, State.connect]

/-! ### Jobs -/

theorem Sound.work (h : s.Sound) {job : Job} {jobs : List Job}
    (hnone : s.session.executing = none) (hjobs : s.session.jobs = job :: jobs) :
    ({ s with session := { s.session with executing := some job, jobs } } : State).Sound where
  seats := h.seats
  offers := h.offers
  transfers := h.transfers
  budget := by
    have := h.budget
    simpa [running, Session.owed, Session.pending, hnone, hjobs] using this
  total := h.total
  live := h.live
  holds := fun r hr => (h.holds r hr).congr rfl rfl rfl

theorem Sound.worked (h : s.Sound) {job : Job} (hsome : s.session.executing = some job) :
    ({ s with
      session := { s.session.release job.reserved with executing := none } } : State).Sound where
  seats := h.seats
  offers := h.offers
  transfers := h.transfers
  budget := by
    have := h.budget
    simp only [running, Session.release, Session.owed, Session.pending, hsome, Option.toList_some,
      Option.toList_none, List.map_append, List.sum_append, List.map_cons, List.map_nil,
      List.sum_cons, List.sum_nil] at *
    omega
  total := Nat.le_trans (Nat.sub_le ..) h.total
  live := h.live
  holds := fun r hr => (h.holds r hr).congr rfl rfl rfl

theorem Sound.leave (h : s.Sound) :
    ({ s with
      session := { s.session.release (s.session.pending.map (·.reserved)).sum with
        jobs := [], executing := none, connected := false } } : State).Sound where
  seats := h.seats
  offers := h.offers
  transfers := h.transfers
  budget := by
    have := h.budget
    simp only [running, Session.release, Session.owed, Session.pending, Option.toList_none,
      List.append_nil, List.map_nil, List.sum_nil] at *
    omega
  total := Nat.le_trans (Nat.sub_le ..) h.total
  live := h.live
  holds := fun r hr => (h.holds r hr).congr rfl rfl rfl

/-! ### The gate -/

theorem gave_iff (session : Session) (generation : Generation) :
    session.gave generation = true ↔
      ∃ thread, .admitted thread (some generation) ∈ session.gate.log := by
  simp only [Session.gave, List.any_eq_true]
  constructor
  · rintro ⟨e, he, hgave⟩
    split at hgave
    next thread given => exact ⟨thread, of_decide_eq_true hgave ▸ he⟩
    · cases hgave
  · rintro ⟨thread, he⟩
    exact ⟨_, he, decide_eq_true rfl⟩

/-- `admit` ends with a look at the open flag. -/
theorem admitted_step (g : Gate) (a : Gate.Action) {thread : ThreadId} {generation : Generation}
    (h : .admitted thread (some generation) ∈ (g.step a).log) :
    .admitted thread (some generation) ∈ g.log ∨
      a = .step thread ∧ g.admission.isOpen = true ∧
        g.threads thread = .admitOpen generation := by
  cases a with
  | call i op =>
      simp only [Gate.step, Gate.call] at h
      split at h
      · exact .inl (by simpa using h)
      · exact .inl h
  | step i =>
      simp only [Gate.step, Gate.stepThread, List.mem_append] at h
      rcases h with h | h
      · exact .inl h
      · obtain ⟨rfl, hopen, hlocal⟩ :=
          (Admission.advance_access i g.admission (g.threads i)).gives (by simpa using h)
        exact .inr ⟨rfl, hopen, hlocal⟩
  | finish i ok =>
      simp only [Gate.step, Gate.finish] at h
      split at h
      · split at h
        · exact .inl (by simpa using h)
        · exact .inl (by simpa using h)
      · exact .inl h

/-- What the gate gave stays given. -/
theorem gave_gate (session : Session) (a : Gate.Action) (generation : Generation)
    (h : session.gave generation = true) :
    ({ session with gate := session.gate.step a } : Session).gave generation = true := by
  simp only [Session.gave, List.any_eq_true] at h ⊢
  obtain ⟨e, he, hgave⟩ := h
  refine ⟨e, ?_, hgave⟩
  rcases Gate.logs session.gate a with hlog | ⟨e', hlog⟩
  · rw [hlog]
    exact he
  · rw [hlog]
    exact List.mem_append_left _ he

theorem Sound.gate (h : s.Sound) (a : Gate.Action) :
    ({ s with session := { s.session with gate := s.session.gate.step a } } : State).Sound where
  seats := h.seats
  offers := h.offers
  transfers := h.transfers
  budget := h.budget
  total := h.total
  live := h.live
  holds := by
    intro r hr
    have hr := h.holds r hr
    exact ⟨hr.live, hr.within, hr.limit, hr.paid, gave_gate _ _ _ hr.gave⟩

/-! ### Runs -/

theorem Sound.step (h : s.Sound) (move : Move) : (s.step move).Sound := by
  cases move with
  | gate action => exact h.gate action
  | dispatch event opening =>
      simp only [State.step]
      split
      next hok => exact h.handle hok.1 hok.2 event
      · exact h
  | take =>
      simp only [State.step]
      split
      next hidle =>
        refine h.congr rfl rfl rfl ?_
        simp [running, hidle]
      · exact h
  | receive look =>
      simp only [State.step]
      split
      next hallowed => exact h.receive hallowed
      · exact h
  | connect skipInitial =>
      simp only [State.step]
      split
      next hidle => exact h.connect hidle skipInitial
      · exact h
  | work =>
      simp only [State.step]
      split
      next job jobs hnone hjobs => exact h.work hnone hjobs
      · exact h
  | worked =>
      simp only [State.step]
      split
      · exact h
      next job hsome => exact h.worked hsome
  | leave => exact h.leave

theorem sound_initial (limit : Nat) (skipInitial : Bool) : (initial limit skipInitial).Sound where
  seats := Nat.zero_le _
  offers := Nat.zero_le _
  transfers := Nat.zero_le _
  budget := rfl
  total := Nat.zero_le _
  live := by simp [initial]
  holds := by simp [running, initial]

theorem sound_after (limit : Nat) (skipInitial : Bool) (moves : List Move) :
    ((initial limit skipInitial).after moves).Sound :=
  Transition.foldl_invariant (I := Sound) (fun _ move h => h.step move) moves
    (sound_initial limit skipInitial)

/-! ### Generations -/

theorem start_gate (o : Opening) (pending : Pending) (s : State) :
    (s.start o pending).session.gate = s.session.gate := by
  rcases start_cases o pending s with hs | ⟨generation, mime, mimes, -, -, -, hs⟩
  · rw [hs]
  · rw [hs]

theorem finish_gate (look : Look) (r : Receiving) (s : State) :
    (s.finish look r).session.gate = s.session.gate := by
  simp only [State.finish]
  split
  · exact start_gate ..
  · split
    · rfl
    · rfl
  · rfl

theorem receive_gate (look : Look) (s : State) :
    (s.receive look).session.gate = s.session.gate := by
  simp only [State.receive]
  split
  · rfl
  · split
    · rfl
    · split
      · rfl
      · exact finish_gate ..
      · rfl

theorem handle_gate (o : Opening) (s : State) (event : Event) :
    (s.handle o event).1.session.gate = s.session.gate := by
  cases event with
  | global name interface version =>
      simp only [handle, State.addGlobal, State.addSeat]
      split_ifs
      · rfl
      · rfl
      · cases s.manager <;> rfl
      · rfl
  | globalRemove name =>
      simp only [handle]
      split_ifs <;> rfl
  | done barrier =>
      cases barrier
      · simp only [handle, State.initializeState]
        split_ifs <;> rfl
      · simp only [handle]
        split_ifs <;> rfl
  | dataOffer device id =>
      simp only [handle, State.offer]
      split
      · rfl
      · split_ifs <;> rfl
  | offerMime id mime => rfl
  | selection device id =>
      simp only [handle, State.select]
      split
      · split
        · rfl
        · split_ifs
          · rfl
          · exact start_gate ..
      · rfl
  | primarySelection device id =>
      simp only [handle]
      split <;> rfl
  | finished device =>
      simp only [handle]
      split <;> rfl

/-- The gate moves in its own steps only. -/
theorem step_gate (s : State) (move : Move) :
    (s.step move).session.gate = s.session.gate ∨
      ∃ a, move = .gate a ∧ (s.step move).session.gate = s.session.gate.step a := by
  cases move with
  | gate action => exact .inr ⟨action, rfl, rfl⟩
  | dispatch event opening =>
      left
      simp only [State.step]
      split
      · exact handle_gate ..
      · rfl
  | take =>
      left
      simp only [State.step]
      split <;> rfl
  | receive look =>
      left
      simp only [State.step]
      split
      · exact receive_gate ..
      · rfl
  | connect skipInitial =>
      left
      simp only [State.step]
      split <;> rfl
  | work =>
      left
      simp only [State.step]
      split <;> rfl
  | worked =>
      left
      simp only [State.step]
      split <;> rfl
  | leave => exact .inl rfl

/-- The generation was given by `admit` to a thread that had read it and then found the
gate open. -/
def Opened (start : State) (moves : List Move) (generation : Generation) : Prop :=
  ∃ before thread later, moves = before ++ .gate (.step thread) :: later ∧
    (start.after before).session.gate.admission.isOpen = true ∧
    (start.after before).session.gate.threads thread = .admitOpen generation

theorem Opened.append {moves : List Move} {generation : Generation}
    (h : Opened s moves generation) (move : Move) : Opened s (moves ++ [move]) generation := by
  obtain ⟨before, thread, later, rfl, hopen⟩ := h
  exact ⟨before, thread, later ++ [move], by simp, hopen⟩

/-- Only an open gate gives a generation. -/
theorem opened_of_gave (moves : List Move) (hstart : s.session.gate.log = [])
    {generation : Generation} (h : (s.after moves).session.gave generation = true) :
    Opened s moves generation := by
  induction moves using List.reverseRecOn with
  | nil => simp [after, Session.gave, hstart] at h
  | append_singleton moves move ih =>
      have hafter : s.after (moves ++ [move]) = (s.after moves).step move := by
        simp [after]
      rw [hafter] at h
      rcases step_gate (s.after moves) move with hgate | ⟨a, rfl, hgate⟩
      · simp only [Session.gave, hgate] at h
        exact (ih h).append move
      · obtain ⟨thread, h⟩ := (gave_iff _ _).mp h
        rw [hgate] at h
        rcases admitted_step _ a h with hold | ⟨rfl, hopen⟩
        · exact (ih ((gave_iff _ _).mpr ⟨thread, hold⟩)).append _
        · exact ⟨moves, thread, [], rfl, hopen⟩

end State

/-! ## Polling -/

theorem pollSlots_le (n : Nat) (transfers : List Receiving) (count : Nat)
    (h : count + transfers.length ≤ n) :
    transfers.foldlM (fun count _ =>
      if count < n then Except.ok (count + 1)
      else .error "Too many Wayland transfers to poll") count =
        .ok (count + transfers.length) := by
  induction transfers generalizing count with
  | nil => rfl
  | cons r transfers ih =>
      simp only [List.length_cons] at h
      rw [List.foldlM_cons, if_pos (by omega)]
      have := ih (count + 1) (by omega)
      simp only [List.length_cons]
      rw [show count + (transfers.length + 1) = count + 1 + transfers.length by omega]
      exact this

/-- Every state of every run keeps the bounds: no more seats, offers, transfers and bytes
than allowed, the counter of the budget counts what is reserved, offers and transfers belong
to live seats, transfers carry a generation the open gate gave, a read asks for a number of
bytes that is there, and a poll has room for every transfer. -/
theorem collector_bounded (limit : Nat) (skipInitial : Bool) (moves : List Move) :
    let start := State.initial limit skipInitial
    let s := start.after moves
    s.seats.length ≤ 16 ∧ s.offers.length + s.running.length ≤ 64 ∧ s.running.length ≤ 4 ∧
      s.session.budget = reservedBy s.running + s.session.owed ∧
      s.session.budget ≤ 128 * 1024 * 1024 ∧
      (∀ p ∈ s.offers, p.2.seat ∈ s.names) ∧
      (∀ r ∈ s.running, r.pending.seat ∈ s.names ∧ State.Opened start moves r.generation ∧
        r.transfer.length ≤ r.transfer.limit + 1) ∧
      pollSlots (MAX_TRANSFERS + 1) s.running = .ok (s.running.length + 1) := by
  intro start s
  have h : s.Sound := State.sound_after limit skipInitial moves
  refine ⟨h.seats, h.offers, h.transfers, h.budget, h.total, h.live, ?_, ?_⟩
  · intro r hr
    have hr := h.holds r hr
    exact ⟨hr.live, State.opened_of_gave moves rfl hr.gave, Nat.le_succ_of_le hr.within⟩
  · have hlength := h.transfers
    have hslots := pollSlots_le (MAX_TRANSFERS + 1) s.running 1 (by omega)
    rw [Nat.add_comm 1] at hslots
    exact hslots

end ClipDaemon.Capture.Wayland
