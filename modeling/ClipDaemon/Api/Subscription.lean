import ClipDaemon.Api.Watermarks

/-!
# History subscriptions

A poller observes the history and broadcasts what is new to it; a subscriber reads a
baseline of its own when it starts, and then delivers what its receiver takes from the
broadcast (`daemon/subscription.rs`).  The poller suppresses repeats by its own state, and
a subscriber knows nothing of that state.  They agree because both read the one observation
clock: after a failed read no later observation equals an earlier one (`Behind`).

An observation holds the lock of the clock from its read of the token on, so it is one step
here.  A tick of the poller is three: its look at the number of receivers, its observation,
and the broadcast.
-/

namespace ClipDaemon

open Versions Relation

/-! ## Updates -/

/-- The data of an update: an observation, maybe with its reason, or the notice of a lag. -/
inductive HistoryValue
  | observation (data : Observation) (reason : Option String)
  | lagged (skipped : Nat)
deriving DecidableEq

/-- What is broadcast. -/
inductive HistoryUpdate
  | changed (data : HistoryValue)
  | unavailable (error : ApiError)
deriving DecidableEq

/-- What the poller has told last. -/
structure HistoryState where
  previous : Option Observation
  isUnavailable : Bool
deriving DecidableEq

namespace HistoryState

/-- Nothing was observed. -/
def default : HistoryState := ⟨none, false⟩

/-- What is broadcast, if what was observed is new. -/
def update (result : ApiResult Observation) (h : HistoryState) :
    HistoryState × Option HistoryUpdate :=
  match result with
  | .ok observation =>
      if h.isUnavailable ∨ h.previous ≠ some observation then
        (⟨some observation, false⟩, some (.changed (.observation observation none)))
      else ({ h with isUnavailable := false }, none)
  | .error error =>
      if !h.isUnavailable then ({ h with isUnavailable := true }, some (.unavailable error))
      else (h, none)

end HistoryState

/-! ## Observations in one step -/

namespace Service

/-- The token and the clock, under the lock. -/
def observation (epoch : String) (s : Service) : ApiResult Observation × Service :=
  (observeHistory epoch).exec [] s

/-- A look of a query at the token. -/
def look (s : Service) : ApiResult Nat × Service :=
  (do
    let token ← changeToken
    observe token : Api Nat).exec [] s

/-- What a read of the token returns. -/
def tokenRead (s : Service) : ApiResult UInt64 := (changeToken.exec [] s).1

end Service

/-! ## The daemon -/

/-- The updates the channel of the broadcast keeps for a receiver. -/
def HISTORY_EVENTS : Nat := 32

/-- A stream of updates, and what its client knows. -/
structure Subscriber where
  id : Nat
  /-- What the receiver has not taken yet. -/
  queue : List HistoryUpdate
  /-- The baseline was read. -/
  started : Bool
  delivered : List HistoryUpdate

/-- Where the poller is in its tick.  With an observation go the subscribers that had their
baseline when it was made, and the number of changes until then; no step looks at these. -/
inductive PollerPhase
  | idle
  | observing
  | publishing (result : ApiResult Observation) (covered : List Nat) (age : Nat)

/-- The service, its poller and its subscribers. -/
structure Watch where
  service : Service
  history : HistoryState
  poller : PollerPhase
  subscribers : List Subscriber
  nextId : Nat
  /-- The observation of the last tick, if it succeeded, and the subscribers that had their
  baseline before; no step looks at this and the following. -/
  latest : Option (Observation × List Nat)
  /-- How often what a read of the token returns has changed, or the last subscriber left. -/
  age : Nat
  /-- The ages of the observations that were broadcast. -/
  broadcasts : List Nat

namespace Subscriber

/-- The baseline, delivered at once. -/
def receiveInitial (result : ApiResult Observation) (sub : Subscriber) : Subscriber :=
  let initial : HistoryUpdate :=
    match result with
    | .ok observation => .changed (.observation observation (some "initial"))
    | .error error => .unavailable error
  { sub with started := true, delivered := sub.delivered ++ [initial] }

/-- The next update, or the notice that some are lost. -/
def receive (sub : Subscriber) : Subscriber :=
  if HISTORY_EVENTS < sub.queue.length then
    let skipped := sub.queue.length - HISTORY_EVENTS
    { sub with
      queue := sub.queue.drop skipped
      delivered := sub.delivered ++ [.changed (.lagged skipped)] }
  else
    match sub.queue with
    | [] => sub
    | update :: queue => { sub with queue, delivered := sub.delivered ++ [update] }

/-- The update is put into the queue of the receiver. -/
def push (update : HistoryUpdate) (sub : Subscriber) : Subscriber :=
  { sub with queue := sub.queue ++ [update] }

end Subscriber

namespace Watch

/-- The turns of the poller, of the subscribers and of others. -/
inductive Move
  | subscribe
  /-- A subscriber that has no baseline reads it. -/
  | baseline (id : Nat)
  | receive (id : Nat)
  /-- A subscription ends. -/
  | leave (id : Nat)
  /-- The timer ticks, and the poller counts the receivers. -/
  | tick
  | observe
  | publish
  /-- An operation on the store. -/
  | store (op : DatabaseOp)
  /-- Reads of the store fail, or work again, or anything else changes. -/
  | other (elapsed : UInt64) (permits : Nat) (refused : Bool) (faults : List (Option BackendError))
  /-- A look of a query. -/
  | look
  /-- An observation for another caller. -/
  | revision

variable (P : Platform) (epoch : String)

/-- A service that was just started, without subscribers. -/
def start : Watch where
  service := Service.fresh
  history := HistoryState.default
  poller := .idle
  subscribers := []
  nextId := 0
  latest := none
  age := 0
  broadcasts := []

/-- The service moves; a new result of reading the token counts. -/
def serve (service : Service) (w : Watch) : Watch :=
  { w with
    service
    age := if service.tokenRead = w.service.tokenRead then w.age else w.age + 1 }

/-- One subscriber is changed. -/
def change (id : Nat) (f : Subscriber → Subscriber) (w : Watch) : Watch :=
  { w with subscribers := w.subscribers.map fun sub => if sub.id = id then f sub else sub }

/-- A new subscriber, and the poller is woken. -/
def subscribe (w : Watch) : Watch :=
  { w with
    subscribers := w.subscribers ++ [⟨w.nextId, [], false, []⟩]
    nextId := w.nextId + 1 }

/-- A subscriber reads the baseline. -/
def baseline (id : Nat) (w : Watch) : Watch :=
  if w.subscribers.any fun sub => sub.id = id && !sub.started then
    let (result, service) := w.service.observation epoch
    (w.serve service).change id fun sub =>
      if sub.started then sub else sub.receiveInitial result
  else w

/-- A subscriber is gone; without any the poller rests. -/
def leave (id : Nat) (w : Watch) : Watch :=
  let subscribers := w.subscribers.filter (·.id ≠ id)
  { w with
    subscribers
    age := if subscribers = [] ∧ w.subscribers ≠ [] then w.age + 1 else w.age }

/-- The poller is due. -/
def tick (w : Watch) : Watch :=
  match w.poller with
  | .idle =>
      if w.subscribers.length = 0 then { w with history := HistoryState.default }
      else { w with poller := .observing }
  | _ => w

/-- The poller observes the store. -/
def observe (w : Watch) : Watch :=
  match w.poller with
  | .observing =>
      let (result, service) := w.service.observation epoch
      let covered := (w.subscribers.filter (·.started)).map (·.id)
      { w.serve service with poller := .publishing result covered w.age }
  | _ => w

/-- What was observed is sent to all who listen. -/
def publish (w : Watch) : Watch :=
  match w.poller with
  | .publishing result covered age =>
      let (history, update) := w.history.update result
      let latest :=
        match result with
        | .ok observation => some (observation, covered)
        | .error _ => none
      match update with
      | none => { w with history, latest, poller := .idle }
      | some update =>
          { w with
            history, latest, poller := .idle
            subscribers := w.subscribers.map (·.push update)
            broadcasts := if w.subscribers = [] then w.broadcasts else age :: w.broadcasts }
  | _ => w

def step (w : Watch) : Move → Watch
  | .subscribe => w.subscribe
  | .baseline id => w.baseline epoch id
  | .receive id => w.change id fun sub => if sub.started then sub.receive else sub
  | .leave id => w.leave id
  | .tick => w.tick
  | .observe => w.observe epoch
  | .publish => w.publish
  | .store op => w.serve { w.service with store := w.service.store.step P op }
  | .other elapsed permits refused faults =>
      w.serve { w.service with elapsed, permits, refused, faults }
  | .look => w.serve w.service.look.2
  | .revision => w.serve (w.service.observation epoch).2

def after (moves : List Move) (w : Watch) : Watch := moves.foldl (step P epoch) w

end Watch

/-! ## One observation -/

namespace Service

variable {P : Platform} {s t : Service} {epoch : String}

theorem exec_changeToken (s : Service) : changeToken.exec [] s = (s.tokenRead, s) := by
  have hstate : (changeToken.exec [] s).2 = s := by
    rw [changeToken, Prog.exec_bind, call, Prog.exec_query]
    split
    next hread => exact (Prod.mk.inj hread).2.symm
    next hread => exact (Prod.mk.inj hread).2.symm
  exact Prod.ext rfl hstate

/-- A read of the token that succeeds returns it. -/
theorem tokenRead_ok (hs : s.Sane P) {token : UInt64} (h : s.tokenRead = .ok token) :
    token = s.token := by
  have hensures : changeToken.Ensures (Move P) s fun r u => ∀ token, r = .ok token →
      ∃ t, ReflTransGen (Move P) s t ∧ ReflTransGen (Move P) t u ∧ token = t.token :=
    ensures_changeToken hs
      (fun t u ht hu token htoken => ⟨t, ht, hu, (Except.ok.inj htoken).symm⟩)
      fun _ _ _ htoken => by cases htoken
  have hexec : changeToken.exec [] s = (.ok token, s) := by
    rw [exec_changeToken, h]
  have hrun := Prog.Interleaved.of_eval (R := Move P) (Prog.exec_ok hexec)
  obtain ⟨t, ht, hu, rfl⟩ := hensures _ _ hrun token rfl
  exact (hs.still ht hu rfl).1.symm

/-- What an observation does. -/
inductive Observes (epoch : String) (s : Service) : ApiResult Observation → Service → Prop
  | ok (revision : Nat) (clock : Clock) : s.tokenRead = .ok s.token →
      s.clock.observe s.token = .ok (revision, clock) →
      Observes epoch s (.ok ⟨s.token, epoch, revision⟩) { s with clock }
  | outage (e : ApiError) : s.tokenRead = .error e →
      Observes epoch s (.error e) { s with clock := s.clock.invalidate }
  | exhausted (e : ApiError) : s.tokenRead = .ok s.token → s.clock.observe s.token = .error e →
      Observes epoch s (.error e) s

theorem exec_observe (s : Service) (token : UInt64) :
    (observe token).exec [] s =
      match s.clock.observe token with
      | .ok (revision, clock) => (.ok revision, { s with clock })
      | .error e => (.error e, s) := by
  simp only [observe, Prog.action, Prog.exec, List.head?_nil, Option.join_none]
  cases s.clock.observe token <;> rfl

theorem observes (hs : s.Sane P) (epoch : String) :
    Observes epoch s (s.observation epoch).1 (s.observation epoch).2 := by
  rw [observation, observeHistory, Prog.exec_bind, Prog.exec_attempt, exec_changeToken]
  cases hread : s.tokenRead with
  | error e => exact .outage e hread
  | ok token =>
      obtain rfl := tokenRead_ok hs hread
      simp only [Prog.exec_bind, exec_observe]
      cases hclock : s.clock.observe s.token with
      | error e => exact .exhausted e hread hclock
      | ok p => exact .ok p.1 p.2 hread hclock

/-- A look of a query moves the clock as an observation that succeeds does, or not at all. -/
theorem look_cases (hs : s.Sane P) :
    s.look.2 = s ∨ ∃ revision clock, s.tokenRead = .ok s.token ∧
      s.clock.observe s.token = .ok (revision, clock) ∧ s.look.2 = { s with clock } := by
  rw [look, Prog.exec_bind, exec_changeToken]
  cases hread : s.tokenRead with
  | error e => exact .inl rfl
  | ok token =>
      obtain rfl := tokenRead_ok hs hread
      simp only [exec_observe]
      cases hclock : s.clock.observe s.token with
      | error e => exact .inl rfl
      | ok p => exact .inr ⟨p.1, p.2, trivial, rfl, rfl⟩

theorem tokenRead_clock (s : Service) (clock : Clock) :
    ({ s with clock } : Service).tokenRead = s.tokenRead := by
  simp only [tokenRead, changeToken, Prog.exec_bind, call, Prog.exec_query]
  generalize (if s.refused || !s.store.isOpen then _ else _ : ApiResult Nat) = read
  cases read <;> rfl

/-- A step of the service: a move of its surroundings, or what an observation or a look of a
query does to the clock. -/
inductive Steps (P : Platform) (epoch : String) (s : Service) : Service → Prop
  | refl : Steps P epoch s s
  | held {t : Service} : Held P s t → Steps P epoch s t
  | observes {result : ApiResult Observation} {t : Service} : Observes epoch s result t →
      Steps P epoch s t

theorem Observes.ticks {result : ApiResult Observation} (h : Observes epoch s result t) :
    s.Ticks t := by
  cases h with
  | ok revision clock hread hclock => exact ⟨(Clock.observe_ok hclock).1, rfl⟩
  | outage e hread => exact ⟨.outage, rfl⟩
  | exhausted e hread hclock => exact Ticks.refl s

theorem Steps.moves (h : Steps P epoch s t) : ReflTransGen (Move P) s t := by
  cases h with
  | refl => exact .refl
  | held h => exact .single h.move
  | observes h => exact .single (Readers.ticks_move h.ticks)

theorem steps_look (hs : s.Sane P) : Steps P epoch s s.look.2 := by
  rcases look_cases hs with h | ⟨revision, clock, hread, hclock, h⟩
  · rw [h]
    exact .refl
  · rw [h]
    exact .observes (.ok revision clock hread hclock)

end Service

/-! ## Old observations -/

/-- The observation was made, and no later one has its revision with another token. -/
structure Observed (P : Platform) (epoch : String) (s : Service) (o : Observation) : Prop where
  epoch : o.history.epoch = epoch
  origin : ∃ x : Service, x.Reached P ∧ ReflTransGen (Move P) x s ∧ x.token = o.historyRevision
  below : o.history.revision ≤ s.clock.revision
  current : o.history.revision = s.clock.revision →
    s.clock.token = none ∨ s.clock.token = some o.historyRevision

/-- No later observation equals this one. -/
def Behind (s : Service) (o : Observation) : Prop :=
  s.clock.token ≠ some o.historyRevision ∨ s.clock.revision ≠ o.history.revision ∨
    s.token ≠ o.historyRevision

section Observed

variable {P : Platform} {s t : Service} {epoch : String} {o : Observation}
  {result : ApiResult Observation}

theorem Observed.steps (h : Observed P epoch s o) (hst : s.Steps P epoch t) :
    Observed P epoch t o := by
  obtain ⟨x, hx, hxs, htoken⟩ := h.origin
  have horigin : ∃ x : Service, x.Reached P ∧ ReflTransGen (Move P) x t ∧
      x.token = o.historyRevision := ⟨x, hx, hxs.trans hst.moves, htoken⟩
  have hbelow := h.below
  cases hst with
  | refl => exact h
  | held hheld => exact ⟨h.epoch, horigin, hheld.clock ▸ h.below, hheld.clock ▸ h.current⟩
  | observes hobserves =>
      have hclock := hobserves.ticks.1
      generalize hc : t.clock = c at hclock
      cases hclock with
      | stay => exact ⟨h.epoch, horigin, hc ▸ h.below, hc ▸ h.current⟩
      | outage =>
          refine ⟨h.epoch, horigin, hc ▸ h.below, fun _ => .inl ?_⟩
          rw [hc]
          rfl
      | token token hne hroom =>
          refine ⟨h.epoch, horigin, ?_, fun hsame => ?_⟩
          · rw [hc]
            exact Nat.le_succ_of_le hbelow
          · rw [hc] at hsame
            simp only at hsame
            omega

theorem Behind.steps (h : Behind s o) (ho : Observed P epoch s o) (hst : s.Steps P epoch t) :
    Behind t o := by
  obtain ⟨x, hx, hxs, htoken⟩ := ho.origin
  have hbelow := ho.below
  have hmoves := hst.moves
  rcases h with h | h | h
  · cases hst with
    | refl => exact .inl h
    | held hheld =>
        left
        rw [hheld.clock]
        exact h
    | observes hobserves =>
        have hclock := hobserves.ticks.1
        generalize hc : t.clock = c at hclock
        cases hclock with
        | stay =>
            left
            rw [hc]
            exact h
        | outage =>
            left
            rw [hc]
            simp [Clock.invalidate]
        | token token hne hroom =>
            right
            left
            rw [hc]
            simp only
            omega
  · cases hst with
    | refl => exact .inr (.inl h)
    | held hheld =>
        right
        left
        rw [hheld.clock]
        exact h
    | observes hobserves =>
        right
        left
        have hclock := hobserves.ticks.1
        generalize hc : t.clock = c at hclock
        cases hclock with
        | stay => exact h
        | outage => exact h
        | token token hne hroom =>
            simp only
            omega
  · -- the store has left the token, and does not come back to it
    right
    right
    intro hback
    have hstill := hx.sane.still hxs hmoves (htoken.trans hback.symm)
    exact h (hstill.1.symm.trans htoken)

/-- A new observation is not one that the clock or the store has left. -/
theorem observes_ne (hobserves : s.Observes epoch (.ok o) t) {o' : Observation}
    (ho : Observed P epoch s o') (h : Behind s o') : o ≠ o' := by
  rintro rfl
  have hbelow := ho.below
  cases hobserves with
  | ok revision clock hread hclock =>
      have hnew := Clock.observe_ok hclock
      simp only at hbelow
      rcases h with h | h | h
      · rw [Clock.observe, if_neg h] at hclock
        split at hclock
        · cases hclock
        · have := (Prod.mk.inj (Except.ok.inj hclock)).1
          omega
      · simp only at h
        rw [Clock.observe] at hclock
        split at hclock
        · have := (Prod.mk.inj (Except.ok.inj hclock)).1
          omega
        · split at hclock
          · cases hclock
          · have := (Prod.mk.inj (Except.ok.inj hclock)).1
            omega
      · exact h rfl

/-- An observation is made of the state of its read. -/
theorem observes_observed (hs : s.Reached P) (hobserves : s.Observes epoch (.ok o) t) :
    Observed P epoch t o := by
  have hmove := Readers.ticks_move (P := P) hobserves.ticks
  cases hobserves with
  | ok revision clock hread hclock =>
      obtain ⟨-, rfl⟩ := Clock.observe_ok hclock
      exact ⟨rfl, ⟨s, hs, .single hmove, rfl⟩, Nat.le_refl _, fun _ => .inr rfl⟩

/-- Whatever another caller observes, it is this observation, or this one is left behind. -/
theorem observes_behind (ho : Observed P epoch s o) (hobserves : s.Observes epoch result t) :
    result = .ok o ∨ Behind t o := by
  cases hobserves with
  | ok revision clock hread hclock =>
      obtain ⟨-, rfl⟩ := Clock.observe_ok hclock
      by_cases htoken : s.token = o.historyRevision
      · by_cases hrevision : revision = o.history.revision
        · left
          obtain ⟨token, epoch', revision'⟩ := o
          have hepoch : epoch' = epoch := ho.epoch
          simp only at htoken hrevision
          rw [htoken, hrevision, hepoch]
        · exact .inr (.inr (.inl hrevision))
      · refine .inr (.inl ?_)
        simpa using htoken
  | outage e hread => exact .inr (.inl (by simp [Clock.invalidate]))
  | exhausted e hread hclock =>
      right
      by_cases htoken : s.clock.token = some o.historyRevision
      · refine .inr (.inr fun hsame => ?_)
        exact (Clock.observe_error hclock).1 (hsame ▸ htoken)
      · exact .inl htoken

end Observed

/-! ## Repeated reads -/

/-- The next observation has this result, or fails as this one has. -/
def Fresh (s : Service) : ApiResult Observation → Prop
  | .ok o => s.tokenRead = .ok o.historyRevision ∧
      s.clock = ⟨some o.historyRevision, o.history.revision⟩
  | .error _ => (∃ e, s.tokenRead = .error e) ∨
      ∃ token, s.tokenRead = .ok token ∧ s.clock.token ≠ some token ∧
        MAX_OBSERVATION ≤ s.clock.revision

section Fresh

variable {P : Platform} {s t : Service} {epoch : String} {result result' : ApiResult Observation}

theorem observes_fresh (h : s.Observes epoch result t) : Fresh t result := by
  cases h with
  | ok revision clock hread hclock =>
      exact ⟨(s.tokenRead_clock clock).trans hread, (Clock.observe_ok hclock).2⟩
  | outage e hread => exact .inl ⟨e, (s.tokenRead_clock _).trans hread⟩
  | exhausted e hread hclock =>
      obtain ⟨hne, hend⟩ := Clock.observe_error hclock
      exact .inr ⟨s.token, hread, hne, hend⟩

/-- While reads of the token return the same, the next observation does. -/
theorem Fresh.steps (h : Fresh s result) (hread : t.tokenRead = s.tokenRead)
    (hst : s.Steps P epoch t) : Fresh t result := by
  cases hst with
  | refl => exact h
  | held hheld =>
      cases result with
      | ok o => exact ⟨hread.trans h.1, hheld.clock.trans h.2⟩
      | error e =>
          unfold Fresh at h ⊢
          rw [hread, hheld.clock]
          exact h
  | observes hobserves =>
      cases hobserves with
      | ok revision clock htoken hclock =>
          cases result with
          | ok o =>
              obtain ⟨hread', hclock'⟩ := h
              have hsame : s.token = o.historyRevision := Except.ok.inj (htoken.symm.trans hread')
              rw [Clock.observe, if_pos (by rw [hclock', hsame])] at hclock
              obtain ⟨-, rfl⟩ := Prod.mk.inj (Except.ok.inj hclock)
              exact ⟨hread', hclock'⟩
          | error e =>
              exfalso
              rcases h with ⟨e', herror⟩ | ⟨token, hread', hne, hend⟩
              · rw [htoken] at herror
                cases herror
              · obtain rfl : s.token = token := Except.ok.inj (htoken.symm.trans hread')
                rw [Clock.observe, if_neg hne, if_pos hend] at hclock
                cases hclock
      | outage e herror =>
          cases result with
          | ok o =>
              rw [h.1] at herror
              cases herror
          | error e' => exact .inl ⟨e, (s.tokenRead_clock _).trans herror⟩
      | exhausted e htoken hclock => exact h

/-- The next observation repeats a success. -/
theorem Fresh.repeats {o : Observation} (h : Fresh s (.ok o)) (hepoch : o.history.epoch = epoch)
    (hobserves : s.Observes epoch result t) : result = .ok o := by
  obtain ⟨hread, hclock⟩ := h
  cases hobserves with
  | ok revision clock htoken hobserve =>
      have hsame : s.token = o.historyRevision := Except.ok.inj (htoken.symm.trans hread)
      rw [Clock.observe, if_pos (by rw [hclock, hsame])] at hobserve
      obtain ⟨hrevision, -⟩ := Prod.mk.inj (Except.ok.inj hobserve)
      rw [hclock] at hrevision
      obtain ⟨token, epoch', revision'⟩ := o
      simp only at hrevision hepoch hsame
      rw [hsame, hepoch, hrevision]
  | outage e herror =>
      rw [hread] at herror
      cases herror
  | exhausted e htoken hobserve =>
      have hsame : s.token = o.historyRevision := Except.ok.inj (htoken.symm.trans hread)
      exact absurd (by rw [hclock, hsame]) (Clock.observe_error hobserve).1

/-- The next observation repeats a failure. -/
theorem Fresh.fails {e : ApiError} (h : Fresh s (.error e))
    (hobserves : s.Observes epoch result t) : ∃ e', result = .error e' := by
  cases hobserves with
  | ok revision clock htoken hobserve =>
      exfalso
      rcases h with ⟨e', herror⟩ | ⟨token, hread, hne, hend⟩
      · rw [htoken] at herror
        cases herror
      · obtain rfl : s.token = token := Except.ok.inj (htoken.symm.trans hread)
        rw [Clock.observe, if_neg hne, if_pos hend] at hobserve
        cases hobserve
  | outage e' herror => exact ⟨e', rfl⟩
  | exhausted e' htoken hobserve => exact ⟨e', rfl⟩

end Fresh

/-! ## What a subscriber shows -/

/-- The update tells the observation. -/
def HistoryUpdate.Carries (o : Observation) (update : HistoryUpdate) : Prop :=
  ∃ reason, update = .changed (.observation o reason)

namespace Subscriber

variable {s t : Service} {o : Observation} {sub : Subscriber}

/-- Once the queue is drained, the observation is what was delivered last. -/
def Shows (o : Observation) (sub : Subscriber) : Prop :=
  sub.started = true ∧ ∃ update, (sub.delivered ++ sub.queue).getLast? = some update ∧
    update.Carries o

/-- The subscriber and a poller that has told the observation last. -/
structure Agrees (s : Service) (o : Observation) (sub : Subscriber) : Prop where
  queued : sub.queue ≠ [] → ∃ update, sub.queue.getLast? = some update ∧ update.Carries o
  told : sub.started = true → sub.Shows o ∨ Behind s o

theorem getLast?_append_of_ne_nil {α : Type} (l : List α) {l' : List α} (h : l' ≠ []) :
    (l ++ l').getLast? = l'.getLast? := by
  rw [List.getLast?_append, List.getLast?_eq_some_getLast h, Option.some_or]

/-- Taking from the queue keeps what is last. -/
theorem receive_last (sub : Subscriber) :
    (sub.receive.delivered ++ sub.receive.queue).getLast? =
      (sub.delivered ++ sub.queue).getLast? := by
  unfold receive
  split
  next hlag =>
    have hkept : sub.queue.drop (sub.queue.length - HISTORY_EVENTS) ≠ [] := by
      have hevents : HISTORY_EVENTS = 32 := rfl
      simp only [ne_eq, List.drop_eq_nil_iff]
      omega
    have hqueue : sub.queue ≠ [] := by
      rintro hnil
      simp [hnil] at hlag
    rw [getLast?_append_of_ne_nil _ hkept, getLast?_append_of_ne_nil _ hqueue, List.getLast?_drop,
      if_neg]
    have hevents : HISTORY_EVENTS = 32 := rfl
    omega
  · split
    next hnil => rw [hnil]
    next update queue hqueue => simp [hqueue]

theorem Shows.receive (h : sub.Shows o) : sub.receive.Shows o := by
  refine ⟨?_, ?_⟩
  · have hstarted := h.1
    unfold Subscriber.receive
    split
    · exact hstarted
    · split
      · exact hstarted
      · exact hstarted
  · rw [receive_last]
    exact h.2

theorem Agrees.receive (h : sub.Agrees s o) (hstarted : sub.started = true) :
    sub.receive.Agrees s o := by
  constructor
  · intro hqueue
    unfold Subscriber.receive at hqueue ⊢
    split
    next hlag =>
      have hne : sub.queue ≠ [] := by
        rintro hnil
        simp [hnil] at hlag
      obtain ⟨update, hlast, hcarries⟩ := h.queued hne
      refine ⟨update, ?_, hcarries⟩
      have hevents : HISTORY_EVENTS = 32 := rfl
      simp only
      rw [List.getLast?_drop, if_neg (by omega)]
      exact hlast
    next hlag =>
      rw [if_neg hlag] at hqueue
      split
      next hnil => simp [hnil] at hqueue
      next update queue hcons =>
        simp only [hcons] at hqueue
        obtain ⟨last, hlast, hcarries⟩ := h.queued (by simp [hcons])
        refine ⟨last, ?_, hcarries⟩
        rw [hcons, ← List.singleton_append, getLast?_append_of_ne_nil _ hqueue] at hlast
        exact hlast
  · exact fun _ => (h.told hstarted).imp_left Shows.receive

/-- The baseline is the observation, or the observation is left behind. -/
theorem Agrees.initial (h : sub.Agrees s o) {result : ApiResult Observation}
    (hresult : result = .ok o ∨ Behind t o) : (sub.receiveInitial result).Agrees t o := by
  constructor
  · exact h.queued
  · intro _
    by_cases hqueue : sub.queue = []
    · refine hresult.imp_left ?_
      rintro rfl
      exact ⟨rfl, _, by simp [receiveInitial, hqueue], some "initial", rfl⟩
    · left
      obtain ⟨update, hlast, hcarries⟩ := h.queued hqueue
      exact ⟨rfl, update, (getLast?_append_of_ne_nil _ hqueue).trans hlast, hcarries⟩

theorem Agrees.steps {P : Platform} {epoch : String} (h : sub.Agrees s o)
    (ho : Observed P epoch s o) (hst : s.Steps P epoch t) : sub.Agrees t o where
  queued := h.queued
  told := fun hstarted => (h.told hstarted).imp_right fun hbehind => hbehind.steps ho hst

theorem agrees_push (s : Service) (o : Observation) (sub : Subscriber) :
    (sub.push (.changed (.observation o none))).Agrees s o where
  queued := fun _ => ⟨_, List.getLast?_concat, none, rfl⟩
  told := fun hstarted => .inl ⟨hstarted, _, by simp [push], none, rfl⟩

end Subscriber

/-! ## What is kept -/

namespace Watch

variable {P : Platform} {epoch : String} {w : Watch} {t : Service}

/-- The poller has told the state it would observe. -/
def Quiet (w : Watch) : Prop :=
  (w.history.isUnavailable = false ∧ ∃ o, w.history.previous = some o ∧ Fresh w.service (.ok o)) ∨
    (w.history.isUnavailable = true ∧ ∃ e, Fresh w.service (.error e))

/-- A tick between its observation and its broadcast. -/
structure Pending (P : Platform) (epoch : String) (w : Watch) (result : ApiResult Observation)
    (covered : List Nat) (age : Nat) : Prop where
  observed : ∀ o, result = .ok o → Observed P epoch w.service o
  old : ∀ id ∈ covered, id < w.nextId
  started : ∀ sub ∈ w.subscribers, sub.id ∈ covered → sub.started = true
  shows : ∀ o, result = .ok o → w.history.isUnavailable = false → w.history.previous = some o →
    ∀ sub ∈ w.subscribers, sub.id ∈ covered → sub.Shows o
  after : ∀ b ∈ w.broadcasts, b ≤ age
  past : age ≤ w.age
  new : (w.history.update result).2.isSome = true → age ∉ w.broadcasts
  fresh : age = w.age → Fresh w.service result

/-- What holds in every state that can be reached. -/
structure Sound (P : Platform) (epoch : String) (w : Watch) : Prop where
  reached : w.service.Reached P
  unique : (w.subscribers.map (·.id)).Nodup
  ids : ∀ sub ∈ w.subscribers, sub.id < w.nextId
  previous : ∀ o, w.history.previous = some o → Observed P epoch w.service o
  agrees : w.history.isUnavailable = false → ∀ o, w.history.previous = some o →
    ∀ sub ∈ w.subscribers, sub.Agrees w.service o
  pending : ∀ result covered age, w.poller = .publishing result covered age →
    w.Pending P epoch result covered age
  latest : ∀ o covered, w.latest = some (o, covered) → (∀ id ∈ covered, id < w.nextId) ∧
    ∀ sub ∈ w.subscribers, sub.id ∈ covered → sub.Shows o
  nodup : w.broadcasts.Nodup
  ages : ∀ b ∈ w.broadcasts, b ≤ w.age
  quiet : w.age ∈ w.broadcasts → w.subscribers ≠ [] ∧ w.Quiet

theorem sound_start (P : Platform) (epoch : String) : start.Sound P epoch where
  reached := .refl
  unique := List.nodup_nil
  ids := by simp [start]
  previous := by simp [start, HistoryState.default]
  agrees := by simp [start]
  pending := by simp [start]
  latest := by simp [start]
  nodup := List.nodup_nil
  ages := by simp [start]
  quiet := by simp [start]

/-! ### Steps of the service -/

theorem serve_age_le (w : Watch) (t : Service) : w.age ≤ (w.serve t).age := by
  simp only [serve]
  split <;> omega

/-- An age that was there is the age still, and reads of the token return the same. -/
theorem serve_age_eq {age : Nat} (hle : age ≤ w.age) (h : age = (w.serve t).age) :
    age = w.age ∧ t.tokenRead = w.service.tokenRead := by
  simp only [serve] at h
  split at h
  next hread => exact ⟨h, hread⟩
  · omega

theorem Sound.serve (h : w.Sound P epoch) (hst : w.service.Steps P epoch t) :
    (w.serve t).Sound P epoch where
  reached := h.reached.trans hst.moves
  unique := h.unique
  ids := h.ids
  previous := fun o ho => (h.previous o ho).steps hst
  agrees := fun hup o ho sub hsub => (h.agrees hup o ho sub hsub).steps (h.previous o ho) hst
  pending := by
    intro result covered age hpoller
    have hp := h.pending result covered age hpoller
    refine ⟨fun o ho => (hp.observed o ho).steps hst, hp.old, hp.started, hp.shows, hp.after,
      hp.past.trans (serve_age_le w t), hp.new, fun hage => ?_⟩
    obtain ⟨hage, hread⟩ := serve_age_eq hp.past hage
    exact (hp.fresh hage).steps hread hst
  latest := h.latest
  nodup := h.nodup
  ages := fun b hb => (h.ages b hb).trans (serve_age_le w t)
  quiet := by
    intro hmem
    obtain ⟨hage, hread⟩ := serve_age_eq (h.ages _ hmem) rfl
    obtain ⟨hne, hquiet⟩ := h.quiet (hage ▸ hmem)
    refine ⟨hne, ?_⟩
    rcases hquiet with ⟨hup, o, ho, hfresh⟩ | ⟨hdown, e, hfresh⟩
    · exact .inl ⟨hup, o, ho, hfresh.steps hread hst⟩
    · exact .inr ⟨hdown, e, hfresh.steps hread hst⟩

/-! ### Subscribers -/

/-- A subscriber changes, and keeps what it shows. -/
theorem Sound.change (h : w.Sound P epoch) (id : Nat) {f : Subscriber → Subscriber}
    (hid : ∀ sub, (f sub).id = sub.id)
    (hstarted : ∀ sub, sub.started = true → (f sub).started = true)
    (hshows : ∀ o sub, sub.Shows o → (f sub).Shows o)
    (hagrees : w.history.isUnavailable = false → ∀ o, w.history.previous = some o →
      ∀ sub ∈ w.subscribers, sub.Agrees w.service o → (f sub).Agrees w.service o) :
    (w.change id f).Sound P epoch := by
  have hmem : ∀ sub' ∈ (w.change id f).subscribers, ∃ sub ∈ w.subscribers,
      sub' = f sub ∨ sub' = sub := by
    intro sub' hsub'
    obtain ⟨sub, hsub, rfl⟩ := List.mem_map.mp hsub'
    refine ⟨sub, hsub, ?_⟩
    split
    · exact .inl rfl
    · exact .inr rfl
  have hids : (w.change id f).subscribers.map (·.id) = w.subscribers.map (·.id) := by
    simp only [Watch.change, List.map_map]
    refine List.map_congr_left fun sub _ => ?_
    simp only [Function.comp_apply]
    split
    · exact hid sub
    · rfl
  have hsub_id : ∀ sub sub' : Subscriber, sub' = f sub ∨ sub' = sub → sub'.id = sub.id := by
    rintro sub sub' (rfl | rfl)
    · exact hid sub
    · rfl
  have hkeep : ∀ (o : Observation) (covered : List Nat),
      (∀ sub ∈ w.subscribers, sub.id ∈ covered → sub.Shows o) →
      ∀ sub' ∈ (w.change id f).subscribers, sub'.id ∈ covered → sub'.Shows o := by
    intro o covered hold sub' hsub' hcovered
    obtain ⟨sub, hsub, heq⟩ := hmem sub' hsub'
    have hshow := hold sub hsub (hsub_id sub sub' heq ▸ hcovered)
    rcases heq with rfl | rfl
    · exact hshows o sub hshow
    · exact hshow
  constructor
  · exact h.reached
  · rw [hids]
    exact h.unique
  · intro sub' hsub'
    obtain ⟨sub, hsub, heq⟩ := hmem sub' hsub'
    rw [hsub_id sub sub' heq]
    exact h.ids sub hsub
  · exact h.previous
  · intro hup o ho sub' hsub'
    obtain ⟨sub, hsub, heq⟩ := hmem sub' hsub'
    have hagree := h.agrees hup o ho sub hsub
    rcases heq with rfl | rfl
    · exact hagrees hup o ho sub hsub hagree
    · exact hagree
  · intro result covered age hpoller
    have hp := h.pending result covered age hpoller
    refine ⟨hp.observed, hp.old, ?_,
      fun o ho hup hprev => hkeep o covered (hp.shows o ho hup hprev),
      hp.after, hp.past, hp.new, hp.fresh⟩
    intro sub' hsub' hcovered
    obtain ⟨sub, hsub, heq⟩ := hmem sub' hsub'
    have hstart := hp.started sub hsub (hsub_id sub sub' heq ▸ hcovered)
    rcases heq with rfl | rfl
    · exact hstarted sub hstart
    · exact hstart
  · intro o covered hlatest
    obtain ⟨hold, hshow⟩ := h.latest o covered hlatest
    exact ⟨hold, hkeep o covered hshow⟩
  · exact h.nodup
  · exact h.ages
  · intro hmem'
    obtain ⟨hne, hquiet⟩ := h.quiet hmem'
    exact ⟨by simpa [Watch.change] using hne, hquiet⟩

theorem Sound.receive (h : w.Sound P epoch) (id : Nat) :
    (w.change id fun sub => if sub.started then sub.receive else sub).Sound P epoch := by
  have hfields : ∀ sub : Subscriber, sub.receive.id = sub.id ∧
      sub.receive.started = sub.started := by
    intro sub
    unfold Subscriber.receive
    split
    · exact ⟨rfl, rfl⟩
    · split <;> exact ⟨rfl, rfl⟩
  refine h.change id ?_ ?_ ?_ ?_
  · intro sub
    split
    · exact (hfields sub).1
    · rfl
  · intro sub hstarted
    rw [if_pos hstarted]
    exact (hfields sub).2.trans hstarted
  · intro o sub hshow
    rw [if_pos hshow.1]
    exact hshow.receive
  · intro _ o _ sub _ hagree
    split
    next hstarted => exact hagree.receive hstarted
    · exact hagree

theorem Sound.baseline (h : w.Sound P epoch) (id : Nat) : (w.baseline epoch id).Sound P epoch := by
  simp only [Watch.baseline]
  split
  · have hobserves := Service.observes h.reached.sane epoch
    have hserve := h.serve (.observes hobserves)
    refine hserve.change id ?_ ?_ ?_ ?_
    · intro sub
      split <;> rfl
    · intro sub hstarted
      rw [if_pos hstarted]
      exact hstarted
    · intro o sub hshow
      rw [if_pos hshow.1]
      exact hshow
    · intro _ o ho sub _ hagree
      split
      · exact hagree
      · exact hagree.initial (observes_behind (h.previous o ho) hobserves)
  · exact h

theorem Sound.subscribe (h : w.Sound P epoch) : w.subscribe.Sound P epoch := by
  have hfresh : ∀ (covered : List Nat) (Q : Subscriber → Prop), (∀ id ∈ covered, id < w.nextId) →
      (∀ sub ∈ w.subscribers, sub.id ∈ covered → Q sub) →
        ∀ sub ∈ w.subscribe.subscribers, sub.id ∈ covered → Q sub := by
    intro covered Q hold hQ sub hsub hcovered
    rcases List.mem_append.mp hsub with hsub | hsub
    · exact hQ sub hsub hcovered
    · rw [List.mem_singleton.mp hsub] at hcovered
      exact absurd (hold _ hcovered) (Nat.lt_irrefl _)
  constructor
  · exact h.reached
  · simp only [Watch.subscribe, List.map_append, List.map_cons, List.map_nil]
    refine List.nodup_append.mpr ⟨h.unique, List.nodup_singleton _, ?_⟩
    intro a ha b hb
    obtain ⟨sub, hsub, rfl⟩ := List.mem_map.mp ha
    rw [List.mem_singleton.mp hb]
    exact Nat.ne_of_lt (h.ids sub hsub)
  · intro sub hsub
    rcases List.mem_append.mp hsub with hsub | hsub
    · exact Nat.lt_succ_of_lt (h.ids sub hsub)
    · rw [List.mem_singleton.mp hsub]
      exact Nat.lt_succ_self _
  · exact h.previous
  · intro hup o ho sub hsub
    rcases List.mem_append.mp hsub with hsub | hsub
    · exact h.agrees hup o ho sub hsub
    · rw [List.mem_singleton.mp hsub]
      exact ⟨fun hne => absurd rfl hne, fun hstarted => by cases hstarted⟩
  · intro result covered age hpoller
    have hp := h.pending result covered age hpoller
    exact ⟨hp.observed, fun id hid => Nat.lt_succ_of_lt (hp.old id hid),
      hfresh covered (·.started = true) hp.old hp.started,
      fun o ho hup hprev => hfresh covered (·.Shows o) hp.old (hp.shows o ho hup hprev), hp.after,
      hp.past, hp.new, hp.fresh⟩
  · intro o covered hlatest
    obtain ⟨hold, hshow⟩ := h.latest o covered hlatest
    exact ⟨fun id hid => Nat.lt_succ_of_lt (hold id hid), hfresh covered (·.Shows o) hold hshow⟩
  · exact h.nodup
  · exact h.ages
  · intro hmem
    exact ⟨by simp [Watch.subscribe], (h.quiet hmem).2⟩

theorem Sound.leave (h : w.Sound P epoch) (id : Nat) : (w.leave id).Sound P epoch := by
  have hsub : ∀ sub ∈ (w.leave id).subscribers, sub ∈ w.subscribers :=
    fun sub hsub => (List.mem_filter.mp hsub).1
  have hle : w.age ≤ (w.leave id).age := by
    simp only [Watch.leave]
    split <;> omega
  have hage : ∀ age ≤ w.age, age = (w.leave id).age →
      age = w.age ∧ ¬((w.leave id).subscribers = [] ∧ w.subscribers ≠ []) := by
    intro age hpast hage
    by_cases hlast : (w.leave id).subscribers = [] ∧ w.subscribers ≠ []
    · have : (w.leave id).age = w.age + 1 := if_pos hlast
      omega
    · have : (w.leave id).age = w.age := if_neg hlast
      exact ⟨hage.trans this, hlast⟩
  constructor
  · exact h.reached
  · exact h.unique.sublist (List.filter_sublist.map _)
  · exact fun sub hmem => h.ids sub (hsub sub hmem)
  · exact h.previous
  · exact fun hup o ho sub hmem => h.agrees hup o ho sub (hsub sub hmem)
  · intro result covered age hpoller
    have hp := h.pending result covered age hpoller
    exact ⟨hp.observed, hp.old, fun sub hmem => hp.started sub (hsub sub hmem),
      fun o ho hup hprev sub hmem => hp.shows o ho hup hprev sub (hsub sub hmem), hp.after,
      hp.past.trans hle, hp.new, fun hsame => hp.fresh (hage age hp.past hsame).1⟩
  · intro o covered hlatest
    obtain ⟨hold, hshow⟩ := h.latest o covered hlatest
    exact ⟨hold, fun sub hmem => hshow sub (hsub sub hmem)⟩
  · exact h.nodup
  · exact fun b hb => (h.ages b hb).trans hle
  · intro hmem
    obtain ⟨hsame, hlast⟩ := hage _ (h.ages _ hmem) rfl
    obtain ⟨hne, hquiet⟩ := h.quiet (hsame ▸ hmem)
    exact ⟨fun hnil => hlast ⟨hnil, hne⟩, hquiet⟩

/-! ### Ticks -/

theorem Sound.tick (h : w.Sound P epoch) : w.tick.Sound P epoch := by
  simp only [Watch.tick]
  split
  next hidle =>
    split
    next hnone =>
      have hnil : w.subscribers = [] := List.length_eq_zero_iff.mp hnone
      exact {
        reached := h.reached
        unique := h.unique
        ids := h.ids
        previous := by simp [HistoryState.default]
        agrees := by simp [HistoryState.default]
        pending := by simp [hidle]
        latest := h.latest
        nodup := h.nodup
        ages := h.ages
        quiet := fun hmem => absurd hnil (h.quiet hmem).1 }
    · exact {
        reached := h.reached
        unique := h.unique
        ids := h.ids
        previous := h.previous
        agrees := h.agrees
        pending := by simp
        latest := h.latest
        nodup := h.nodup
        ages := h.ages
        quiet := h.quiet }
  · exact h

/-- A poller that is quiet broadcasts nothing. -/
theorem Quiet.update (hquiet : w.Quiet) (h : w.Sound P epoch) {result : ApiResult Observation}
    (hobserves : w.service.Observes epoch result t) : (w.history.update result).2 = none := by
  rcases hquiet with ⟨hup, o, ho, hfresh⟩ | ⟨hdown, e, hfresh⟩
  · rw [hfresh.repeats (h.previous o ho).epoch hobserves]
    simp [HistoryState.update, hup, ho]
  · obtain ⟨e', rfl⟩ := hfresh.fails hobserves
    simp [HistoryState.update, hdown]

theorem Sound.observe (h : w.Sound P epoch) : (w.observe epoch).Sound P epoch := by
  simp only [Watch.observe]
  split
  next hobserving =>
    have hobserves := Service.observes h.reached.sane epoch
    generalize (w.service.observation epoch).1 = result at hobserves
    generalize (w.service.observation epoch).2 = t at hobserves
    have hserve := h.serve (.observes hobserves)
    have hcovered : ∀ sub ∈ w.subscribers,
        sub.id ∈ (w.subscribers.filter (·.started)).map (·.id) → sub.started = true := by
      intro sub hsub hmem
      obtain ⟨sub', hsub', hid⟩ := List.mem_map.mp hmem
      obtain ⟨hsub', hstarted⟩ := List.mem_filter.mp hsub'
      exact List.inj_on_of_nodup_map h.unique hsub' hsub hid ▸ hstarted
    refine ⟨hserve.reached, hserve.unique, hserve.ids, hserve.previous, hserve.agrees, ?_,
      hserve.latest, hserve.nodup, hserve.ages, hserve.quiet⟩
    intro result' covered age hpoller
    simp only [PollerPhase.publishing.injEq] at hpoller
    obtain ⟨rfl, rfl, rfl⟩ := hpoller
    constructor
    · rintro o rfl
      exact observes_observed h.reached hobserves
    · intro id hid
      obtain ⟨sub, hsub, rfl⟩ := List.mem_map.mp hid
      exact h.ids sub (List.mem_filter.mp hsub).1
    · exact hcovered
    · rintro o rfl hup hprev sub hsub hmem
      -- the observation repeats the one that was told, so nobody is behind it
      rcases (h.agrees hup o hprev sub hsub).told (hcovered sub hsub hmem) with hshow | hbehind
      · exact hshow
      · exact absurd rfl (observes_ne hobserves (h.previous o hprev) hbehind)
    · exact h.ages
    · exact serve_age_le w t
    · intro hsome hmem
      have hnone := (h.quiet hmem).2.update h hobserves
      have hsome : (w.history.update result).2.isSome = true := hsome
      rw [hnone] at hsome
      cases hsome
    · exact fun _ => observes_fresh hobserves
  · exact h

/-- What an update does to the state of the poller. -/
theorem update_cases (result : ApiResult Observation) (history : HistoryState) :
    (∃ o, result = .ok o ∧ (history.update result) =
        (⟨some o, false⟩, some (.changed (.observation o none)))) ∨
      (∃ o, result = .ok o ∧ history.isUnavailable = false ∧ history.previous = some o ∧
        history.update result = (history, none)) ∨
      (∃ e, result = .error e ∧ history.update result =
        ({ history with isUnavailable := true }, some (.unavailable e))) ∨
      (∃ e, result = .error e ∧ history.isUnavailable = true ∧
        history.update result = (history, none)) := by
  cases result with
  | ok o =>
      by_cases hnew : history.isUnavailable = true ∨ history.previous ≠ some o
      · exact .inl ⟨o, rfl, if_pos hnew⟩
      · obtain ⟨hup, hprev⟩ := not_or.mp hnew
        have hup : history.isUnavailable = false := by simpa using hup
        refine .inr (.inl ⟨o, rfl, hup, not_not.mp hprev, ?_⟩)
        refine (if_neg hnew).trans ?_
        rw [← hup]
  | error e =>
      cases hdown : history.isUnavailable with
      | false => exact .inr (.inr (.inl ⟨e, rfl, by simp [HistoryState.update, hdown]⟩))
      | true => exact .inr (.inr (.inr ⟨e, rfl, rfl, by simp [HistoryState.update, hdown]⟩))

/-- The poller has nothing new to tell. -/
theorem Sound.suppress (h : w.Sound P epoch) {latest : Option (Observation × List Nat)}
    (hlatest : ∀ o covered, latest = some (o, covered) → (∀ id ∈ covered, id < w.nextId) ∧
      ∀ sub ∈ w.subscribers, sub.id ∈ covered → sub.Shows o) :
    ({ w with latest, poller := .idle } : Watch).Sound P epoch where
  reached := h.reached
  unique := h.unique
  ids := h.ids
  previous := h.previous
  agrees := h.agrees
  pending := by simp
  latest := hlatest
  nodup := h.nodup
  ages := h.ages
  quiet := h.quiet

/-- The poller broadcasts what it has observed. -/
theorem Sound.broadcast (h : w.Sound P epoch) {result : ApiResult Observation}
    {covered : List Nat} {age : Nat} (hp : w.Pending P epoch result covered age)
    {history : HistoryState} {update : HistoryUpdate} {latest : Option (Observation × List Nat)}
    (hupdate : w.history.update result = (history, some update))
    (hprevious : ∀ o, history.previous = some o → Observed P epoch w.service o)
    (htold : history.isUnavailable = false → ∀ o, history.previous = some o →
      update = .changed (.observation o none))
    (hquiet : Fresh w.service result →
      ({ w with history } : Watch).Quiet)
    (hlatest : ∀ o covered', latest = some (o, covered') →
      covered' = covered ∧ update = .changed (.observation o none)) :
    ({ w with
      history, latest, poller := .idle
      subscribers := w.subscribers.map (·.push update)
      broadcasts := if w.subscribers = [] then w.broadcasts else age :: w.broadcasts } :
        Watch).Sound P epoch := by
  have hnew : age ∉ w.broadcasts := hp.new (by rw [hupdate]; rfl)
  have hmem : ∀ sub' ∈ w.subscribers.map (·.push update), ∃ sub ∈ w.subscribers,
      sub' = sub.push update := by
    intro sub' hsub'
    obtain ⟨sub, hsub, rfl⟩ := List.mem_map.mp hsub'
    exact ⟨sub, hsub, rfl⟩
  constructor
  · exact h.reached
  · simpa [Function.comp_def, Subscriber.push] using h.unique
  · intro sub' hsub'
    obtain ⟨sub, hsub, rfl⟩ := hmem sub' hsub'
    exact h.ids sub hsub
  · exact hprevious
  · intro hup o ho sub' hsub'
    obtain ⟨sub, hsub, rfl⟩ := hmem sub' hsub'
    rw [htold hup o ho]
    exact Subscriber.agrees_push w.service o sub
  · simp
  · intro o covered' heq
    obtain ⟨rfl, htell⟩ := hlatest o covered' heq
    refine ⟨hp.old, fun sub' hsub' hcovered => ?_⟩
    obtain ⟨sub, hsub, rfl⟩ := hmem sub' hsub'
    have hstarted := hp.started sub hsub hcovered
    refine ⟨hstarted, update, by simp [Subscriber.push], none, htell⟩
  · simp only
    split
    · exact h.nodup
    · exact List.nodup_cons.mpr ⟨hnew, h.nodup⟩
  · simp only
    split
    · exact h.ages
    · intro b hb
      rcases List.mem_cons.mp hb with rfl | hb
      · exact hp.past
      · exact h.ages b hb
  · simp only
    split
    next hnil =>
      intro hage
      exact absurd hnil (h.quiet hage).1
    next hne =>
      intro hage
      -- an observation of this age was broadcast: it is this one
      have hsame : age = w.age := by
        rcases List.mem_cons.mp hage with hage | hage
        · exact hage.symm
        · exact Nat.le_antisymm hp.past (hp.after _ hage)
      exact ⟨by simpa using hne, hquiet (hp.fresh hsame)⟩

theorem Sound.publish (h : w.Sound P epoch) : w.publish.Sound P epoch := by
  simp only [Watch.publish]
  split
  next result covered age hpoller =>
    have hp := h.pending result covered age hpoller
    rcases update_cases result w.history with ⟨o, rfl, hupdate⟩ | ⟨o, rfl, hup, hprev, hupdate⟩ |
      ⟨e, rfl, hupdate⟩ | ⟨e, rfl, hdown, hupdate⟩
    · simp only [hupdate]
      refine h.broadcast hp hupdate ?_ ?_ (fun hfresh => .inl ⟨rfl, o, rfl, hfresh⟩) ?_
      · rintro o' ho'
        obtain rfl : o = o' := Option.some.inj ho'
        exact hp.observed o rfl
      · rintro - o' ho'
        obtain rfl : o = o' := Option.some.inj ho'
        rfl
      · rintro o' covered' heq
        simp only [Option.some.injEq, Prod.mk.injEq] at heq
        obtain ⟨rfl, rfl⟩ := heq
        exact ⟨rfl, rfl⟩
    · simp only [hupdate]
      refine h.suppress fun o' covered' heq => ?_
      simp only [Option.some.injEq, Prod.mk.injEq] at heq
      obtain ⟨rfl, rfl⟩ := heq
      exact ⟨hp.old, hp.shows o rfl hup hprev⟩
    · simp only [hupdate]
      refine h.broadcast hp hupdate h.previous (fun hup => by cases hup)
        (fun hfresh => .inr ⟨rfl, e, hfresh⟩) fun o' covered' heq => by cases heq
    · simp only [hupdate]
      exact h.suppress fun o' covered' heq => by cases heq
  · exact h

theorem Sound.step (h : w.Sound P epoch) (move : Move) : (w.step P epoch move).Sound P epoch := by
  cases move with
  | subscribe => exact h.subscribe
  | baseline id => exact h.baseline id
  | receive id => exact h.receive id
  | leave id => exact h.leave id
  | tick => exact h.tick
  | observe => exact h.observe
  | publish => exact h.publish
  | store op => exact h.serve (.held (.store w.service op))
  | other elapsed permits refused faults =>
      exact h.serve (.held (.other w.service elapsed permits refused faults))
  | look => exact h.serve (Service.steps_look h.reached.sane)
  | revision => exact h.serve (.observes (Service.observes h.reached.sane epoch))

theorem sound_after (P : Platform) (epoch : String) (moves : List Move) :
    (start.after P epoch moves).Sound P epoch :=
  Transition.foldl_invariant (I := Sound P epoch) (fun _ move h => h.step move) moves
    (sound_start P epoch)

end Watch

/-- After a tick whose observation succeeded, and until the next tick is over, every
subscriber that had its baseline before the observation has that observation as its last
update, once its queue is drained.  And between two changes of what a read of the token
returns the poller broadcasts at most once; it begins anew when the last subscriber has
left. -/
theorem subscribers_converge (P : Platform) (epoch : String) (moves : List Watch.Move) :
    let w := Watch.start.after P epoch moves
    (∀ o covered, w.latest = some (o, covered) → ∀ sub ∈ w.subscribers, sub.id ∈ covered →
      sub.queue = [] → ∃ reason,
        sub.delivered.getLast? = some (.changed (.observation o reason))) ∧
      w.broadcasts.Nodup := by
  intro w
  have h : w.Sound P epoch := Watch.sound_after P epoch moves
  refine ⟨fun o covered hlatest sub hsub hcovered hdrained => ?_, h.nodup⟩
  obtain ⟨-, update, hlast, reason, rfl⟩ := (h.latest o covered hlatest).2 sub hsub hcovered
  rw [hdrained, List.append_nil] at hlast
  exact ⟨reason, hlast⟩

/-- An outage and the recovery from it are each told once. -/
example :
    let w := Watch.start.after Platform.plain "epoch"
      [.subscribe, .baseline 0, .tick, .observe, .publish, .tick, .observe, .publish,
        .other 0 0 true [], .tick, .observe, .publish, .tick, .observe, .publish,
        .other 0 0 false [], .tick, .observe, .publish]
    w.broadcasts = [2, 1, 0] ∧ w.subscribers.map (·.queue.length) = [3] := by
  decide +kernel

end ClipDaemon
