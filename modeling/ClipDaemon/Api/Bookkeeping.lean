import ClipDaemon.Api.Receipts
import ClipDaemon.History.Outcome
import Mathlib.Data.List.Nodup

/-!
# The book and the backend

What every statement of the API keeps: a record says of its operation what the backend has
said, its owner sees revisions that only grow, and a record that was entered is in the book
until it is evicted or the backend has dropped the operation as well.

The invariant has one lemma for every change: a step of the backend, the refresh of a
record, its registration, a read, and the bookkeeping of old records and reservations.
-/

namespace ClipDaemon.Jobs

open ThreadLog

/-! ## What an owner sees -/

/-- A lifecycle event or a response about an operation. -/
structure Seen where
  event : Bool
  owner : Owner
  revision : Nat
  operation : OperationResult
deriving DecidableEq

/-- It is terminal. -/
def Seen.ended (seen : Seen) : Prop := seen.operation.status ≠ "started"

instance (seen : Seen) : Decidable seen.ended := inferInstanceAs (Decidable (_ ≠ _))

/-- What an entry of the log shows of an operation. -/
def shows (id : Uuid) (entry : Nat × JobEffect) : Option Seen :=
  match entry.2 with
  | .emitted owner revision operation =>
      if operation.id = id then some ⟨true, owner, revision, operation⟩ else none
  | .read owner revision operation =>
      if operation.id = id then some ⟨false, owner, revision, operation⟩ else none
  | _ => none

/-- All that was seen of an operation, oldest first. -/
def seen (id : Uuid) (log : List (Nat × JobEffect)) : List Seen := log.filterMap (shows id)

@[simp] theorem seen_append (id : Uuid) (log log' : List (Nat × JobEffect)) :
    seen id (log ++ log') = seen id log ++ seen id log' := List.filterMap_append

/-- What is seen later is as new, says the same when it is the same revision, and does not
start what has ended. -/
structure Follows (a b : Seen) : Prop where
  owner : b.owner = a.owner
  revision : a.revision ≤ b.revision
  same : a.revision = b.revision → a.operation = b.operation
  ended : a.ended → b.ended

/-- What was seen of one operation so far. -/
structure SeenValid (history : List Seen) : Prop where
  follows : history.Pairwise Follows
  once : history.countP (fun entry => entry.event && decide entry.ended) ≤ 1

theorem SeenValid.nil : SeenValid [] := ⟨.nil, Nat.zero_le _⟩

/-- A new entry that follows all others, and that ends the operation only once. -/
theorem SeenValid.concat {history : List Seen} {entry : Seen} (h : SeenValid history)
    (hfollows : ∀ old ∈ history, Follows old entry)
    (honce : entry.event = true → entry.ended → ∀ old ∈ history, ¬old.ended) :
    SeenValid (history ++ [entry]) where
  follows := by
    refine List.pairwise_append.mpr
      ⟨h.follows, List.pairwise_singleton _ _, fun old hold last hlast => ?_⟩
    rw [List.mem_singleton.mp hlast]
    exact hfollows old hold
  once := by
    rw [List.countP_append]
    cases hevent : entry.event && decide entry.ended with
    | false =>
        have hnone : List.countP (fun entry : Seen => entry.event && decide entry.ended)
            [entry] = 0 := by
          rw [List.countP_singleton, hevent]
          rfl
        rw [hnone]
        exact h.once
    | true =>
        rw [Bool.and_eq_true, decide_eq_true_eq] at hevent
        have hnone : List.countP
            (fun entry : Seen => entry.event && decide entry.ended) history = 0 := by
          refine List.countP_eq_zero.mpr fun old hold hended => ?_
          rw [Bool.and_eq_true, decide_eq_true_eq] at hended
          exact honce hevent.1 hevent.2 old hold hended.2
        rw [hnone, List.countP_singleton]
        split <;> simp

/-! ## Records -/

/-- The operation was entered into the book. -/
def Entered (id : Uuid) (log : List (Nat × JobEffect)) : Prop :=
  ∃ owner, (id, JobEffect.registered owner) ∈ log

/-- What may be said of an operation. -/
inductive Honest (id : Uuid) (backend : Operations) (operation : OperationResult) : Prop
  | started (h : operation.status = "started")
  | ended (time : Nat) (h : (time, operation) ∈ (trace id backend.log).ended)
  | unknown (h : operation.status = "unknown") (habsent : Operations.Absent id backend)

/-- What a record says, and what its owner has seen of it. -/
structure Tracks (s : Jobs) (entry : Record) : Prop where
  id : entry.operation.id = entry.id
  known : entry.id ∈ s.backend.ids
  entered : (entry.id, .registered entry.owner) ∈ s.log
  honest : Honest entry.id s.backend entry.operation
  /-- The record of an ended operation is not older than its end. -/
  updated : entry.operation.status ≠ "started" →
    Operations.Absent entry.id s.backend ∨
      ∃ time ≤ entry.updated, (time, entry.operation) ∈ (trace entry.id s.backend.log).ended
  seen : ∀ old ∈ seen entry.id s.log, old.owner = entry.owner ∧ old.revision ≤ entry.revision ∧
    (old.revision = entry.revision → old.operation = entry.operation) ∧
    (old.ended → entry.operation.status ≠ "started")

/-- The invariant of the book. -/
structure Valid (s : Jobs) : Prop where
  backend : s.backend.Valid
  keys : (s.book.records.map (·.id)).Nodup
  tracks : ∀ entry ∈ s.book.records, Tracks s entry
  /-- A record is in the book until it is evicted, or of no use. -/
  stays : ∀ id owner, (id, .registered owner) ∈ s.log →
    (∃ entry ∈ s.book.records, entry.id = id ∧ entry.owner = owner) ∨
      (∃ j, (j, .evicted id) ∈ s.log) ∨ Operations.Absent id s.backend
  seen : ∀ id, SeenValid (Jobs.seen id s.log)
  honest : ∀ id, ∀ old ∈ Jobs.seen id s.log, Honest id s.backend old.operation
  unseen : ∀ id, ¬Entered id s.log → Jobs.seen id s.log = []

/-- What an owner sees of a record agrees with the record. -/
theorem Tracks.follows {s : Jobs} {entry : Record} (h : Tracks s entry) (event : Bool) :
    ∀ old ∈ Jobs.seen entry.id s.log,
      Follows old ⟨event, entry.owner, entry.revision, entry.operation⟩ := by
  intro old hold
  obtain ⟨howner, hrevision, hsame, hended⟩ := h.seen old hold
  exact ⟨howner.symm, hrevision, hsame, hended⟩

theorem valid_initial (now : Nat) : (initial now).Valid where
  backend := Operations.valid_initial now
  keys := List.nodup_nil
  tracks entry h := by cases h
  stays id owner h := by cases h
  seen id := .nil
  honest id old h := by cases h
  unseen id h := rfl

/-! ## The backend moves -/

section Backend

variable {s : Jobs} {b : Operations}

theorem Honest.moves {id : Uuid} {b b' : Operations} {operation : OperationResult}
    (h : Honest id b operation) (hvalid : b.Valid) (hmoves : Operations.Moves b b') :
    Honest id b' operation := by
  cases h with
  | started h => exact .started h
  | ended time h =>
      refine .ended time ?_
      rw [hvalid.ended_stable hmoves (List.ne_nil_of_mem h)]
      exact h
  | unknown h habsent => exact .unknown h (hvalid.absent_stable hmoves habsent)

theorem Tracks.moves {entry : Record} (h : Tracks s entry) (hvalid : s.backend.Valid)
    (hmoves : Operations.Moves s.backend b) : Tracks { s with backend := b } entry where
  id := h.id
  known :=
    ((hvalid.moves hmoves).listed _).mpr (hmoves.grows.registered _ ((hvalid.listed _).mp h.known))
  entered := h.entered
  honest := h.honest.moves hvalid hmoves
  updated hended := by
    rcases h.updated hended with habsent | ⟨time, htime, hmem⟩
    · exact .inl (hvalid.absent_stable hmoves habsent)
    · refine .inr ⟨time, htime, ?_⟩
      rw [hvalid.ended_stable hmoves (List.ne_nil_of_mem hmem)]
      exact hmem
  seen := h.seen

theorem Valid.moves (h : s.Valid) (hmoves : Operations.Moves s.backend b) :
    ({ s with backend := b } : Jobs).Valid where
  backend := h.backend.moves hmoves
  keys := h.keys
  tracks entry hentry := (h.tracks entry hentry).moves h.backend hmoves
  stays id owner hid :=
    (h.stays id owner hid).imp_right (.imp_right (h.backend.absent_stable hmoves))
  seen := h.seen
  honest id old hold := (h.honest id old hold).moves h.backend hmoves
  unseen := h.unseen

end Backend

/-! ## Effects -/

section Effects

variable {s t : Jobs} {i : Nat} {effect : JobEffect}

theorem seen_of_none {id : Uuid} {log : List (Nat × JobEffect)} (h : shows id (i, effect) = none) :
    seen id (log ++ [(i, effect)]) = seen id log := by
  have hnone : seen id [(i, effect)] = [] := List.filterMap_cons_none h
  rw [seen_append, hnone, List.append_nil]

theorem seen_of_some {id : Uuid} {log : List (Nat × JobEffect)} {new : Seen}
    (h : shows id (i, effect) = some new) :
    seen id (log ++ [(i, effect)]) = seen id log ++ [new] := by
  have hnew : seen id [(i, effect)] = [new] := List.filterMap_cons_some h
  rw [seen_append, hnew]

/-- A record of an operation of which nothing new is shown. -/
theorem Tracks.append {entry : Record} (h : Tracks s entry) (hbackend : t.backend = s.backend)
    (hlog : t.log = s.log ++ [(i, effect)]) (hshows : shows entry.id (i, effect) = none) :
    Tracks t entry where
  id := h.id
  known := by rw [hbackend]; exact h.known
  entered := by rw [hlog]; exact List.mem_append_left _ h.entered
  honest := by rw [hbackend]; exact h.honest
  updated := by rw [hbackend]; exact h.updated
  seen := by rw [hlog, seen_of_none hshows]; exact h.seen

/-- The record of the operation that is shown. -/
theorem Tracks.show {entry : Record} {new : Seen} (h : Tracks s entry)
    (hbackend : t.backend = s.backend) (hlog : t.log = s.log ++ [(i, effect)])
    (hshows : shows entry.id (i, effect) = some new) (howner : new.owner = entry.owner)
    (hrevision : new.revision = entry.revision) (hoperation : new.operation = entry.operation) :
    Tracks t entry where
  id := h.id
  known := by rw [hbackend]; exact h.known
  entered := by rw [hlog]; exact List.mem_append_left _ h.entered
  honest := by rw [hbackend]; exact h.honest
  updated := by rw [hbackend]; exact h.updated
  seen old hold := by
    rw [hlog, seen_of_some hshows] at hold
    rcases List.mem_append.mp hold with hold | hold
    · exact h.seen old hold
    · rw [List.mem_singleton.mp hold]
      refine ⟨howner, hrevision.le, fun _ => hoperation, fun hended => ?_⟩
      rw [Seen.ended, hoperation] at hended
      exact hended

/-- An effect that shows nothing leaves the book as it is. -/
theorem Valid.silent (h : s.Valid) (hsilent : ∀ id, shows id (i, effect) = none)
    (hregistered : ∀ owner, effect ≠ .registered owner) : (record i effect s).Valid where
  backend := h.backend
  keys := h.keys
  tracks entry hentry := (h.tracks entry hentry).append rfl rfl (hsilent entry.id)
  stays id owner hid := by
    have hold : (id, JobEffect.registered owner) ∈ s.log := by
      rcases List.mem_append.mp hid with hid | hid
      · exact hid
      · cases List.mem_singleton.mp hid
        exact absurd rfl (hregistered owner)
    refine (h.stays id owner hold).imp_right (.imp_left ?_)
    rintro ⟨j, hj⟩
    exact ⟨j, List.mem_append_left _ hj⟩
  seen id := by
    change SeenValid (Jobs.seen id (s.log ++ [(i, effect)]))
    rw [seen_of_none (hsilent id)]
    exact h.seen id
  honest id := by
    change ∀ old ∈ Jobs.seen id (s.log ++ [(i, effect)]), _
    rw [seen_of_none (hsilent id)]
    exact h.honest id
  unseen id hid := by
    change Jobs.seen id (s.log ++ [(i, effect)]) = []
    rw [seen_of_none (hsilent id)]
    refine h.unseen id fun hentered => hid ?_
    obtain ⟨owner, howner⟩ := hentered
    exact ⟨owner, List.mem_append_left _ howner⟩

end Effects

/-! ## Records are read and refreshed -/

/-- An entry of the log about an operation whose record says the same. -/
theorem Valid.shown {s t : Jobs} {i : Nat} {effect : JobEffect} (entry : Record) (new : Seen)
    (h : s.Valid) (hbackend : t.backend = s.backend) (hbook : t.book = s.book)
    (hlog : t.log = s.log ++ [(i, effect)]) (hentry : entry ∈ s.book.records)
    (hshows : ∀ id, shows id (i, effect) = if entry.id = id then some new else none)
    (howner : new.owner = entry.owner) (hrevision : new.revision = entry.revision)
    (hoperation : new.operation = entry.operation)
    (honce : new.event = true → new.ended → ∀ old ∈ Jobs.seen entry.id s.log, ¬old.ended) :
    t.Valid := by
  have htracks := h.tracks entry hentry
  have hregistered : ∀ id owner, (id, JobEffect.registered owner) ∈ t.log →
      (id, JobEffect.registered owner) ∈ s.log := by
    intro id owner hid
    rw [hlog] at hid
    rcases List.mem_append.mp hid with hid | hid
    · exact hid
    · cases List.mem_singleton.mp hid
      have hnone := hshows entry.id
      rw [if_pos rfl] at hnone
      cases hnone
  have hseen : ∀ id, Jobs.seen id t.log =
      Jobs.seen id s.log ++ if entry.id = id then [new] else [] := by
    intro id
    rw [hlog]
    rcases eq_or_ne entry.id id with rfl | hne
    · rw [if_pos rfl]
      exact seen_of_some (by rw [hshows, if_pos rfl])
    · rw [if_neg hne, List.append_nil]
      exact seen_of_none (by rw [hshows, if_neg hne])
  constructor
  · rw [hbackend]
    exact h.backend
  · rw [hbook]
    exact h.keys
  · intro other hother
    rw [hbook] at hother
    rcases eq_or_ne entry.id other.id with heq | hne
    · have hsame : other = entry := List.inj_on_of_nodup_map h.keys hother hentry heq.symm
      rw [hsame]
      exact htracks.show hbackend hlog (by rw [hshows, if_pos rfl]) howner hrevision hoperation
    · exact (h.tracks other hother).append hbackend hlog (by rw [hshows, if_neg hne])
  · intro id owner hid
    rw [hbook, hbackend]
    refine (h.stays id owner (hregistered id owner hid)).imp_right (.imp_left ?_)
    rintro ⟨j, hj⟩
    exact ⟨j, by rw [hlog]; exact List.mem_append_left _ hj⟩
  · intro id
    rw [hseen]
    rcases eq_or_ne entry.id id with rfl | hne
    · rw [if_pos rfl]
      refine (h.seen entry.id).concat (fun old hold => ?_) honce
      obtain ⟨hold₁, hold₂, hold₃, hold₄⟩ := htracks.follows new.event old hold
      exact ⟨howner.trans hold₁, hold₂.trans hrevision.ge,
        fun hsame => (hold₃ (hsame.trans hrevision)).trans hoperation.symm, fun hended => by
          rw [Seen.ended, hoperation]
          exact hold₄ hended⟩
    · rw [if_neg hne, List.append_nil]
      exact h.seen id
  · intro id old hold
    rw [hbackend]
    rw [hseen] at hold
    rcases List.mem_append.mp hold with hold | hold
    · exact h.honest id old hold
    · rcases eq_or_ne entry.id id with rfl | hne
      · rw [if_pos rfl] at hold
        rw [List.mem_singleton.mp hold, hoperation]
        exact htracks.honest
      · rw [if_neg hne] at hold
        cases hold
  · intro id hid
    have hne : entry.id ≠ id := by
      rintro rfl
      exact hid ⟨entry.owner, by rw [hlog]; exact List.mem_append_left _ htracks.entered⟩
    rw [hseen, if_neg hne, List.append_nil]
    refine h.unseen id fun ⟨owner, howner⟩ => hid ⟨owner, ?_⟩
    rw [hlog]
    exact List.mem_append_left _ howner

/-- A newer version of an active record. -/
theorem Valid.updated {s : Jobs} {entry : Record} {operation : OperationResult} (h : s.Valid)
    (hentry : entry ∈ s.book.records) (hactive : entry.active = true)
    (hid : operation.id = entry.id) (hhonest : Honest entry.id s.backend operation)
    (hupdated : operation.status ≠ "started" → Operations.Absent entry.id s.backend ∨
      ∃ time ≤ s.now, (time, operation) ∈ (trace entry.id s.backend.log).ended) :
    ({ s with book := s.book.update (entry.next operation s.now) } : Jobs).Valid := by
  have htracks := h.tracks entry hentry
  have hmem : ∀ other ∈ (s.book.update (entry.next operation s.now)).records,
      other = entry.next operation s.now ∨ other ∈ s.book.records := by
    intro other hother
    obtain ⟨old, hold, rfl⟩ := List.mem_map.mp hother
    split
    · exact .inl rfl
    · exact .inr hold
  constructor
  · exact h.backend
  · have hids : (s.book.update (entry.next operation s.now)).records.map (·.id) =
        s.book.records.map (·.id) := by
      rw [Book.update, List.map_map]
      refine List.map_congr_left fun old _ => ?_
      rw [Function.comp_apply]
      split
      next heq => exact heq.symm
      next => rfl
    change ((s.book.update _).records.map (·.id)).Nodup
    rw [hids]
    exact h.keys
  · intro other hother
    rcases hmem other hother with rfl | hold
    · refine ⟨hid, htracks.known, htracks.entered, hhonest, hupdated, fun old hold => ?_⟩
      obtain ⟨howner, hrevision, -, hended⟩ := htracks.seen old hold
      refine ⟨howner, hrevision.trans (Nat.le_succ _), fun heq => ?_, fun hold => ?_⟩
      · rw [heq] at hrevision
        exact absurd hrevision (Nat.not_succ_le_self _)
      · exact absurd (of_decide_eq_true hactive) (hended hold)
    · have htracks' := h.tracks other hold
      exact ⟨htracks'.id, htracks'.known, htracks'.entered, htracks'.honest, htracks'.updated,
        htracks'.seen⟩
  · intro id owner hmem
    rcases h.stays id owner hmem with ⟨old, hold, rfl, howner⟩ | hgone
    · refine .inl ⟨_, List.mem_map_of_mem hold, ?_⟩
      split
      next heq =>
        have hsame : old = entry := List.inj_on_of_nodup_map h.keys hold hentry heq
        subst hsame
        exact ⟨rfl, howner⟩
      next => exact ⟨rfl, howner⟩
    · exact .inr hgone
  · exact h.seen
  · exact h.honest
  · exact h.unseen

/-- Nothing that was seen of an active record had ended. -/
theorem Valid.unended {s : Jobs} {entry : Record} (h : s.Valid) (hentry : entry ∈ s.book.records)
    (hactive : entry.active = true) : ∀ old ∈ Jobs.seen entry.id s.log, ¬old.ended :=
  fun old hold hended =>
    ((h.tracks entry hentry).seen old hold).2.2.2 hended (of_decide_eq_true hactive)

theorem find_some {book : Book} {id : Uuid} {entry : Record} (h : book.find id = some entry) :
    entry ∈ book.records ∧ entry.id = id :=
  ⟨List.mem_of_find?_eq_some h, by simpa using List.find?_some h⟩

/-- The result of a refresh is kept and sent. -/
theorem Valid.emitted {s : Jobs} {i : Nat} {entry : Record} {operation : OperationResult}
    (h : s.Valid)
    (hentry : entry ∈ s.book.records) (hactive : entry.active = true)
    (hid : operation.id = entry.id) (hhonest : Honest entry.id s.backend operation)
    (hupdated : operation.status ≠ "started" → Operations.Absent entry.id s.backend ∨
      ∃ time ≤ s.now, (time, operation) ∈ (trace entry.id s.backend.log).ended) :
    (emit i (entry.next operation s.now)
      { s with book := s.book.update (entry.next operation s.now) }).Valid := by
  have hvalid := h.updated hentry hactive hid hhonest hupdated
  refine hvalid.shown (entry.next operation s.now)
    ⟨true, entry.owner, entry.revision + 1, operation⟩
    rfl rfl rfl ?_ (fun id => ?_) rfl rfl rfl fun _ _ => (h.unended hentry hactive :)
  · exact List.mem_map.mpr ⟨entry, hentry, if_pos rfl⟩
  · change (if operation.id = id then _ else _) = _
    rw [hid]
    rfl

/-- What the backend says of a record. -/
theorem Valid.current {s : Jobs} {entry : Record} (h : s.Valid) (hentry : entry ∈ s.book.records) :
    ∃ operation, s.current entry.id entry =
        (some operation, { s with backend := (s.backend.status entry.id).2 }) ∧
      operation.id = entry.id ∧ Honest entry.id (s.backend.status entry.id).2 operation ∧
      (operation.status ≠ "started" →
        Operations.Absent entry.id (s.backend.status entry.id).2 ∨
          ∃ time ≤ s.now, (time, operation) ∈
            (trace entry.id (s.backend.status entry.id).2.log).ended) ∧
      (operation.status = "started" → (trace entry.id s.backend.log).ended = []) := by
  have hreading := h.backend.reading (h.tracks entry hentry).known
  have hmoves := Operations.moves_status entry.id s.backend
  generalize hstatus : (s.backend.status entry.id).1 = read at hreading
  cases hreading with
  | started first hid hstarted hended =>
      refine ⟨first, ?_, hid, .started hstarted, fun hne => absurd hstarted hne, fun _ => hended⟩
      simp only [Jobs.current, hstatus]
  | ended last hlast htime =>
      refine ⟨last.2, ?_, h.backend.event_id hlast, .ended last.1 hlast,
        fun _ => .inr ⟨last.1, htime, hlast⟩, fun h' => absurd h' (h.backend.event_ended hlast)⟩
      simp only [Jobs.current, hstatus]
  | absent hended hinactive =>
      have habsent : Operations.Absent entry.id (s.backend.status entry.id).2 :=
        h.backend.absent_stable hmoves ⟨hstatus, (h.tracks entry hentry).known⟩
      refine ⟨.withId entry.id entry.operation.action "unknown"
        "Operation outcome is unavailable; do not replay", ?_, rfl, .unknown rfl habsent,
        fun _ => .inl habsent, fun h' => absurd h' (by decide : "unknown" ≠ "started")⟩
      have hinactive' : entry.id ∉ (s.backend.status entry.id).2.activeIds := hinactive
      simp only [Jobs.current, hstatus, hinactive', if_false]

theorem Valid.refresh {s : Jobs} {i : Nat} {id : Uuid} (h : s.Valid) : (s.refresh i id).Valid := by
  rw [Jobs.refresh]
  cases hfind : s.book.find id with
  | none => exact h
  | some entry =>
      obtain ⟨hentry, rfl⟩ := find_some hfind
      cases hactive : entry.active with
      | false =>
          simp only [hactive, Bool.false_eq_true, if_false]
          exact h
      | true =>
          obtain ⟨operation, hcurrent, hid, hhonest, hupdated, -⟩ := h.current hentry
          have hmoved := h.moves (Operations.moves_status entry.id s.backend)
          simp only [hactive, if_true, hcurrent]
          split
          · exact hmoved
          · exact hmoved.emitted hentry hactive hid hhonest hupdated

/-! ## Records go -/

/-- The records with a property stay.  What goes is evicted or of no use. -/
theorem Valid.filter {s : Jobs} (h : s.Valid) (p : Record → Bool)
    (hgone : ∀ entry ∈ s.book.records, p entry = false →
      (∃ j, (j, .evicted entry.id) ∈ s.log) ∨ Operations.Absent entry.id s.backend) :
    ({ s with book := { s.book with records := s.book.records.filter p } } : Jobs).Valid where
  backend := h.backend
  keys := h.keys.sublist (List.filter_sublist.map _)
  tracks entry hentry := by
    have htracks := h.tracks entry (List.mem_of_mem_filter hentry)
    exact ⟨htracks.id, htracks.known, htracks.entered, htracks.honest, htracks.updated,
      htracks.seen⟩
  stays id owner hid := by
    rcases h.stays id owner hid with ⟨entry, hentry, rfl, howner⟩ | hgone'
    · cases hp : p entry with
      | true => exact .inl ⟨entry, List.mem_filter.mpr ⟨hentry, hp⟩, rfl, howner⟩
      | false => exact .inr (hgone entry hentry hp)
    · exact .inr hgone'
  seen := h.seen
  honest := h.honest
  unseen := h.unseen

/-- A record goes by age when the backend has dropped the operation as well. -/
theorem Valid.prune {s : Jobs} (h : s.Valid) : s.prune.Valid := by
  refine h.filter _ fun entry hentry hold => .inr ?_
  rw [Bool.or_eq_false_iff, decide_eq_false_iff_not] at hold
  obtain ⟨hended, hage⟩ := hold
  have hstatus : entry.operation.status ≠ "started" := by simpa [Record.active] using hended
  rcases (h.tracks entry hentry).updated hstatus with habsent | ⟨time, htime, hmem⟩
  · exact habsent
  · refine h.backend.absent_of_old hmem (h.tracks entry hentry).known ?_
    rw [RETENTION, now] at hage
    rw [Operations.TERMINAL_AGE]
    omega

theorem Valid.readRecord {s : Jobs} {i : Nat} {id : Uuid} {owner : Owner} (h : s.Valid) :
    (s.readRecord i id owner).2.Valid := by
  have hpruned := h.prune
  rw [Jobs.readRecord]
  cases hfind : s.prune.book.find id with
  | none => exact hpruned
  | some entry =>
      obtain ⟨hentry, rfl⟩ := find_some hfind
      simp only
      split
      · refine hpruned.shown entry
          ⟨false, entry.owner, entry.revision, entry.operation⟩ rfl rfl rfl hentry
          (fun id => ?_) rfl rfl rfl fun hevent => by cases hevent
        change (if entry.operation.id = id then _ else _) = _
        rw [(hpruned.tracks entry hentry).id]
      · exact hpruned

/-! ## Records come -/

/-- There is no record of an operation that was not entered. -/
theorem Valid.no_record {s : Jobs} {i : Nat} (h : s.Valid) (hnew : ¬Entered i s.log) :
    ∀ entry ∈ s.book.records, entry.id ≠ i := by
  rintro entry hentry rfl
  exact hnew ⟨entry.owner, (h.tracks entry hentry).entered⟩

/-- A new record of the operation that the backend has launched. -/
theorem Valid.entered {s : Jobs} {i : Nat} (owner : Owner) {operation : OperationResult}
    (h : s.Valid) (hnew : ¬Entered i s.log) (hid : operation.id = i) (hknown : i ∈ s.backend.ids)
    (hhonest : Honest i s.backend operation)
    (hupdated : operation.status ≠ "started" → Operations.Absent i s.backend ∨
      ∃ time ≤ s.now, (time, operation) ∈ (trace i s.backend.log).ended) :
    (record i (.registered owner)
      { s with book := s.book.insert ⟨i, owner, operation, 1, s.now⟩ }).Valid := by
  have hother := h.no_record hnew
  have hrecords : (s.book.insert ⟨i, owner, operation, 1, s.now⟩).records =
      s.book.records ++ [⟨i, owner, operation, 1, s.now⟩] := by
    have hkept : (s.book.records.filter fun other => other.id ≠ i) = s.book.records :=
      List.filter_eq_self.mpr fun entry hentry => by simpa using hother entry hentry
    exact congrArg (· ++ [(⟨i, owner, operation, 1, s.now⟩ : Record)]) hkept
  have hseen : ∀ id, Jobs.seen id (s.log ++ [(i, .registered owner)]) = Jobs.seen id s.log :=
    fun id => seen_of_none rfl
  constructor
  · exact h.backend
  · change ((s.book.insert _).records.map (·.id)).Nodup
    rw [hrecords, List.map_append, List.nodup_append]
    refine ⟨h.keys, List.nodup_singleton _, fun a ha b hb => ?_⟩
    obtain ⟨entry, hentry, rfl⟩ := List.mem_map.mp ha
    rw [List.mem_singleton.mp hb]
    exact hother entry hentry
  · intro entry hentry
    change entry ∈ (s.book.insert _).records at hentry
    rw [hrecords] at hentry
    rcases List.mem_append.mp hentry with hold | hlast
    · exact (h.tracks entry hold).append rfl rfl rfl
    · rw [List.mem_singleton.mp hlast]
      refine ⟨hid, hknown, List.mem_append_right _ (List.mem_singleton_self _), hhonest,
        hupdated, ?_⟩
      intro old hold
      change old ∈ Jobs.seen i (s.log ++ [(i, .registered owner)]) at hold
      rw [hseen, h.unseen i hnew] at hold
      cases hold
  · intro id owner' hmem
    change (∃ entry ∈ (s.book.insert _).records, _) ∨ _
    rw [hrecords]
    rcases List.mem_append.mp hmem with hold | hlast
    · rcases h.stays id owner' hold with ⟨entry, hentry, hstays⟩ | ⟨j, hj⟩ | habsent
      · exact .inl ⟨entry, List.mem_append_left _ hentry, hstays⟩
      · exact .inr (.inl ⟨j, List.mem_append_left _ hj⟩)
      · exact .inr (.inr habsent)
    · cases List.mem_singleton.mp hlast
      exact .inl ⟨_, List.mem_append_right _ (List.mem_singleton_self _), rfl, rfl⟩
  · intro id
    change SeenValid (Jobs.seen id (s.log ++ [(i, .registered owner)]))
    rw [hseen]
    exact h.seen id
  · intro id old hold
    change old ∈ Jobs.seen id (s.log ++ [(i, .registered owner)]) at hold
    rw [hseen] at hold
    exact h.honest id old hold
  · intro id hid'
    change Jobs.seen id (s.log ++ [(i, .registered owner)]) = []
    rw [hseen]
    refine h.unseen id fun ⟨owner', howner⟩ => hid' ⟨owner', List.mem_append_left _ howner⟩

/-- The record of a new operation is sent. -/
theorem Valid.registered {s : Jobs} {i : Nat} {owner : Owner} {operation : OperationResult}
    (h : s.Valid) (hnew : ¬Entered i s.log) (hid : operation.id = i) (hknown : i ∈ s.backend.ids)
    (hhonest : Honest i s.backend operation)
    (hupdated : operation.status ≠ "started" → Operations.Absent i s.backend ∨
      ∃ time ≤ s.now, (time, operation) ∈ (trace i s.backend.log).ended) :
    (emit i ⟨i, owner, operation, 1, s.now⟩ (record i (.registered owner)
      { s with book := s.book.insert ⟨i, owner, operation, 1, s.now⟩ })).Valid := by
  have hentered := h.entered owner hnew hid hknown hhonest hupdated
  have hunseen : Jobs.seen i (s.log ++ [(i, .registered owner)]) = [] := by
    rw [seen_of_none rfl]
    exact h.unseen i hnew
  refine hentered.shown ⟨i, owner, operation, 1, s.now⟩ ⟨true, owner, 1, operation⟩
    rfl rfl rfl (List.mem_append_right _ (List.mem_singleton_self _)) (fun id => ?_) rfl rfl rfl
    fun _ _ old hold => ?_
  · change (if operation.id = id then _ else _) = _
    rw [hid]
  · change old ∈ Jobs.seen i (s.log ++ [(i, .registered owner)]) at hold
    rw [hunseen] at hold
    cases hold

/-- A full book drops the record of the victim first. -/
theorem Valid.evicted {s : Jobs} {i : Nat} (h : s.Valid) (victim : Uuid) :
    (record i (.evicted victim) { s with book := { s.book with
      records := s.book.records.filter fun record => record.id ≠ victim } }).Valid := by
  have hlogged : (record i (.evicted victim) s).Valid :=
    h.silent (fun _ => rfl) (by intro _ h; cases h)
  refine hlogged.filter _ fun entry hentry hgone => .inl ⟨i, ?_⟩
  have hid : entry.id = victim := by simpa using hgone
  rw [hid]
  exact List.mem_append_right _ (List.mem_singleton_self _)

/-! ## Reservations -/

/-- The invariant does not look at the reservations. -/
theorem Valid.pending {s : Jobs} (h : s.Valid) (pending : List (Nat × Owner)) :
    ({ s with book := { s.book with pending := pending } } : Jobs).Valid where
  backend := h.backend
  keys := h.keys
  tracks entry hentry :=
    have htracks := h.tracks entry hentry
    ⟨htracks.id, htracks.known, htracks.entered, htracks.honest, htracks.updated, htracks.seen⟩
  stays := h.stays
  seen := h.seen
  honest := h.honest
  unseen := h.unseen

end ClipDaemon.Jobs
