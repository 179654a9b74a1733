import ClipDaemon.Api.Dispatch

/-!
# Owned operations over whole runs

What the owner of an operation sees of it, in events and in responses, and how much the
daemon takes on at a time.
-/

namespace ClipDaemon.Jobs

open ThreadLog

/-! ## Reservations of requests in flight -/

/-- What a statement of thread `i` does to reservations and to active records. -/
structure Local (i : Nat) (s t : Jobs) : Prop where
  pending : ∀ entry ∈ t.book.pending, entry ∈ s.book.pending ∨ entry.1 = i
  stays : ∀ entry ∈ s.book.records, entry.active = true →
    ∃ entry' ∈ t.book.records, entry'.id = entry.id

section Local

variable {s : Jobs} {i : Nat}

theorem Local.refl (s : Jobs) : Local i s s :=
  ⟨fun _ h => .inl h, fun entry h _ => ⟨entry, h, rfl⟩⟩

/-- The drop of ended records. -/
theorem local_filter {t : Jobs} {p : Record → Bool} (hpending : t.book.pending = s.book.pending)
    (hrecords : t.book.records = s.book.records.filter p)
    (hactive : ∀ entry ∈ s.book.records, entry.active = true → p entry = true) : Local i s t where
  pending entry h := by
    rw [hpending] at h
    exact .inl h
  stays entry h hentry := by
    rw [hrecords]
    exact ⟨entry, List.mem_filter.mpr ⟨h, hactive entry h hentry⟩, rfl⟩

theorem local_prune : Local i s s.prune :=
  local_filter rfl rfl fun _ _ hactive => by simp [hactive]

theorem local_refresh (h : s.Valid) (id : Uuid) : Local i s (s.refresh i id) := by
  rw [refresh]
  cases hfind : s.book.find id with
  | none => exact .refl s
  | some entry =>
      obtain ⟨hentry, rfl⟩ := find_some hfind
      cases hactive : entry.active with
      | false =>
          simp only [hactive, Bool.false_eq_true, if_false]
          exact .refl s
      | true =>
          obtain ⟨operation, hcurrent, -⟩ := h.current hentry
          simp only [hactive, if_true, hcurrent]
          split
          · exact ⟨fun _ h => .inl h, fun entry h _ => ⟨entry, h, rfl⟩⟩
          · refine ⟨fun _ h => .inl h, fun other hother _ => ⟨_, List.mem_map_of_mem hother, ?_⟩⟩
            split
            next heq => exact heq.symm
            next => rfl

theorem local_read (id : Uuid) (owner : Owner) : Local i s (s.readRecord i id owner).2 := by
  have hpruned : Local i s s.prune := local_prune
  rw [readRecord]
  split
  · split
    · exact ⟨hpruned.pending, hpruned.stays⟩
    · exact hpruned
  · exact hpruned

/-- The key of a record is in the book after an insertion. -/
theorem mem_insert {book : Book} {entry record : Record} (h : entry ∈ book.records) :
    ∃ entry' ∈ (book.insert record).records, entry'.id = entry.id := by
  rcases eq_or_ne entry.id record.id with heq | hne
  · exact ⟨record, List.mem_append_right _ (List.mem_singleton_self _), heq.symm⟩
  · exact ⟨entry, List.mem_append_left _ (List.mem_filter.mpr ⟨h, by simpa using hne⟩), rfl⟩

/-- A registration drops the record of a victim at most, and a victim has ended. -/
theorem local_track (h : s.Valid) {first : OperationResult} {owner : Owner} {victim : Option Uuid}
    {t : Jobs} (htrack : s.track i first owner victim = some t) : Local i s t := by
  have hpruned : (s.book.prune s.now).records.Sublist s.book.records := List.filter_sublist
  have hstays : ∀ entry ∈ s.book.records, entry.active = true →
      entry ∈ (s.book.prune s.now).records :=
    fun entry hentry hactive => List.mem_filter.mpr ⟨hentry, by simp [hactive]⟩
  simp only [Jobs.track] at htrack
  obtain ⟨⟨gone, book⟩, hregister, rfl⟩ := Option.map_eq_some_iff.mp htrack
  simp only [Book.register] at hregister
  split at hregister
  next hfull =>
    cases victim with
    | none => cases hregister
    | some victim =>
        simp only at hregister
        split at hregister
        next hvictim =>
          cases hregister
          refine ⟨fun entry hentry => .inl hentry, fun entry hentry hactive => ?_⟩
          obtain ⟨last, hlast, hid, hended⟩ := ended_of_oldest hvictim
          have hne : entry.id ≠ victim := by
            intro heq
            have hsame : entry = last :=
              List.inj_on_of_nodup_map h.keys hentry (hpruned.subset hlast) (heq.trans hid.symm)
            rw [hsame, hended] at hactive
            cases hactive
          exact mem_insert (List.mem_filter.mpr ⟨hstays entry hentry hactive, by simpa using hne⟩)
        next => cases hregister
  next =>
    cases hregister
    exact ⟨fun entry hentry => .inl hentry, fun entry hentry hactive =>
      mem_insert (hstays entry hentry hactive)⟩

theorem statements_local : Statements i fun s t => s.Sound → Local i s t where
  refl s _ := .refl s
  backend _ _ _ _ := ⟨fun _ h => .inl h, fun entry h _ => ⟨entry, h, rfl⟩⟩
  refresh _ id h := local_refresh h.valid id
  prune _ _ := local_prune
  read _ id owner _ := local_read id owner
  reserved s owner book hgranted h := by
    rcases reserve_cases i owner s.now s.book with ⟨error, hfull⟩ | ⟨hgranted', -⟩
    · rw [hfull] at hgranted
      cases hgranted
    · rw [hgranted'] at hgranted
      cases hgranted
      have hpruned : Local i s s.prune := local_prune
      refine ⟨fun entry hentry => ?_, hpruned.stays⟩
      rcases List.mem_append.mp hentry with hold | hnew
      · exact hpruned.pending entry hold
      · rw [List.mem_singleton.mp hnew]
        exact .inr rfl
  release s _ :=
    ⟨fun entry hentry => .inl (List.mem_of_mem_filter hentry), fun entry h _ => ⟨entry, h, rfl⟩⟩
  track _ _ _ _ _ htrack h := local_track h.valid htrack

end Local

/-- A request is a dispatch. -/
def Dispatching (call : Call) : Prop := ∃ method params owner, call = .dispatch method params owner

/-- What a statement of a request does. -/
def Moved (i : Nat) (call : Call) (s t : Jobs) : Prop :=
  s.Sound → Local i s t ∧ (¬Dispatching call → t.book.pending = s.book.pending)

theorem each_moved (i : Nat) (call : Call) : (program i call).Each (Moved i call) := by
  rcases Classical.em (Dispatching call) with hdispatch | hother
  · exact (statements_local.program call).mono fun _ _ h hs =>
      ⟨h hs, fun hnot => absurd hdispatch hnot⟩
  · have hboth : Reads i fun s t => s.Sound → Local i s t ∧ Quiet i s t :=
      Reads.both statements_local.toReads reads_quiet
    refine (hboth.program call fun method params owner heq => hother ⟨_, _, _, heq⟩).mono
      fun _ _ h hs => ?_
    exact ⟨(h hs).1, fun _ => (h hs).2.pending⟩

/-- A reservation is that of a dispatch that was called. -/
def Attended (p : Pool Jobs Chance Call Answer) : Prop :=
  ∀ entry ∈ p.shared.book.pending, ∃ call m, Dispatching call ∧ p.threads entry.1 = some (call, m)

theorem Attended.step {p : Pool Jobs Chance Call Answer} (h : Attended p) (hsound : p.shared.Sound)
    (heach : p.Each Moved) (move : Pool.Move Call Chance) : Attended (p.step program move) := by
  have hthere : ∀ entry ∈ p.shared.book.pending, ∃ call m, Dispatching call ∧
      (p.step program move).threads entry.1 = some (call, m) := by
    intro entry hentry
    obtain ⟨call, m, hcall, hthread⟩ := h entry hentry
    obtain ⟨m', hthread'⟩ := Pool.step_call program move hthread
    exact ⟨call, m', hcall, hthread'⟩
  rcases (Pool.each_step each_moved heach move).2 with heq | ⟨i, call, m, c, -, hthread, hmoved⟩
  · intro entry hentry
    rw [heq] at hentry
    exact hthere entry hentry
  · obtain ⟨hlocal, hother⟩ := hmoved hsound
    intro entry hentry
    rcases Classical.em (Dispatching call) with hdispatch | hquiet
    · rcases hlocal.pending entry hentry with hold | rfl
      · exact hthere entry hold
      · obtain ⟨m', hthread'⟩ := Pool.step_call program move hthread
        exact ⟨call, m', hdispatch, hthread'⟩
    · rw [hother hquiet] at hentry
      exact hthere entry hentry

theorem service_attended (now : Nat) (moves : List (Pool.Move Call Chance)) :
    Attended ((service now).after program moves) := by
  induction moves using List.reverseRecOn with
  | nil => exact fun entry hentry => by cases hentry
  | append_singleton moves move ih =>
      rw [Pool.after_append]
      exact ih.step (service_keeps False now moves fun h => h.elim).valid.1
        (Pool.each_after each_moved (Pool.each_start _) moves) move

/-! ## Admission -/

/-- A dispatch that launches although its parameters do not show the action under its key:
they are the array from which the deserializer also reads. -/
def slips : Call → Bool
  | .dispatch method (.array items) _ =>
      method = "clipboard.entry.action" &&
        (ActionParams.ofValue (.array items)).any fun params => params.action = "annotate"
  | _ => false

/-- The action that an object decodes to is the one under its key. -/
theorem get_action {fields : List (String × Value)} {params : ActionParams}
    (h : ActionParams.ofValue (.object fields) = some params) :
    ((Value.object fields).get "action").isString params.action = true := by
  simp only [ActionParams.ofValue, Option.bind_eq_bind, Option.bind_eq_some_iff, Option.pure_def,
    Option.some.injEq] at h
  obtain ⟨entryId, -, revision, -, action, haction, sessionId, -, fileIndex, -, rfl⟩ := h
  obtain ⟨value, hvalue, hstring⟩ := haction
  rw [Value.get, hvalue]
  cases value with
  | string text =>
      cases hstring
      exact decide_eq_true rfl
  | _ => cases hstring

/-- Every other dispatch that launches has to reserve. -/
theorem tight_of_not_slips {call : Call} (h : slips call = false) : Tight call := by
  rintro method params owner rfl hlaunches
  rw [launches, Bool.or_eq_true, Bool.and_eq_true] at hlaunches
  rw [mayStart, Bool.or_eq_true, Bool.and_eq_true]
  rcases hlaunches with hinteractive | ⟨hmethod, haction⟩
  · exact .inl hinteractive
  · refine .inr ⟨hmethod, ?_⟩
    obtain ⟨params', hparams, hannotate⟩ := (Option.any_eq_true _ _).mp haction
    cases params with
    | object fields =>
        have hshown := get_action hparams
        rw [of_decide_eq_true hannotate] at hshown
        exact hshown
    | array items =>
        rw [slips, hmethod, Bool.true_and, haction] at h
        cases h
    | _ => cases hparams

/-- The admission of operations, in every run in which no dispatch slips.

The parts: the bounds of the book; an active record stays; what the owner of an operation sees
of it comes from a request that has reserved, as does every response with an operation that
was started; and the reservations go with the dispatches. -/
theorem admission_bounded (now : Nat) (moves : List (Pool.Move Call Chance))
    (hslips : ∀ i call, .call i call ∈ moves → slips call = false) :
    let pool := (service now).after program moves
    let s := pool.shared
    s.book.records.countP (·.active) ≤ MAX_ACTIVE ∧
    (∀ owner, s.book.records.countP (fun entry => entry.active && entry.owner = owner) ≤
      MAX_OWNER_ACTIVE) ∧
    s.book.records.length ≤ MAX_RECORDS ∧
    (∀ move, ∀ entry ∈ s.book.records, entry.active = true →
      ∃ entry' ∈ (pool.step program move).shared.book.records, entry'.id = entry.id) ∧
    (∀ id, seen id s.log ≠ [] → ∃ owner, (id, .reserved owner) ∈ s.log) ∧
    (∀ i method params owner read,
      pool.Returned i (.dispatch method params owner) (.dispatched (.ok (some read))) →
        (i, .reserved owner) ∈ s.log) ∧
    ((∀ i method params owner m, pool.threads i = some (.dispatch method params owner, m) →
      ∃ answer, m = .done answer) → s.book.pending = []) := by
  intro pool s
  have hkeeps : (discipline True (initial now)).Keeps (Post (initial now)) pool :=
    service_keeps True now moves fun _ i call hcall => tight_of_not_slips (hslips i call hcall)
  have hbounded : s.Bounded := hkeeps.valid.2.1 trivial
  have hsound : s.Sound := hkeeps.valid.1
  refine ⟨?_, fun owner => ?_, hbounded.size, fun move entry hentry hactive => ?_,
    fun id hseen => ?_,
    fun i method params owner read hreturned => ?_, fun hidle => ?_⟩
  · refine Nat.le_trans (Nat.le_trans ?_ (Nat.le_add_right _ _)) hbounded.total
    simp only [Bool.and_true]
    exact Nat.le_refl _
  · exact (Nat.le_add_right _ _).trans (hbounded.own owner)
  · have heach : pool.Each Moved := Pool.each_after each_moved (Pool.each_start _) moves
    rcases (Pool.each_step each_moved heach move).2 with heq | ⟨i, call, m, c, -, -, hmoved⟩
    · exact ⟨entry, by rw [heq]; exact hentry, rfl⟩
    · exact (hmoved hsound).1.stays entry hentry hactive
  · by_contra hnone
    refine hseen (hsound.valid.unseen id fun ⟨owner, howner⟩ => hnone ⟨owner, ?_⟩)
    exact hbounded.admitted id owner howner
  · obtain ⟨-, hdispatched⟩ := hkeeps.threads i _ _ hreturned
    obtain ⟨-, -, hregistered⟩ := hdispatched read rfl
    exact hbounded.admitted i owner hregistered
  · refine List.eq_nil_iff_forall_not_mem.mpr fun entry hentry => ?_
    obtain ⟨call, m, ⟨method, params, owner, rfl⟩, hthread⟩ :=
      service_attended now moves entry hentry
    obtain ⟨answer, rfl⟩ := hidle _ method params owner m hthread
    have hheld : held entry.1 s = [] := (hkeeps.threads entry.1 _ _ hthread).1
    have hmem : entry ∈ held entry.1 s := List.mem_filter.mpr ⟨hentry, by simp⟩
    rw [hheld] at hmem
    cases hmem

/-- An annotation is asked for with an array of parameters. -/
def slipped : List (Pool.Move Call Chance) :=
  [.call 0 (.dispatch "clipboard.entry.action"
      (.array [.string "e", .number 1, .string "annotate", .null, .null]) none),
    .step 0 (.order []), .step 0 .none, .step 0 .none, .step 0 .none, .step 0 .none, .step 0 .none,
    .step 0 .none, .step 0 .none, .step 0 (.victim none), .step 0 .none, .step 0 .none]

/-- It is started without a reservation. -/
theorem started_unreserved :
    ¬∀ now moves i method params owner read, let pool := (service now).after program moves
      pool.Returned i (.dispatch method params owner) (.dispatched (.ok (some read))) →
        read.1.status = "started" → (i, .reserved owner) ∈ pool.shared.log := by
  intro h
  have hreserved := h 0 slipped 0 "clipboard.entry.action"
    (.array [.string "e", .number 1, .string "annotate", .null, .null]) none
    (⟨0, "annotate", "started", "Image editor started", none, none⟩, 1) rfl rfl
  have hlog : ((service 0).after program slipped).shared.log.any (fun entry =>
      match entry.2 with | .reserved _ => true | _ => false) = false := rfl
  exact absurd (List.any_eq_true.mpr ⟨_, hreserved, rfl⟩) (by rw [hlog]; decide)

/-- A screenshot is started. -/
def screenshot : List (Pool.Move Call Chance) :=
  [.call 0 (.dispatch "clipboard.capture.interactive" .null none), .step 0 (.order []),
    .step 0 .none,
    .step 0 .none, .step 0 .none, .step 0 .none, .step 0 .none, .step 0 .none, .step 0 .none,
    .step 0 .none, .step 0 (.victim none), .step 0 .none, .step 0 .none, .step 0 .none]

theorem admission_bounded_screenshot :
    (0, .reserved none) ∈ ((service 0).after program screenshot).shared.log :=
  (admission_bounded 0 screenshot (by
    intro i call hcall
    simp only [screenshot, List.mem_cons, reduceCtorEq, List.not_mem_nil, or_false,
      Pool.Move.call.injEq] at hcall
    rw [hcall.2]
    rfl)).2.2.2.2.2.1 0 "clipboard.capture.interactive" .null none
    (⟨0, "screenshot", "started", "Screenshot started", none, none⟩, 1) rfl

end ClipDaemon.Jobs
