import ClipDaemon.Api.Traffic

/-!
# Requests keep the discipline

A request that starts an operation reserves, launches, registers and reads the record that it
has registered, and drops its reservation whatever happens in between.  A status request
refreshes a record and reads it.  Each part has one lemma, and `program_keeps` puts them
together.
-/

namespace ClipDaemon.Jobs

open ThreadLog

section Parts

variable {tight : Prop} {past s : Jobs} {i : Nat} {owner : Owner} {reserved : Prop}

/-! ## Launches -/

/-- The operation that a thread has launched. -/
structure Launched (i : Nat) (operation : OperationResult) (s : Jobs) : Prop where
  id : operation.id = i
  status : operation.status = "started"
  known : i ∈ s.backend.ids

theorem Launched.grows {t : Jobs} {operation : OperationResult} (h : Launched i operation s)
    (hgrows : Grows s t) : Launched i operation t :=
  ⟨h.id, h.status, hgrows.known i h.known⟩

/-- A thread launches under its own number only. -/
theorem eq_of_pick {chance : Chance} {id : Uuid} (h : pick i chance = .uuid id) : id = i := by
  cases chance with
  | backend chance =>
      cases chance with
      | uuid id' => cases h; rfl
      | _ => cases h
  | order ids => cases h
  | _ => cases h; rfl

/-- What a launch leaves behind. -/
def Launching (i : Nat) (owner : Owner) (reserved : Prop) (result : BackendResult OperationResult)
    (u : Jobs) : Prop :=
  Standing i owner reserved False u ∧ ∀ operation, result = .ok operation → Launched i operation u

theorem registered_of_register {action message : String} {files : List String} {chance : Chance}
    {b b' : Operations} {operation : OperationResult}
    (h : (match pick i chance with
      | .uuid id =>
          if id ∈ b.ids then none
          else
            let operation :=
              { OperationResult.completed id action message with status := "started" }
            let b := Operations.record id (.registered operation)
              { b with active := Function.update b.active id (some ⟨operation, action, files⟩) }
            some (operation, { b with ids := b.ids ++ [id] }.setTask id (.ready action))
      | _ => none) = some (operation, b')) :
    operation.id = i ∧ operation.status = "started" ∧ i ∈ b'.ids := by
  split at h
  next id hid =>
    have heq : id = i := eq_of_pick hid
    subst heq
    split at h
    · cases h
    · cases h
      exact ⟨rfl, rfl, List.mem_append_right _ (List.mem_singleton_self _)⟩
  next => cases h

theorem keeps_backendLaunch (action message : String) (files : List String)
    (h : Standing i owner reserved False s) :
    (onBackend i (Operations.launch action message files)).Keeps (discipline tight past) i
      (Launching i owner reserved) s := by
  rw [onBackend, Operations.launch, Thread.zoom_bind]
  refine Thread.keeps_bind (Thread.keeps_atomic fun t hvalid hrely chance operation u hop => ?_)
  obtain ⟨⟨operation', b⟩, hregister, heq⟩ := Option.map_eq_some_iff.mp hop
  cases heq
  have hquiet : Quiet i t { t with backend := b } :=
    quiet_backend hvalid.1 ((Operations.each_register action message files).1 _ _ _ _ hregister)
  refine ⟨hquiet.allows hvalid, ?_⟩
  have hstanding : Standing i owner reserved False { t with backend := b } :=
    (h.rely hrely).quiet hquiet
  obtain ⟨hid, hstatus, hknown⟩ := registered_of_register hregister
  have hlaunched : Launched i operation' { t with backend := b } := ⟨hid, hstatus, hknown⟩
  rw [Thread.zoom_bind]
  refine Thread.keeps_bind ?_
  -- what follows only starts the task of the operation
  have hsent :
      (onBackend i (Thread.modify fun s => ((), Operations.record operation'.id .started s))).Each
      fun s t => s.Sound → Quiet i s t :=
    reads_quiet.onBackend (Thread.each_modify fun s => (Operations.moves_started _ s).keeps)
  refine ((keeps_quiet hsent hstanding).frame (R := Launched i operation')
    (fun _ _ hrely h => h.grows hrely.1) (fun _ _ hgrows h => h.grows hgrows) hlaunched).weaken ?_
  rintro - u ⟨hstanding', hlaunched'⟩
  rw [Thread.zoom_bind]
  refine Thread.keeps_bind ?_
  have hstart : (onBackend i (Operations.start operation'.id)).Each fun s t =>
      s.Sound → Quiet i s t :=
    reads_quiet.onBackend (Operations.each_start _)
  refine ((keeps_quiet hstart hstanding').frame (R := Launched i operation')
    (fun _ _ hrely h => h.grows hrely.1) (fun _ _ hgrows h => h.grows hgrows) hlaunched').weaken ?_
  rintro result v ⟨hstanding'', hlaunched''⟩
  cases result with
  | ok _ =>
      refine ⟨hstanding'', fun operation heq => ?_⟩
      cases heq
      exact hlaunched''
  | error _ => exact ⟨hstanding'', fun operation heq => by cases heq⟩

theorem keeps_launch (action message : String) (files : List String)
    (h : Standing i owner reserved False s) :
    (launch i action message files).run.Keeps (discipline tight past) i
      (fun result u => Standing i owner reserved False u ∧
        ∀ operation, result = .ok operation → Launched i operation u) s := by
  refine Thread.keeps_run_bind ?_
  refine Thread.keeps_bind ((keeps_backendLaunch action message files h).weaken ?_)
  rintro result u ⟨hstanding, hlaunched⟩
  refine Thread.keeps_result ⟨hstanding, fun operation heq => ?_⟩
  cases result with
  | ok _ =>
      cases heq
      exact hlaunched operation rfl
  | error _ => cases heq

/-- The requests that launch an operation. -/
def launches (method : String) (params : Value) : Bool :=
  method = "clipboard.capture.interactive" ||
    (method = "clipboard.entry.action" &&
      (ActionParams.ofValue params).any fun params => params.action = "annotate")

/-- What the data of a method tell. -/
def Yields (i : Nat) (owner : Owner) (reserved : Prop) (launching : Bool)
    (result : Except Halt (Option OperationResult)) (u : Jobs) : Prop :=
  Standing i owner reserved False u ∧
    ∀ operation, result = .ok (some operation) → Launched i operation u ∧ launching = true

theorem keeps_elsewhere {entered : Prop} (h : Standing i owner reserved entered s) :
    elsewhere.run.Keeps (discipline tight past) i
      (fun _ u => Standing i owner reserved entered u) s :=
  keeps_quiet reads_quiet.elsewhere h

theorem keeps_entryAction (params : Value) (h : Standing i owner reserved False s) :
    (entryAction i params).run.Keeps (discipline tight past) i
      (Yields i owner reserved (launches "clipboard.entry.action" params)) s := by
  refine Thread.keeps_run_bind ((keeps_elsewhere h).weaken fun result u hu => ?_)
  cases result with
  | error _ => exact ⟨hu, fun operation heq => by cases heq⟩
  | ok _ =>
      cases hparams : ActionParams.ofValue params with
      | none => exact ⟨hu, fun operation heq => by cases heq⟩
      | some params' =>
          refine Thread.keeps_run_bind ((keeps_elsewhere hu).weaken fun result v hv => ?_)
          cases result with
          | error _ => exact ⟨hv, fun operation heq => by cases heq⟩
          | ok _ =>
              simp only
              split
              next haction =>
                refine Thread.keeps_run_bind ((keeps_launch _ _ _ hv).weaken ?_)
                rintro result w ⟨hw, hlaunched⟩
                cases result with
                | error _ => exact ⟨hw, fun operation heq => by cases heq⟩
                | ok operation' =>
                    refine ⟨hw, fun operation heq => ?_⟩
                    cases heq
                    have hlaunched' := hlaunched operation' rfl
                    refine ⟨⟨hlaunched'.id, hlaunched'.status, hlaunched'.known⟩, ?_⟩
                    simp [launches, hparams, haction]
              next => exact ⟨hv, fun operation heq => by cases heq⟩

theorem keeps_interactiveScreenshot (params : Value) (h : Standing i owner reserved False s) :
    (interactiveScreenshot i).run.Keeps (discipline tight past) i
      (Yields i owner reserved (launches "clipboard.capture.interactive" params)) s := by
  refine Thread.keeps_run_bind ((keeps_elsewhere h).weaken fun result u hu => ?_)
  cases result with
  | error _ => exact ⟨hu, fun operation heq => by cases heq⟩
  | ok _ =>
      refine Thread.keeps_run_bind (Thread.keeps_bind ?_)
      have hcontains : (onBackend i (Thread.modify fun s => (s.contains "screenshot", s))).Each
          fun s t => s.Sound → Quiet i s t :=
        reads_quiet.onBackend (Thread.each_modify fun s => (Operations.moves_refl s).keeps)
      refine (keeps_quiet hcontains hu).weaken fun running v hv => ?_
      cases running with
      | true => exact ⟨hv, fun operation heq => by cases heq⟩
      | false =>
          refine Thread.keeps_run_bind ((keeps_launch _ _ _ hv).weaken ?_)
          rintro result w ⟨hw, hlaunched⟩
          cases result with
          | error _ => exact ⟨hw, fun operation heq => by cases heq⟩
          | ok operation' =>
              refine ⟨hw, fun operation heq => ?_⟩
              cases heq
              exact ⟨hlaunched operation' rfl, rfl⟩

theorem keeps_dispatchMethod (method : String) (params : Value)
    (h : Standing i owner reserved False s) :
    (dispatchMethod i method params).run.Keeps (discipline tight past) i
      (Yields i owner reserved (launches method params)) s := by
  rw [dispatchMethod]
  split
  next hmethod =>
    subst hmethod
    exact keeps_interactiveScreenshot params h
  next =>
    split
    next hmethod =>
      subst hmethod
      exact keeps_entryAction params h
    next =>
      refine Thread.keeps_run_bind ((keeps_elsewhere h).weaken fun result u hu => ?_)
      cases result with
      | error _ => exact ⟨hu, fun operation heq => by cases heq⟩
      | ok _ => exact ⟨hu, fun operation heq => by cases heq⟩

/-! ## Registration -/

theorem keeps_trackOperation {operation : OperationResult} (htight : tight → reserved)
    (hlaunched : Launched i operation s) (h : Standing i owner reserved False s) :
    (trackOperation i operation owner).Keeps (discipline tight past) i
      (fun _ u => Standing i owner reserved True u ∧ (i, .registered owner) ∈ u.log) s := by
  refine Thread.keeps_atomic fun t hvalid hrely chance _ u hop => ?_
  have hstanding : Standing i owner reserved False t := h.rely hrely
  have hlaunched' : Launched i operation t := hlaunched.grows hrely.1
  cases chance with
  | victim victim =>
      obtain ⟨u', htrack, heq⟩ := Option.map_eq_some_iff.mp hop
      cases heq
      obtain ⟨htracked, hregistered⟩ := hvalid.1.track owner hstanding.enters hlaunched'.id
        hlaunched'.status hlaunched'.known htrack
      refine ⟨allows_of hvalid htracked.sound (fun htight' => ?_) htracked.grows htracked.log
        fun j _ => by rw [held, htracked.pending, held], ⟨?_, fun hreserved => ?_, fun hfree => ?_,
          fun _ => trivial⟩, hregistered⟩
      · obtain ⟨hpending, hlog⟩ := hstanding.holds (htight htight')
        exact htracked.bounded hpending hlog
      · rw [held, htracked.pending]
        exact hstanding.only
      · obtain ⟨hpending, hlog⟩ := hstanding.holds hreserved
        rw [htracked.pending]
        exact ⟨hpending, htracked.grows.log.subset hlog⟩
      · rw [held, htracked.pending]
        exact hstanding.free hfree
  | _ => cases hop

/-! ## Reads -/

/-- What a status read tells of an operation that had been entered and had ended before. -/
def Reported (past : Jobs) (i : Nat) (id : Uuid) (owner : Owner)
    (result : ApiResult (OperationResult × Nat)) (u : Jobs) : Prop :=
  match result with
  | .ok read => (i, .read owner read.2 read.1) ∈ u.log ∧ read.1.id = id ∧
      (Entered id past.log → ∀ entry ∈ (trace id past.backend.log).ended,
        read.1 = entry.2 ∨ read.1.status = "unknown" ∧ Operations.Absent id u.backend)
  | .error _ => (id, .registered owner) ∈ past.log → (trace id past.backend.log).ended ≠ [] →
      (∃ j, (j, .evicted id) ∈ u.log) ∨ Operations.Absent id u.backend

theorem Reported.grows {t : Jobs} {id : Uuid} {result : ApiResult (OperationResult × Nat)}
    (h : Reported past i id owner result s) (hgrows : Grows s t) :
    Reported past i id owner result t := by
  cases result with
  | ok read =>
      obtain ⟨hlog, hid, hread⟩ := h
      exact ⟨hgrows.log.subset hlog, hid, fun hentered entry hentry =>
        (hread hentered entry hentry).imp_right (.imp_right (hgrows.absent id))⟩
  | error _ =>
      intro hentered hended
      refine (h hentered hended).imp ?_ (hgrows.absent id)
      rintro ⟨j, hj⟩
      exact ⟨j, hgrows.log.subset hj⟩

/-- A refreshed record of an operation that has ended says so. -/
theorem settled_refresh {id : Uuid} (h : s.Sound) (hentered : Entered id s.log)
    (hended : (trace id s.backend.log).ended ≠ []) : Settled id (s.refresh i id) := by
  have hgrows : Grows s (s.refresh i id) := (quiet_refresh h).grows
  refine ⟨?_, ?_, ?_⟩
  · rw [hgrows.ended id hended]
    exact hended
  · obtain ⟨owner, howner⟩ := hentered
    exact ⟨owner, hgrows.log.subset howner⟩
  rw [refresh]
  cases hfind : s.book.find id with
  | none =>
      intro entry hentry hid
      have hnone := List.find?_eq_none.mp hfind entry hentry
      exact absurd hid (by simpa using hnone)
  | some entry =>
      obtain ⟨hentry, rfl⟩ := find_some hfind
      cases hactive : entry.active with
      | false =>
          simp only [hactive, Bool.false_eq_true, if_false]
          intro other hother hid
          have hsame : other = entry := List.inj_on_of_nodup_map h.valid.keys hother hentry hid
          rw [hsame]
          exact hactive
      | true =>
          obtain ⟨operation, hcurrent, -, -, -, hstarted⟩ := h.valid.current hentry
          have hover : operation.status ≠ "started" := fun heq => hended (hstarted heq)
          simp only [hactive, if_true, hcurrent]
          split
          next heq =>
            rw [← heq] at hover
            exact absurd (of_decide_eq_true hactive) hover
          next =>
            intro other hother hid
            obtain ⟨old, hold, rfl⟩ := List.mem_map.mp hother
            split at hid
            next heq =>
              rw [if_pos heq]
              exact decide_eq_false hover
            next hne => exact absurd hid hne

/-- What a read returns of a record that has settled. -/
theorem reported_readRecord {id : Uuid} (h : s.Sound) (hpast : Grows past s)
    (hsettled : Entered id past.log → (trace id past.backend.log).ended ≠ [] → Settled id s) :
    Reported past i id owner (s.readRecord i id owner).1 (s.readRecord i id owner).2 := by
  have hpruned : Quiet i s s.prune := quiet_prune h
  have hmissing : (∀ entry ∈ s.prune.book.records, ¬(entry.id = id ∧ entry.owner = owner)) →
      (id, .registered owner) ∈ past.log →
        (∃ j, (j, .evicted id) ∈ s.prune.log) ∨ Operations.Absent id s.prune.backend := by
    intro hnone hregistered
    rcases hpruned.sound.valid.stays id owner (hpast.log.subset hregistered) with
      ⟨entry, hentry, hid, howner⟩ | hgone
    · exact absurd ⟨hid, howner⟩ (hnone entry hentry)
    · exact hgone
  rw [readRecord]
  cases hfind : s.prune.book.find id with
  | none =>
      refine fun hregistered _ => hmissing (fun entry hentry heq => ?_) hregistered
      have hnone := List.find?_eq_none.mp hfind entry hentry
      exact absurd heq.1 (by simpa using hnone)
  | some entry =>
      obtain ⟨hentry, rfl⟩ := find_some hfind
      have htracks := hpruned.sound.valid.tracks entry hentry
      simp only
      split
      next howner =>
        subst howner
        refine ⟨List.mem_append_right _ (List.mem_singleton_self _), htracks.id,
          fun hentered last hlast => ?_⟩
        have hended : (trace entry.id past.backend.log).ended ≠ [] := List.ne_nil_of_mem hlast
        have hinactive : entry.active = false :=
          (hpruned.grows.settled _ (hsettled hentered hended)).record entry hentry rfl
        have hsame := (hpast.trans hpruned.grows).ended entry.id hended
        cases htracks.honest with
        | started hstarted => exact absurd hstarted (of_decide_eq_false hinactive)
        | ended time hmem =>
            left
            rw [← hsame] at hlast
            have honce := hpruned.sound.valid.backend.ended_once entry.id
            have heq : (time, entry.operation) = last := by
              obtain ⟨last', hlast'⟩ := List.length_eq_one_iff.mp
                (Nat.le_antisymm honce (List.length_pos_of_mem hmem))
              rw [hlast'] at hmem hlast
              rw [List.mem_singleton.mp hmem, List.mem_singleton.mp hlast]
            exact congrArg Prod.snd heq
        | unknown hstatus habsent => exact .inr ⟨hstatus, habsent⟩
      next howner =>
        refine fun hregistered _ => hmissing (fun other hother heq => ?_) hregistered
        have hsame : other = entry :=
          List.inj_on_of_nodup_map hpruned.sound.valid.keys hother hentry heq.1
        rw [hsame] at heq
        exact howner heq.2

theorem keeps_operationStatus {id : Uuid} {reader : Owner} {entered : Prop}
    (h : Standing i owner reserved entered s) :
    (operationStatus i id reader).Keeps (discipline tight past) i
      (fun result u => Standing i owner reserved entered u ∧
        Reported past i id reader result u) s := by
  refine Thread.keeps_bind (Thread.keeps_modify fun t hvalid hrely => ?_)
  have hrefreshed : Quiet i t (t.refresh i id) := quiet_refresh hvalid.1
  refine ⟨hrefreshed.allows hvalid, ?_⟩
  have hstanding := (h.rely hrely).quiet hrefreshed
  have hsettled : Entered id past.log → (trace id past.backend.log).ended ≠ [] →
      Settled id (t.refresh i id) := by
    rintro ⟨owner', howner'⟩ hended
    refine settled_refresh hvalid.1 ⟨owner', hvalid.2.2.log.subset howner'⟩ ?_
    rw [hvalid.2.2.ended id hended]
    exact hended
  refine Thread.keeps_modify fun u hvalid' hrely' => ?_
  have hread : Quiet i u (u.readRecord i id reader).2 := quiet_read hvalid'.1
  exact ⟨hread.allows hvalid', (hstanding.rely hrely').quiet hread,
    reported_readRecord hvalid'.1 hvalid'.2.2 fun hentered hended =>
      hrely'.1.settled id (hsettled hentered hended)⟩

/-! ## Reservations -/

/-- The state after a reservation. -/
def reserving (i : Nat) (owner : Owner) (s : Jobs) : Jobs :=
  record i (.reserved owner)
    { s with book := { s.book with pending := s.book.pending ++ [(i, owner)] } }

/-- A reservation weighs what it reserves. -/
theorem load_reserving (p : Owner → Bool) :
    load p (reserving i owner s) ≤
      s.book.records.countP (fun entry => entry.active && p entry.owner) +
        s.book.pending.countP (fun held => p held.2) + if p owner then 1 else 0 := by
  have hrecord : load p (reserving i owner s) =
      load p { s with book := { s.book with pending := s.book.pending ++ [(i, owner)] } } :=
    load_record (by intro _ h; cases h)
  have hpending : ∀ pending : List (Nat × Owner),
      (pending.countP fun held => !decide (Entered held.1 s.log) && p held.2) ≤
        pending.countP fun held => p held.2 := by
    intro pending
    refine List.countP_mono_left fun held _ hcounts => ?_
    rw [Bool.and_eq_true] at hcounts
    exact hcounts.2
  rw [hrecord, load, Nat.add_assoc]
  refine Nat.add_le_add_left ?_ _
  refine (hpending _).trans ?_
  rw [List.countP_append, List.countP_singleton]

theorem sound_reserving (i : Nat) (owner : Owner) (h : s.Sound) :
    (reserving i owner s).Sound ∧ Grows s (reserving i owner s) := by
  have hsilent : ∀ other : Owner, JobEffect.reserved owner ≠ .registered other := by
    intro _ h
    cases h
  have hlog : s.log <+: (reserving i owner s).log := List.prefix_append _ _
  refine ⟨⟨(h.valid.pending _).silent (fun _ => rfl) hsilent, h.kept.step hlog
    (fun id other hid => .inl ((registered_append hsilent id other).mp hid))
    (fun entry hentry hended => .inl ⟨entry, hentry, rfl, hended⟩)
    fun entry hentry => .inl ⟨entry, hentry, rfl, rfl⟩⟩,
    grows_of h.valid hlog (Operations.moves_refl _) fun entry hentry hactive =>
      .inl ⟨entry, hentry, rfl, hactive⟩⟩

/-- A reservation that the book grants keeps the bounds. -/
theorem bounded_reserving (h : s.Bounded)
    (htotal : s.book.pending.length + s.book.records.countP (·.active) < MAX_ACTIVE)
    (hown : s.book.pending.countP (·.2 = owner) +
      s.book.records.countP (fun entry => entry.active && entry.owner = owner) < MAX_OWNER_ACTIVE) :
    (reserving i owner s).Bounded where
  total := by
    refine (load_reserving _).trans ?_
    rw [if_pos rfl, congrFun List.countP_true s.book.pending]
    simp only [Bool.and_true]
    omega
  own other := by
    rcases eq_or_ne other owner with rfl | hne
    · refine (load_reserving _).trans ?_
      rw [decide_eq_true rfl, if_pos rfl]
      omega
    · -- the load of another owner stays as it was
      refine Nat.le_trans (Nat.le_of_eq ?_) (h.own other)
      have hrecord : load (fun entry => entry = other) (reserving i owner s) = load (fun entry =>
          entry = other) { s with book :=
            { s.book with pending := s.book.pending ++ [(i, owner)] } } :=
        load_record (by intro _ h; cases h)
      rw [hrecord, load, load]
      simp only [List.countP_append, List.countP_singleton, decide_eq_false hne.symm,
        Bool.and_false,
        Bool.false_eq_true, if_false, Nat.add_zero]
  size := h.size
  admitted id other hid := by
    have hsilent : ∀ other : Owner, JobEffect.reserved owner ≠ .registered other := by
      intro _ h
      cases h
    have hold := (registered_append hsilent id other).mp hid
    exact List.mem_append_left _ (h.admitted id other hold)

/-- A book is full, or it grants the reservation. -/
theorem reserve_cases (i : Nat) (owner : Owner) (now : Nat) (book : Book) :
    (∃ error, book.reserve i owner now = (.error error, book.prune now)) ∨
      book.reserve i owner now =
          (.ok (), { book.prune now with pending := (book.prune now).pending ++ [(i, owner)] }) ∧
        (book.prune now).pending.length + (book.prune now).records.countP (·.active) < MAX_ACTIVE ∧
        (book.prune now).pending.countP (·.2 = owner) +
          (book.prune now).records.countP (fun entry => entry.active && entry.owner = owner) <
            MAX_OWNER_ACTIVE := by
  simp only [Book.reserve]
  split
  next => exact .inl ⟨_, rfl⟩
  next hroom =>
    rw [not_or, Nat.not_le, Nat.not_le] at hroom
    exact .inr ⟨rfl, hroom⟩

theorem keeps_reserve (h : Standing i owner False False s) :
    (reserve i owner).Keeps (discipline tight past) i
      (fun result u => match result with
        | .ok _ => Standing i owner True False u
        | .error _ => held i u = []) s := by
  refine Thread.keeps_modify fun t hvalid hrely => ?_
  have hpruned : Quiet i t t.prune := quiet_prune hvalid.1
  have hstanding : Standing i owner False False t.prune := (h.rely hrely).quiet hpruned
  have hheld : held i t.prune = [] := hstanding.free fun h => h
  rcases reserve_cases i owner t.now t.book with ⟨error, hfull⟩ | ⟨hgranted, htotal, hmine⟩
  · simp only [hfull]
    exact ⟨hpruned.allows hvalid, hheld⟩
  · simp only [hgranted]
    obtain ⟨hsound, hgrows⟩ := sound_reserving i owner hpruned.sound
    refine ⟨allows_of hvalid hsound
      (fun _ hb => bounded_reserving (hpruned.bounded hb) htotal hmine)
      (hpruned.grows.trans hgrows) ⟨[.reserved owner], rfl⟩ fun j hne => ?_, ?_⟩
    · change List.filter _ (t.book.pending ++ [(i, owner)]) = _
      rw [List.filter_append, List.filter_cons_of_neg (by simpa using hne.symm)]
      exact List.append_nil _
    · have hafter : held i (reserving i owner t.prune) = [(i, owner)] := by
        change List.filter _ (t.prune.book.pending ++ [(i, owner)]) = _
        rw [List.filter_append, ← held, hheld]
        simp
      refine ⟨(List.Perm.of_eq hafter).subset, fun _ => ⟨?_, ?_⟩, fun hnot => absurd trivial hnot,
        fun hentered => ?_⟩
      · exact List.mem_append_right _ (List.mem_singleton_self _)
      · exact List.mem_append_right _ (List.mem_singleton_self _)
      · exact hstanding.enters ((entered_append (by intro _ h; cases h) i).mp hentered)

theorem keeps_release :
    (release i).Keeps (discipline tight past) i (fun _ u => held i u = []) s := by
  refine Thread.keeps_modify fun t hvalid _ => ?_
  have hsub : (t.book.release i).pending.Sublist t.book.pending := List.filter_sublist
  have hsound : Sound { t with book := t.book.release i } :=
    ⟨hvalid.1.valid.pending _, ⟨hvalid.1.kept.announced, hvalid.1.kept.stays⟩⟩
  have hgrows : Grows t { t with book := t.book.release i } :=
    grows_of hvalid.1.valid List.prefix_rfl (Operations.moves_refl _) fun entry hentry hactive =>
      .inl ⟨entry, hentry, rfl, hactive⟩
  refine ⟨allows_of hvalid hsound (fun _ hb => ?_) hgrows ⟨[], by simp⟩ fun j hne => ?_, ?_⟩
  · exact hb.of_load (fun p => load_mono (List.Sublist.refl _) hsub rfl) (Nat.le_refl _)
      List.prefix_rfl fun _ _ hid => hid
  · change List.filter _ (List.filter _ t.book.pending) = _
    rw [List.filter_filter]
    refine List.filter_congr fun entry _ => ?_
    rcases eq_or_ne entry.1 j with rfl | hne'
    · simp [hne]
    · simp [hne']
  · refine List.filter_eq_nil_iff.mpr fun entry hentry => ?_
    have hother := (List.mem_filter.mp hentry).2
    simpa using hother

/-! ## Requests -/

/-- What the dispatched part of a request tells. -/
def Dispatched (i : Nat) (owner : Owner) (result : Except Halt (Option (OperationResult × Nat)))
    (u : Jobs) : Prop :=
  ∀ read, result = .ok (some read) →
    (i, .read owner read.2 read.1) ∈ u.log ∧ read.1.id = i ∧ (i, .registered owner) ∈ u.log

theorem Dispatched.grows {t : Jobs} {result : Except Halt (Option (OperationResult × Nat))}
    (h : Dispatched i owner result s) (hgrows : Grows s t) : Dispatched i owner result t := by
  intro read hread
  obtain ⟨hlog, hid, hregistered⟩ := h read hread
  exact ⟨hgrows.log.subset hlog, hid, hgrows.log.subset hregistered⟩

theorem Standing.entering {entered : Prop} (h : Standing i owner reserved False s) :
    Standing i owner reserved entered s :=
  ⟨h.only, h.holds, h.free, fun hentered => (h.enters hentered).elim⟩

theorem keeps_dispatchReserved (reserved : Prop) (method : String) (params : Value)
    (htight : tight → launches method params = true → reserved)
    (h : Standing i owner reserved False s) :
    (dispatchReserved i method params owner).run.Keeps (discipline tight past) i
      (fun result u => Standing i owner reserved True u ∧ Dispatched i owner result u) s := by
  refine Thread.keeps_run_bind ((keeps_dispatchMethod method params h).weaken ?_)
  rintro data u ⟨hu, hyields⟩
  cases data with
  | error _ => exact ⟨hu.entering, fun read heq => by cases heq⟩
  | ok data =>
      refine Thread.keeps_run_bind (((keeps_elsewhere hu).frame
        (R := fun v => ∀ operation, data = some operation →
          Launched i operation v ∧ launches method params = true)
        (fun _ _ hrely hv operation heq =>
          ⟨(hv operation heq).1.grows hrely.1, (hv operation heq).2⟩)
        (fun _ _ hgrows hv operation heq =>
          ⟨(hv operation heq).1.grows hgrows, (hv operation heq).2⟩)
        fun operation heq => hyields operation (by rw [heq])).weaken ?_)
      rintro result v ⟨hv, hlaunched⟩
      cases result with
      | error _ => exact ⟨hv.entering, fun read heq => by cases heq⟩
      | ok _ =>
          cases data with
          | none => exact ⟨hv.entering, fun read heq => by cases heq⟩
          | some operation =>
              obtain ⟨hlaunched, hlaunches⟩ := hlaunched operation rfl
              refine Thread.keeps_run_bind (Thread.keeps_bind ((keeps_trackOperation
                (fun ht => htight ht hlaunches) hlaunched hv).weaken ?_))
              rintro _ w ⟨hw, hregistered⟩
              refine Thread.keeps_run_bind (Thread.keeps_bind ?_)
              refine ((keeps_operationStatus hw).frame
                (R := fun x => (i, .registered owner) ∈ x.log)
                (fun _ _ hrely hx => hrely.1.log.subset hx)
                (fun _ _ hgrows hx => hgrows.log.subset hx)
                hregistered).weaken ?_
              rintro status x ⟨⟨hx, hreported⟩, hregistered'⟩
              refine Thread.keeps_run_bind (Thread.keeps_result ?_)
              cases status with
              | error _ => exact ⟨hx, fun read heq => by cases heq⟩
              | ok read =>
                  refine ⟨hx, fun read' heq => ?_⟩
                  cases heq
                  exact ⟨hreported.1, hreported.2.1.trans hlaunched.id, hregistered'⟩

/-- What a returned call tells. -/
def Post (past : Jobs) (i : Nat) (call : Call) (answer : Answer) (u : Jobs) : Prop :=
  held i u = [] ∧
    match call, answer with
    | .dispatch _ _ owner, .dispatched result => Dispatched i owner result u
    | .status id owner, .status result => Reported past i id owner result u
    | _, _ => True

theorem Post.rely {t : Jobs} {call : Call} {answer : Answer} (h : Post past i call answer s)
    (hrely : (discipline tight past).rely i s t) : Post past i call answer t := by
  refine ⟨hrely.2.2.trans h.1, ?_⟩
  have hpost := h.2
  split at hpost
  · exact hpost.grows hrely.1
  · exact hpost.grows hrely.1
  · trivial

/-- A request that only reads and refreshes. -/
theorem keeps_silent {m : Work Answer} {call : Call} (hm : m.Each fun s t => s.Sound → Quiet i s t)
    (hheld : held i s = [])
    (hdispatch : ∀ method params owner, call ≠ .dispatch method params owner)
    (hstatus : ∀ id owner, call ≠ .status id owner) :
    m.Keeps (discipline tight past) i (fun answer u => Post past i call answer u) s := by
  refine (hm.keeps_inv (D := discipline tight past) (R := fun u => held i u = [])
    (fun _ _ hvalid hquiet => (hquiet hvalid.1).allows hvalid)
    (fun _ _ hrely hs => hrely.2.2.trans hs)
    (fun _ _ hvalid hquiet hs => ?_) hheld).weaken fun answer u hu => ⟨hu, ?_⟩
  · rw [held, (hquiet hvalid.1).pending]
    exact hs
  · split
    next method params owner _ => exact absurd rfl (hdispatch method params owner)
    next id owner _ => exact absurd rfl (hstatus id owner)
    next => trivial

/-- A thread that has neither reserved nor registered. -/
theorem Standing.fresh (owner : Owner) (hown : own i s.log = []) (hheld : held i s = []) :
    Standing i owner False False s where
  only := by rw [hheld]; exact List.nil_subset _
  holds h := h.elim
  free _ := hheld
  enters := by
    rintro ⟨other, hother⟩
    rw [mem_own_iff, hown] at hother
    cases hother

theorem keeps_dispatch (method : String) (params : Value)
    (htight : tight → launches method params = true → mayStart method params = true)
    (hown : own i s.log = []) (hheld : held i s = []) :
    (dispatch i method params owner).Keeps (discipline tight past) i
      (fun answer u => Post past i (.dispatch method params owner) answer u) s := by
  refine Thread.keeps_bind ((keeps_quiet reads_quiet.refreshOperations
    (Standing.fresh owner hown hheld)).weaken fun _ u hu => ?_)
  split
  next hmay =>
    refine Thread.keeps_bind ((keeps_reserve hu).weaken fun result v hv => ?_)
    cases result with
    | error _ => exact ⟨hv, fun read heq => by cases heq⟩
    | ok _ =>
        refine Thread.keeps_bind
          ((keeps_dispatchReserved True method params (fun _ _ => trivial) hv).weaken ?_)
        rintro result w ⟨-, hdispatched⟩
        refine Thread.keeps_bind ((keeps_release.frame (R := fun x => Dispatched i owner result x)
          (fun _ _ hrely h => h.grows hrely.1) (fun _ _ hgrows h => h.grows hgrows)
          hdispatched).weaken ?_)
        rintro _ x ⟨hheld', hdispatched'⟩
        exact ⟨hheld', hdispatched'⟩
  next hmay =>
    refine Thread.keeps_bind ((keeps_dispatchReserved False method params
      (fun ht hlaunches => hmay (htight ht hlaunches)) hu).weaken ?_)
    rintro result w ⟨hw, hdispatched⟩
    exact ⟨hw.free fun h => h, hdispatched⟩

theorem keeps_status {id : Uuid} (hown : own i s.log = []) (hheld : held i s = []) :
    (status i id owner).Keeps (discipline tight past) i
      (fun answer u => Post past i (.status id owner) answer u) s := by
  refine Thread.keeps_bind ((keeps_quiet reads_quiet.refreshOperations
    (Standing.fresh owner hown hheld)).weaken fun _ u hu => ?_)
  refine Thread.keeps_bind ((keeps_operationStatus hu).weaken ?_)
  rintro result v ⟨hv, hreported⟩
  exact ⟨hv.free fun h => h, hreported⟩

/-- The calls that a tight run may make. -/
def Tight (call : Call) : Prop :=
  ∀ method params owner, call = .dispatch method params owner →
    launches method params = true → mayStart method params = true

theorem program_keeps (i : Nat) (call : Call) (htight : tight → Tight call)
    (hfresh : (discipline tight past).fresh i s) :
    (program i call).Keeps (discipline tight past) i
      (fun answer u => Post past i call answer u) s := by
  obtain ⟨hown, hheld⟩ := hfresh
  cases call with
  | dispatch method params owner =>
      exact keeps_dispatch method params (fun ht => htight ht method params owner rfl) hown hheld
  | status id owner => exact keeps_status hown hheld
  | _ =>
      exact keeps_silent (reads_quiet.program _ (by intro _ _ _ h; cases h)) hheld
        (by intro _ _ _ h; cases h) (by intro _ _ h; cases h)

end Parts

/-! ## Runs -/

/-- Every run keeps the discipline; the loads are bounded when every request that launches
has to reserve. -/
theorem service_keeps (tight : Prop) (now : Nat) (moves : List (Pool.Move Call Chance))
    (htight : tight → ∀ i call, .call i call ∈ moves → Tight call) :
    (discipline tight (initial now)).Keeps (Post (initial now))
      ((service now).after program moves) := by
  refine (Discipline.run_keeps_of (fun i call s hcall _ hfresh =>
    program_keeps i call (fun ht => htight ht i call hcall) hfresh) ?_ ?_).1
  · exact fun i call answer s t _ _ hrely hpost => hpost.rely hrely
  · exact Discipline.keeps_start ⟨sound_initial now, fun _ => bounded_initial now, .refl _⟩
      fun i => ⟨rfl, rfl⟩

end ClipDaemon.Jobs
