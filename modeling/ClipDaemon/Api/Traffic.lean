import ClipDaemon.Api.Admission
import ClipDaemon.Api.Statements

/-!
# Every interleaving of the API

The discipline of the requests on the book.  Most statements are `Quiet`: they read, refresh
or prune, whatever happened before.  Three need what their own thread did: a reservation, the
registration of the operation that the thread has launched, and the release.  The discipline
remembers a state `past` of the run, so that a request can be judged by what was so before
it was called.
-/

namespace ClipDaemon.Jobs

open ThreadLog

/-! ## Records stay while they are active -/

/-- An ended record has been announced, and a record goes only after that. -/
structure Kept (s : Jobs) : Prop where
  announced : ∀ entry ∈ s.book.records, entry.active = false →
    ∃ old ∈ seen entry.id s.log, old.ended
  stays : ∀ id owner, (id, .registered owner) ∈ s.log →
    (∃ entry ∈ s.book.records, entry.id = id ∧ entry.owner = owner) ∨
      ∃ old ∈ seen id s.log, old.ended

theorem seen_mono {log log' : List (Nat × JobEffect)} (h : log <+: log') {id : Uuid} :
    seen id log ⊆ seen id log' := by
  obtain ⟨more, rfl⟩ := h
  rw [seen_append]
  exact List.subset_append_left _ _

/-- What a statement must do for the records. -/
theorem Kept.step {s t : Jobs} (h : s.Kept) (hlog : s.log <+: t.log)
    (hregistered : ∀ id owner, (id, .registered owner) ∈ t.log →
      (id, .registered owner) ∈ s.log ∨ ∃ entry ∈ t.book.records, entry.id = id ∧
        entry.owner = owner)
    (hended : ∀ entry ∈ t.book.records, entry.active = false →
      (∃ old ∈ s.book.records, old.id = entry.id ∧ old.active = false) ∨
        ∃ old ∈ seen entry.id t.log, old.ended)
    (hkept : ∀ entry ∈ s.book.records,
      (∃ entry' ∈ t.book.records, entry'.id = entry.id ∧ entry'.owner = entry.owner) ∨
        entry.active = false) : t.Kept where
  announced entry hentry hactive := by
    rcases hended entry hentry hactive with ⟨old, hold, hid, hold'⟩ | hseen
    · obtain ⟨last, hlast, hlast'⟩ := h.announced old hold hold'
      rw [hid] at hlast
      exact ⟨last, seen_mono hlog hlast, hlast'⟩
    · exact hseen
  stays id owner hid := by
    rcases hregistered id owner hid with hold | hnew
    · rcases h.stays id owner hold with ⟨entry, hentry, rfl, rfl⟩ | ⟨old, hold, hold'⟩
      · rcases hkept entry hentry with ⟨entry', hentry', hid', howner'⟩ | hgone
        · exact .inl ⟨entry', hentry', hid', howner'⟩
        · obtain ⟨old, hold, hold'⟩ := h.announced entry hentry hgone
          exact .inr ⟨old, seen_mono hlog hold, hold'⟩
      · exact .inr ⟨old, seen_mono hlog hold, hold'⟩
    · exact .inl hnew

/-- The invariants that every statement keeps. -/
structure Sound (s : Jobs) : Prop where
  valid : s.Valid
  kept : s.Kept

theorem sound_initial (now : Nat) : (initial now).Sound where
  valid := valid_initial now
  kept := ⟨fun _ h => (by cases h), fun _ _ h => (by cases h)⟩

/-! ## What only grows -/

/-- The operation has ended, and its record says so. -/
structure Settled (id : Uuid) (s : Jobs) : Prop where
  ended : (trace id s.backend.log).ended ≠ []
  entered : Entered id s.log
  record : ∀ entry ∈ s.book.records, entry.id = id → entry.active = false

/-- Nothing that was known of an operation is taken back. -/
structure Grows (s t : Jobs) : Prop where
  log : s.log <+: t.log
  ended : ∀ id, (trace id s.backend.log).ended ≠ [] →
    (trace id t.backend.log).ended = (trace id s.backend.log).ended
  known : ∀ id ∈ s.backend.ids, id ∈ t.backend.ids
  absent : ∀ id, Operations.Absent id s.backend → Operations.Absent id t.backend
  settled : ∀ id, Settled id s → Settled id t

theorem Grows.refl (s : Jobs) : Grows s s :=
  ⟨List.prefix_rfl, fun _ _ => rfl, fun _ h => h, fun _ h => h, fun _ h => h⟩

theorem Grows.trans {s t u : Jobs} (h : Grows s t) (h' : Grows t u) : Grows s u where
  log := h.log.trans h'.log
  ended id hs := by
    have ht := h.ended id hs
    rw [← ht] at hs ⊢
    exact h'.ended id hs
  known id hs := h'.known id (h.known id hs)
  absent id hs := h'.absent id (h.absent id hs)
  settled id hs := h'.settled id (h.settled id hs)

/-- A record becomes active only when its operation has not ended, or is new to the book. -/
theorem grows_of {s t : Jobs} (h : s.Valid) (hlog : s.log <+: t.log)
    (hmoves : Operations.Moves s.backend t.backend)
    (hactive : ∀ entry ∈ t.book.records, entry.active = true →
      (∃ old ∈ s.book.records, old.id = entry.id ∧ old.active = true) ∨
        (trace entry.id s.backend.log).ended = [] ∨ ¬Entered entry.id s.log) :
    Grows s t where
  log := hlog
  ended id hs := h.backend.ended_stable hmoves hs
  known id hs := ((h.backend.moves hmoves).listed id).mpr
    (hmoves.grows.registered id ((h.backend.listed id).mp hs))
  absent id hs := h.backend.absent_stable hmoves hs
  settled id hs := by
    constructor
    · rw [h.backend.ended_stable hmoves hs.ended]
      exact hs.ended
    · obtain ⟨owner, howner⟩ := hs.entered
      exact ⟨owner, hlog.subset howner⟩
    · rintro entry hentry rfl
      cases hentry' : entry.active with
      | false => rfl
      | true =>
          rcases hactive entry hentry hentry' with ⟨old, hold, hid, hold'⟩ | hnil | hnew
          · rw [hs.record old hold hid] at hold'
            cases hold'
          · exact absurd hnil hs.ended
          · exact absurd hs.entered hnew

/-! ## Quiet statements -/

/-- What a statement does that neither reserves nor registers. -/
structure Quiet (i : Nat) (s t : Jobs) : Prop where
  sound : t.Sound
  bounded : s.Bounded → t.Bounded
  grows : Grows s t
  pending : t.book.pending = s.book.pending
  log : ∃ effects : List JobEffect, t.log = s.log ++ effects.map (Prod.mk i) ∧
    ∀ effect ∈ effects, ∀ owner, effect ≠ .registered owner ∧ effect ≠ .reserved owner

theorem Quiet.refl {i : Nat} {s : Jobs} (h : s.Sound) : Quiet i s s :=
  ⟨h, fun h => h, .refl s, rfl, [], by simp, by simp⟩

section Quiet

variable {s : Jobs} {i : Nat} {id : Uuid}

theorem quiet_backend {b : Operations} (h : s.Sound) (hkeeps : Operations.Keeps s.backend b) :
    Quiet i s { s with backend := b } := by
  have hmoves := hkeeps h.valid.backend.listed
  refine ⟨⟨h.valid.moves hmoves, ⟨h.kept.announced, h.kept.stays⟩⟩,
    fun hb => ⟨hb.total, hb.own, hb.size, hb.admitted⟩,
    grows_of h.valid List.prefix_rfl hmoves fun entry hentry hactive =>
      .inl ⟨entry, hentry, rfl, hactive⟩,
    rfl, [], by simp, by simp⟩

theorem quiet_prune (h : s.Sound) : Quiet i s s.prune := by
  have hsub : s.prune.book.records.Sublist s.book.records := List.filter_sublist
  have hmoves : Operations.Moves s.backend s.prune.backend := Operations.moves_refl _
  refine ⟨⟨h.valid.prune, ?_⟩, fun hb => ?_, grows_of h.valid List.prefix_rfl hmoves ?_, rfl, [],
    by simp [prune], by simp⟩
  · refine h.kept.step List.prefix_rfl (fun _ _ hid => .inl hid)
      (fun entry hentry hended => .inl ⟨entry, hsub.subset hentry, rfl, hended⟩)
        fun entry hentry => ?_
    cases hactive : entry.active with
    | true => exact .inl ⟨entry, List.mem_filter.mpr ⟨hentry, by simp [hactive]⟩, rfl, rfl⟩
    | false => exact .inr rfl
  · exact hb.of_load (fun p => load_mono hsub (List.Sublist.refl _) rfl) hsub.length_le
      List.prefix_rfl fun _ _ hid => hid
  · exact fun entry hentry hactive => .inl ⟨entry, hsub.subset hentry, rfl, hactive⟩

/-- A read adds to the log what the record says. -/
theorem quiet_read {owner : Owner} (h : s.Sound) : Quiet i s (s.readRecord i id owner).2 := by
  have hpruned : Quiet i s s.prune := quiet_prune h
  have hvalid : (s.readRecord i id owner).2.Valid := h.valid.readRecord
  rw [readRecord] at hvalid ⊢
  cases hfind : s.prune.book.find id with
  | none => exact hpruned
  | some entry =>
      rw [hfind] at hvalid
      simp only at hvalid ⊢
      split at hvalid
      next howner =>
        rw [if_pos howner]
        have hquiet : ∀ owner' : Owner,
            JobEffect.read entry.owner entry.revision entry.operation ≠ .registered owner' := by
          intro _ h
          cases h
        have hlog : s.prune.log <+: s.prune.log ++
            [(i, .read entry.owner entry.revision entry.operation)] :=
          List.prefix_append _ _
        refine ⟨⟨hvalid, hpruned.sound.kept.step hlog (fun id' owner' hid => .inl ?_)
          (fun entry' hentry' hended => .inl ⟨entry', hentry', rfl, hended⟩)
          fun entry' hentry' => .inl ⟨entry', hentry', rfl, rfl⟩⟩, fun hb => ?_,
          hpruned.grows.trans (grows_of hpruned.sound.valid hlog (Operations.moves_refl _)
            fun entry' hentry' hactive => .inl ⟨entry', hentry', rfl, hactive⟩), rfl,
          [.read entry.owner entry.revision entry.operation], rfl, ?_⟩
        · exact (registered_append hquiet id' owner').mp hid
        · exact (hpruned.bounded hb).of_load (fun p => (load_record hquiet).le) (Nat.le_refl _) hlog
            fun id' owner' hid => (registered_append hquiet id' owner').mp hid
        · intro effect heffect owner'
          rw [List.mem_singleton.mp heffect]
          exact ⟨hquiet owner', by intro h; cases h⟩
      next howner =>
        rw [if_neg howner]
        exact hpruned

/-- A newer version of an active record is kept and sent. -/
theorem quiet_emitted {entry : Record} {operation : OperationResult} (h : s.Sound)
    (hvalid : (emit i (entry.next operation s.now)
      { s with book := s.book.update (entry.next operation s.now) }).Valid)
    (hentry : entry ∈ s.book.records) (hactive : entry.active = true)
    (hid : operation.id = entry.id)
    (hstarted : operation.status = "started" → (trace entry.id s.backend.log).ended = []) :
    Quiet i s (emit i (entry.next operation s.now)
      { s with book := s.book.update (entry.next operation s.now) }) := by
  have hsilent : ∀ owner : Owner,
      JobEffect.emitted entry.owner (entry.revision + 1) operation ≠ .registered owner := by
    intro _ h
    cases h
  have hmem : ∀ other ∈ (s.book.update (entry.next operation s.now)).records,
      other = entry.next operation s.now ∨ other ∈ s.book.records := by
    intro other hother
    obtain ⟨old, hold, rfl⟩ := List.mem_map.mp hother
    split
    · exact .inl rfl
    · exact .inr hold
  refine ⟨⟨hvalid, ?_⟩, fun hb => ?_, ?_, rfl,
    [.emitted entry.owner (entry.revision + 1) operation],
    rfl, ?_⟩
  · refine h.kept.step (List.prefix_append _ _) (fun id owner hmem => .inl ?_)
      (fun other hother hended => ?_) fun other hother => .inl ?_
    · exact (registered_append hsilent id owner).mp hmem
    · rcases hmem other hother with rfl | hold
      · refine .inr ⟨⟨true, entry.owner, entry.revision + 1, operation⟩, ?_, ?_⟩
        · change _ ∈ seen entry.id
            (s.log ++ [(i, .emitted entry.owner (entry.revision + 1) operation)])
          have hshows : shows entry.id
              (i, JobEffect.emitted entry.owner (entry.revision + 1) operation) =
              some ⟨true, entry.owner, entry.revision + 1, operation⟩ := if_pos hid
          rw [seen_of_some hshows]
          exact List.mem_append_right _ (List.mem_singleton_self _)
        · exact of_decide_eq_false hended
      · exact .inl ⟨other, hold, rfl, hended⟩
    · refine ⟨_, List.mem_map_of_mem hother, ?_⟩
      split
      next heq =>
        have hsame : other = entry := List.inj_on_of_nodup_map h.valid.keys hother hentry heq
        subst hsame
        exact ⟨rfl, rfl⟩
      next => exact ⟨rfl, rfl⟩
  · refine hb.of_load (fun p => ?_) (List.length_map _).le (List.prefix_append _ _)
      fun id owner hid => (registered_append hsilent id owner).mp hid
    exact (load_record hsilent).trans_le (load_update h.valid hentry hactive)
  · refine grows_of h.valid (List.prefix_append _ _)
      (Operations.moves_refl _) fun other hother hlive => ?_
    rcases hmem other hother with rfl | hold
    · exact .inr (.inl (hstarted (of_decide_eq_true hlive)))
    · exact .inl ⟨other, hold, rfl, hlive⟩
  · intro effect heffect owner
    rw [List.mem_singleton.mp heffect]
    exact ⟨hsilent owner, by intro h; cases h⟩

theorem Quiet.trans {t u : Jobs} (h : Quiet i s t) (h' : Quiet i t u) : Quiet i s u where
  sound := h'.sound
  bounded hb := h'.bounded (h.bounded hb)
  grows := h.grows.trans h'.grows
  pending := h'.pending.trans h.pending
  log := by
    obtain ⟨effects, hlog, hquiet⟩ := h.log
    obtain ⟨effects', hlog', hquiet'⟩ := h'.log
    refine ⟨effects ++ effects', by rw [hlog', hlog, List.map_append, List.append_assoc], ?_⟩
    intro effect heffect
    exact (List.mem_append.mp heffect).elim (hquiet effect) (hquiet' effect)

theorem quiet_refresh (h : s.Sound) : Quiet i s (s.refresh i id) := by
  have hvalid : (s.refresh i id).Valid := h.valid.refresh
  rw [refresh] at hvalid ⊢
  cases hfind : s.book.find id with
  | none => exact .refl h
  | some entry =>
      obtain ⟨hentry, rfl⟩ := find_some hfind
      rw [hfind] at hvalid
      cases hactive : entry.active with
      | false =>
          simp only [hactive, Bool.false_eq_true, if_false]
          exact .refl h
      | true =>
          obtain ⟨operation, hcurrent, hid, -, -, hstarted⟩ := h.valid.current hentry
          have hmoves := Operations.moves_status entry.id s.backend
          have hmoved : Quiet i s { s with backend := (s.backend.status entry.id).2 } :=
            quiet_backend h hmoves.keeps
          simp only [hactive, if_true, hcurrent] at hvalid ⊢
          split at hvalid
          next heq =>
            rw [if_pos heq]
            exact hmoved
          next hne =>
            rw [if_neg hne]
            exact hmoved.trans (quiet_emitted hmoved.sound hvalid hentry hactive hid hstarted)

theorem reads_quiet : Reads i fun s t => s.Sound → Quiet i s t where
  refl _ h := .refl h
  backend _ _ hkeeps h := quiet_backend h hkeeps
  refresh _ _ h := quiet_refresh h
  prune _ h := quiet_prune h
  read _ _ _ h := quiet_read h

end Quiet

/-! ## The discipline -/

/-- The reservation of a thread. -/
def held (i : Nat) (s : Jobs) : List (Nat × Owner) := s.book.pending.filter fun entry => entry.1 = i

/-- Runs that go on from `past`; the loads are bounded when `tight` holds. -/
def discipline (tight : Prop) (past : Jobs) : Discipline Jobs where
  valid s := s.Sound ∧ (tight → s.Bounded) ∧ Grows past s
  grows := Grows
  rely i s t := Grows s t ∧ own i t.log = own i s.log ∧ held i t = held i s
  fresh i s := own i s.log = [] ∧ held i s = []
  grows_refl := .refl
  grows_trans := .trans
  rely_refl _ s := ⟨.refl s, rfl, rfl⟩
  rely_trans h h' := ⟨h.1.trans h'.1, h'.2.1.trans h.2.1, h'.2.2.trans h.2.2⟩
  fresh_rely h hs := ⟨h.2.1.trans hs.1, h.2.2.trans hs.2⟩

section Discipline

variable {tight : Prop} {past s t : Jobs} {i : Nat} {owner : Owner}

/-- A statement that logs what its thread did, and leaves the reservations of others. -/
theorem allows_of (h : (discipline tight past).valid s) (hsound : t.Sound)
    (hbounded : tight → s.Bounded → t.Bounded) (hgrows : Grows s t)
    (hlog : ∃ effects : List JobEffect, t.log = s.log ++ effects.map (Prod.mk i))
    (hheld : ∀ j, j ≠ i → held j t = held j s) : (discipline tight past).Allows i s t := by
  refine ⟨⟨hsound, fun htight => hbounded htight (h.2.1 htight), h.2.2.trans hgrows⟩, hgrows,
    fun j hne => ⟨hgrows, ?_, hheld j hne⟩⟩
  obtain ⟨effects, hlog⟩ := hlog
  have hother : own j (effects.map (Prod.mk i)) = [] := by
    refine List.filter_eq_nil_iff.mpr fun entry hentry => ?_
    obtain ⟨effect, -, rfl⟩ := List.mem_map.mp hentry
    simpa using hne.symm
  rw [hlog, own_append, hother, List.append_nil]

theorem Quiet.allows (h : (discipline tight past).valid s) (hquiet : Quiet i s t) :
    (discipline tight past).Allows i s t := by
  obtain ⟨effects, hlog, -⟩ := hquiet.log
  exact allows_of h hquiet.sound (fun _ => hquiet.bounded) hquiet.grows ⟨effects, hlog⟩
    fun j _ => by rw [held, hquiet.pending, held]

/-- What a thread knows of its own reservation and registration. -/
structure Standing (i : Nat) (owner : Owner) (reserved entered : Prop) (s : Jobs) : Prop where
  only : held i s ⊆ [(i, owner)]
  holds : reserved → (i, owner) ∈ s.book.pending ∧ (i, .reserved owner) ∈ s.log
  free : ¬reserved → held i s = []
  enters : Entered i s.log → entered

theorem mem_own_iff {effect : JobEffect} : (i, effect) ∈ s.log ↔ (i, effect) ∈ own i s.log := by
  simp [own]

theorem mem_held_iff : (i, owner) ∈ s.book.pending ↔ (i, owner) ∈ held i s := by simp [held]

variable {reserved entered : Prop}

theorem Standing.rely (h : Standing i owner reserved entered s)
    (hrely : (discipline tight past).rely i s t) : Standing i owner reserved entered t where
  only := by rw [hrely.2.2]; exact h.only
  holds hreserved := by
    obtain ⟨hpending, hlog⟩ := h.holds hreserved
    rw [mem_own_iff, ← hrely.2.1, ← mem_own_iff] at hlog
    rw [mem_held_iff, ← hrely.2.2, ← mem_held_iff] at hpending
    exact ⟨hpending, hlog⟩
  free hreleased := by rw [hrely.2.2]; exact h.free hreleased
  enters := by
    rintro ⟨owner', howner'⟩
    rw [mem_own_iff, hrely.2.1, ← mem_own_iff] at howner'
    exact h.enters ⟨owner', howner'⟩

theorem Standing.quiet (h : Standing i owner reserved entered s) (hquiet : Quiet i s t) :
    Standing i owner reserved entered t where
  only := by rw [held, hquiet.pending]; exact h.only
  holds hreserved := by
    obtain ⟨hpending, hlog⟩ := h.holds hreserved
    rw [hquiet.pending]
    exact ⟨hpending, hquiet.grows.log.subset hlog⟩
  free hreleased := by rw [held, hquiet.pending]; exact h.free hreleased
  enters := by
    rintro ⟨owner', howner'⟩
    obtain ⟨effects, hlog, hsilent⟩ := hquiet.log
    rw [hlog] at howner'
    rcases List.mem_append.mp howner' with hold | hnew
    · exact h.enters ⟨owner', hold⟩
    · obtain ⟨effect, heffect, heq⟩ := List.mem_map.mp hnew
      cases heq
      exact absurd rfl (hsilent _ heffect owner').1

/-- A quiet part of a request keeps what its thread knows. -/
theorem keeps_quiet {α : Type} {m : Work α} (hm : m.Each fun s t => s.Sound → Quiet i s t)
    (h : Standing i owner reserved entered s) :
    m.Keeps (discipline tight past) i (fun _ u => Standing i owner reserved entered u) s :=
  hm.keeps_inv (fun _ _ hvalid hquiet => (hquiet hvalid.1).allows hvalid)
    (fun _ _ hrely hs => hs.rely hrely) (fun _ _ hvalid hquiet hs => hs.quiet (hquiet hvalid.1)) h

end Discipline

/-! ## Registration -/

section Registration

variable {s : Jobs} {i : Nat} {owner : Owner} {operation : OperationResult}

/-- The state after the registration of an operation. -/
def entering (i : Nat) (owner : Owner) (operation : OperationResult) (s : Jobs) : Jobs :=
  emit i ⟨i, owner, operation, 1, s.now⟩ (record i (.registered owner)
    { s with book := s.book.insert ⟨i, owner, operation, 1, s.now⟩ })

theorem entering_log : (entering i owner operation s).log =
    s.log ++ [.registered owner, .emitted owner 1 operation].map (Prod.mk i) := by
  simp [entering, emit, record]

theorem entering_records (owner : Owner) (operation : OperationResult) (h : s.Valid)
    (hnew : ¬Entered i s.log) :
    (entering i owner operation s).book.records =
      s.book.records ++ [⟨i, owner, operation, 1, s.now⟩] := by
  have hkept : (s.book.records.filter fun other => other.id ≠ i) = s.book.records :=
    List.filter_eq_self.mpr fun entry hentry => by simpa using h.no_record hnew entry hentry
  exact congrArg (· ++ [(⟨i, owner, operation, 1, s.now⟩ : Record)]) hkept

/-- The record of a new operation takes the place of its reservation. -/
theorem load_entering (operation : OperationResult) (h : s.Valid) (hnew : ¬Entered i s.log)
    (hheld : (i, owner) ∈ s.book.pending)
    (p : Owner → Bool) : load p (entering i owner operation s) ≤ load p s := by
  rw [load, load, entering_records owner operation h hnew, List.countP_append,
    List.countP_singleton]
  have hentered : ∀ j, Entered j s.log → Entered j (entering i owner operation s).log := by
    rintro j ⟨owner', hj⟩
    rw [entering_log]
    exact ⟨owner', List.mem_append_left _ hj⟩
  have hless : ∀ held ∈ s.book.pending,
      (!decide (Entered held.1 (entering i owner operation s).log) && p held.2) = true →
        (!decide (Entered held.1 s.log) && p held.2) = true := by
    intro held _ hcounts
    simp only [Bool.and_eq_true, Bool.not_eq_true', decide_eq_false_iff_not] at hcounts ⊢
    exact ⟨fun hold => hcounts.1 (hentered held.1 hold), hcounts.2⟩
  change _ + s.book.pending.countP _ ≤ _
  cases hp : p owner with
  | false =>
      simp only [Bool.and_false, Bool.false_eq_true, if_false, Nat.add_zero]
      exact Nat.add_le_add_left (List.countP_mono_left hless) _
  | true =>
      have hi : Entered i (entering i owner operation s).log := by
        rw [entering_log]
        exact ⟨owner, List.mem_append_right _ (by simp)⟩
      have hlose := countP_lose (fun held => !decide (Entered held.1 s.log) && p held.2)
        (fun held => !decide (Entered held.1 (entering i owner operation s).log) && p held.2)
        hheld (by simp [hnew, hp]) (by simp [hi]) hless
      have hone : (if (Record.active ⟨i, owner, operation, 1, s.now⟩ && true) = true then 1
          else 0) ≤ 1 := by
        split <;> omega
      omega

/-- What a registration does, of an operation as the backend shows it. -/
theorem sound_entering (h : s.Sound) (hnew : ¬Entered i s.log) (hid : operation.id = i)
    (hknown : i ∈ s.backend.ids) (hhonest : Honest i s.backend operation)
    (hupdated : operation.status ≠ "started" → Operations.Absent i s.backend ∨
      ∃ time ≤ s.now, (time, operation) ∈ (trace i s.backend.log).ended) :
    (entering i owner operation s).Sound ∧ Grows s (entering i owner operation s) := by
  have hlog : s.log <+: (entering i owner operation s).log := by
    rw [entering_log]
    exact List.prefix_append _ _
  have hrecords := entering_records owner operation h.valid hnew
  have hmem : ∀ entry ∈ (entering i owner operation s).book.records,
      entry ∈ s.book.records ∨ entry = ⟨i, owner, operation, 1, s.now⟩ := by
    intro entry hentry
    rw [hrecords] at hentry
    exact (List.mem_append.mp hentry).imp_right List.mem_singleton.mp
  refine ⟨⟨h.valid.registered hnew hid hknown hhonest hupdated,
    h.kept.step hlog (fun id owner' hmem' => ?_)
    (fun entry hentry hended => ?_) fun entry hentry => .inl ⟨entry, ?_, rfl, rfl⟩⟩,
    grows_of h.valid hlog (Operations.moves_refl _) fun entry hentry hactive => ?_⟩
  · rw [entering_log] at hmem'
    rcases List.mem_append.mp hmem' with hold | hlast
    · exact .inl hold
    · refine .inr ⟨⟨i, owner, operation, 1, s.now⟩, ?_, ?_⟩
      · rw [hrecords]
        exact List.mem_append_right _ (List.mem_singleton_self _)
      · simp only [List.map_cons, List.map_nil, List.mem_cons, Prod.mk.injEq, List.not_mem_nil,
          or_false, reduceCtorEq, and_false, JobEffect.registered.injEq] at hlast
        exact ⟨hlast.1.symm, hlast.2.symm⟩
  · rcases hmem entry hentry with hold | rfl
    · exact .inl ⟨entry, hold, rfl, hended⟩
    · refine .inr ⟨⟨true, owner, 1, operation⟩, ?_, of_decide_eq_false hended⟩
      have hshows : shows i (i, JobEffect.emitted owner 1 operation) =
          some ⟨true, owner, 1, operation⟩ :=
        if_pos hid
      change _ ∈ seen i ((s.log ++ [(i, .registered owner)]) ++ [(i, .emitted owner 1 operation)])
      rw [seen_of_some hshows]
      exact List.mem_append_right _ (List.mem_singleton_self _)
  · rw [hrecords]
    exact List.mem_append_left _ hentry
  · rcases hmem entry hentry with hold | rfl
    · exact .inl ⟨entry, hold, rfl, hactive⟩
    · exact .inr (.inr hnew)

/-! ### Evictions -/

/-- The state after an eviction. -/
def evicting (i : Nat) (victim : Uuid) (s : Jobs) : Jobs :=
  record i (.evicted victim) { s with book := { s.book with
    records := s.book.records.filter fun record => record.id ≠ victim } }

/-- A victim has ended. -/
theorem ended_of_oldest {book : Book} {victim : Uuid} (h : victim ∈ book.oldest) :
    ∃ entry ∈ book.records, entry.id = victim ∧ entry.active = false := by
  obtain ⟨entry, hentry, hid⟩ := List.mem_map.mp h
  obtain ⟨hmem, hended⟩ := List.mem_filter.mp hentry
  rw [Bool.and_eq_true, Bool.not_eq_true'] at hended
  exact ⟨entry, hmem, hid, hended.1⟩

theorem sound_evicting {victim : Uuid} (h : s.Sound) (hvictim : victim ∈ s.book.oldest) :
    (evicting i victim s).Sound ∧ Grows s (evicting i victim s) ∧
      (∀ p, load p (evicting i victim s) ≤ load p s) ∧
      (evicting i victim s).book.records.length + 1 ≤ s.book.records.length := by
  obtain ⟨last, hlast, hid, hended⟩ := ended_of_oldest hvictim
  have hsub : (evicting i victim s).book.records.Sublist s.book.records := List.filter_sublist
  have hlog : s.log <+: (evicting i victim s).log := List.prefix_append _ _
  refine ⟨⟨h.valid.evicted victim, h.kept.step hlog (fun id owner hmem => .inl ?_)
    (fun entry hentry hended => .inl ⟨entry, hsub.subset hentry, rfl, hended⟩)
      fun entry hentry => ?_⟩,
    grows_of h.valid hlog (Operations.moves_refl _) fun entry hentry hactive =>
      .inl ⟨entry, hsub.subset hentry, rfl, hactive⟩, fun p => ?_, ?_⟩
  · rcases List.mem_append.mp hmem with hold | hnew
    · exact hold
    · cases List.mem_singleton.mp hnew
  · rcases eq_or_ne entry.id victim with heq | hne
    · right
      have hsame : entry = last :=
        List.inj_on_of_nodup_map h.valid.keys hentry hlast (heq.trans hid.symm)
      rw [hsame]
      exact hended
    · exact .inl ⟨entry, List.mem_filter.mpr ⟨hentry, by simpa using hne⟩, rfl, rfl⟩
  · exact (load_record (by intro _ h; cases h)).trans_le
      (load_mono hsub (List.Sublist.refl _) rfl)
  · have hless :
        (s.book.records.filter fun record => record.id ≠ victim).length < s.book.records.length :=
      List.length_filter_lt_length_iff_exists.mpr ⟨last, hlast, by simpa using hid⟩
    exact hless

/-! ### The statement -/

/-- What a registration leaves behind. -/
structure Tracked (i : Nat) (owner : Owner) (s t : Jobs) : Prop where
  sound : t.Sound
  grows : Grows s t
  log : ∃ effects : List JobEffect, t.log = s.log ++ effects.map (Prod.mk i)
  pending : t.book.pending = s.book.pending
  bounded : (i, owner) ∈ s.book.pending → (i, .reserved owner) ∈ s.log → s.Bounded → t.Bounded

/-- The operation that is entered is as the backend shows it. -/
theorem entered_current {first : OperationResult} (h : s.Valid) (hid : first.id = i)
    (hfirst : first.status = "started") (hknown : i ∈ s.backend.ids)
    (hcurrent : operation = (s.backend.status i).1.getD first) :
    operation.id = i ∧ Honest i s.backend operation ∧
      (operation.status ≠ "started" → Operations.Absent i s.backend ∨
        ∃ time ≤ s.now, (time, operation) ∈ (trace i s.backend.log).ended) := by
  subst hcurrent
  have hreading := h.backend.reading hknown
  generalize hstatus : (s.backend.status i).1 = read at hreading
  cases hreading with
  | started first' hid' hstarted hended =>
      exact ⟨hid', .started hstarted, fun hne => absurd hstarted hne⟩
  | ended entry hentry htime =>
      exact ⟨h.backend.event_id hentry, .ended entry.1 hentry,
        fun _ => .inr ⟨entry.1, htime, hentry⟩⟩
  | absent hended hinactive =>
      exact ⟨hid, .started hfirst, fun hne => absurd hfirst hne⟩

/-- A registration that has room. -/
theorem tracked_room {base : Jobs} (hquiet : Quiet i s base) (hnew : ¬Entered i base.log)
    (hentering : (entering i owner operation base).Sound ∧
      Grows base (entering i owner operation base))
    (hroom : s.Bounded → base.book.records.length < MAX_RECORDS) :
    Tracked i owner s (entering i owner operation base) where
  sound := hentering.1
  grows := hquiet.grows.trans hentering.2
  log := by
    obtain ⟨effects, hlog, -⟩ := hquiet.log
    exact ⟨effects ++ [.registered owner, .emitted owner 1 operation], by
      rw [entering_log, hlog, List.map_append, List.append_assoc]⟩
  pending := hquiet.pending
  bounded hheld hreserved hbounded := by
    have hbase := hquiet.bounded hbounded
    rw [← hquiet.pending] at hheld
    have hload := load_entering operation hquiet.sound.valid hnew hheld
    refine ⟨(hload _).trans hbase.total, fun owner' => (hload _).trans (hbase.own owner'), ?_,
      fun id owner' hid => ?_⟩
    · rw [entering_records owner operation hquiet.sound.valid hnew, List.length_append]
      exact hroom hbounded
    · rw [entering_log] at hid ⊢
      rcases List.mem_append.mp hid with hold | hlast
      · exact List.mem_append_left _ (hbase.admitted id owner' hold)
      · simp only [List.map_cons, List.map_nil, List.mem_cons, Prod.mk.injEq, List.not_mem_nil,
          or_false, reduceCtorEq, and_false, JobEffect.registered.injEq] at hlast
        obtain ⟨rfl, rfl⟩ := hlast
        exact List.mem_append_left _ (hquiet.grows.log.subset hreserved)

/-- The victim is dropped without a registration. -/
theorem quiet_evicting {victim : Uuid} (h : s.Sound) (hvictim : victim ∈ s.book.oldest) :
    Quiet i s (evicting i victim s) := by
  obtain ⟨hsound, hgrows, hload, hsize⟩ := sound_evicting (i := i) h hvictim
  have hsilent : ∀ owner : Owner, JobEffect.evicted victim ≠ .registered owner := by
    intro _ h
    cases h
  refine ⟨hsound, fun hb => ?_, hgrows, rfl, [.evicted victim], rfl, fun effect heffect owner => ?_⟩
  · exact hb.of_load hload (Nat.le_of_succ_le hsize) hgrows.log
      fun id owner hid => (registered_append hsilent id owner).mp hid
  · rw [List.mem_singleton.mp heffect]
    exact ⟨hsilent owner, by intro h; cases h⟩

/-- What a registration does: the backend is read, the book pruned and, when it is full,
relieved of a record; then the operation is entered. -/
theorem Sound.track (owner : Owner) {first : OperationResult} {victim : Option Uuid} {t : Jobs}
    (h : s.Sound)
    (hnew : ¬Entered i s.log) (hid : first.id = i) (hfirst : first.status = "started")
    (hknown : i ∈ s.backend.ids) (htrack : s.track i first owner victim = some t) :
    Tracked i owner s t ∧ (i, .registered owner) ∈ t.log := by
  obtain ⟨operation, hoperation⟩ :
      ∃ operation, operation = (s.backend.status i).1.getD first := ⟨_, rfl⟩
  obtain ⟨hid', hhonest, hupdated⟩ := entered_current h.valid hid hfirst hknown hoperation
  have hmoves := Operations.moves_status i s.backend
  have hmoved : Quiet i s { s with backend := (s.backend.status i).2 } :=
    quiet_backend h hmoves.keeps
  generalize hbase : ({ s with backend := (s.backend.status i).2 } : Jobs).prune = base
  have hquiet : Quiet i s base := by
    rw [← hbase]
    exact hmoved.trans (quiet_prune hmoved.sound)
  have hhonest' : Honest i base.backend operation := by
    rw [← hbase]
    exact hhonest.moves h.valid.backend hmoves
  have hknown' : i ∈ base.backend.ids := hquiet.grows.known i hknown
  have hupdated' : operation.status ≠ "started" → Operations.Absent i base.backend ∨
      ∃ time ≤ base.now, (time, operation) ∈ (trace i base.backend.log).ended := by
    intro hended
    rw [← hbase]
    exact (hupdated hended).imp_left (h.valid.backend.absent_stable hmoves)
  have hnew' : ¬Entered i base.log := by
    rw [← hbase]
    exact hnew
  simp only [Jobs.track, hid] at htrack
  rw [← hoperation] at htrack
  obtain ⟨⟨gone, book⟩, hregister, ht⟩ := Option.map_eq_some_iff.mp htrack
  have hentered : ∀ u : Jobs, (i, JobEffect.registered owner) ∈
      (entering i owner operation u).log := by
    intro u
    rw [entering_log]
    exact List.mem_append_right _ (by simp)
  simp only [Book.register, hid'] at hregister
  split at hregister
  next hfull =>
    cases victim with
    | none => cases hregister
    | some victim =>
        simp only at hregister
        split at hregister
        next hvictim =>
          cases hregister
          have hoverdue : victim ∈ base.book.oldest := by
            rw [← hbase]
            exact hvictim
          have hevicted : Quiet i base (evicting i victim base) :=
            quiet_evicting hquiet.sound hoverdue
          have hnew'' : ¬Entered i (evicting i victim base).log := fun hentered =>
            hnew' ((entered_append (by intro _ h; cases h) i).mp hentered)
          have ht' : t = entering i owner operation (evicting i victim base) := by
            rw [← ht, ← hbase]
            simp only [hid']
            rfl
          rw [ht']
          refine ⟨tracked_room (hquiet.trans hevicted) hnew''
            (sound_entering hevicted.sound hnew'' hid'
            hknown' hhonest' hupdated') fun hb => ?_, hentered _⟩
          have hsize := (sound_evicting (i := i) hquiet.sound hoverdue).2.2.2
          exact Nat.lt_of_lt_of_le (Nat.lt_of_succ_le hsize) (hquiet.bounded hb).size
        next => cases hregister
  next hroom =>
    cases hregister
    have ht' : t = entering i owner operation base := by
      rw [← ht, ← hbase]
      simp only [hid']
      rfl
    rw [ht']
    refine ⟨tracked_room hquiet hnew' (sound_entering hquiet.sound hnew' hid' hknown' hhonest'
      hupdated') fun hb => ?_, hentered _⟩
    by_contra hfull
    refine hroom ⟨?_, ?_⟩
    · rw [← hbase] at hfull
      exact Nat.not_lt.mp hfull
    · have holdest := (hquiet.bounded hb).oldest (Nat.not_lt.mp hfull)
      rw [← hbase] at holdest
      exact holdest

end Registration

end ClipDaemon.Jobs
