import ClipDaemon.Daemon.Turns
import ClipDaemon.Lib.Guarantee

/-!
# Callers that leave

A caller may leave while requests of its own are under way, and the cleanup of what it holds
takes its locks one after another.  What a request registers after the cleanup went by is
dropped by the request itself: it looks once more whether its caller is there
(`daemon.rs`, `daemon/owner.rs`).

`departed_holds_nothing` is about every order of all these statements.  Each request that has
returned answers for the tokens of its number: what was swept of its caller, it does not hold.
-/

namespace ClipDaemon.Daemon

variable {F α : Type}

/-! ## What the others leave alone -/

/-- The token of that kind and number does not belong to the owner. -/
def Free (a : Authority) (name : String) (i : Nat) : Held → Prop
  | .sessions => ∀ session, a.sessions i = some session → session.owner ≠ some name
  | .edits => ∀ lease, a.edits i = some lease → lease.owner ≠ some name
  | .challenges => ∀ challenge, a.challenges i = some challenge → challenge.owner ≠ some name

theorem Dropped.free {a : Authority} {name : String} {held : Held} (h : Dropped a name held)
    (i : Nat) : Free a name i held := by
  cases held with
  | sessions => exact h i
  | edits => exact h i
  | challenges => exact h i

theorem dropped_of_free {a : Authority} {name : String} {held : Held}
    (h : ∀ i, Free a name i held) : Dropped a name held := by
  cases held with
  | sessions => exact h
  | edits => exact h
  | challenges => exact h

/-- The tokens of a number come from before, and belong to whom they did. -/
structure Inherits (i : Nat) (a b : Authority) : Prop where
  sessions : ∀ session, b.sessions i = some session →
    ∃ old, a.sessions i = some old ∧ old.owner = session.owner
  edits : ∀ lease, b.edits i = some lease → a.edits i = some lease
  challenges : ∀ challenge, b.challenges i = some challenge → a.challenges i = some challenge

theorem Inherits.refl (i : Nat) (a : Authority) : Inherits i a a :=
  ⟨fun session h => ⟨session, h, rfl⟩, fun _ h => h, fun _ h => h⟩

theorem Inherits.trans {i : Nat} {a b c : Authority} (h : Inherits i a b) (h' : Inherits i b c) :
    Inherits i a c where
  sessions session hsession := by
    obtain ⟨old, hold, heq⟩ := h'.sessions session hsession
    obtain ⟨oldest, holdest, heq'⟩ := h.sessions old hold
    exact ⟨oldest, holdest, heq'.trans heq⟩
  edits lease hlease := h.edits lease (h'.edits lease hlease)
  challenges challenge hchallenge := h.challenges challenge (h'.challenges challenge hchallenge)

theorem Inherits.free {i : Nat} {a b : Authority} {name : String} {held : Held}
    (h : Inherits i a b) (hfree : Free a name i held) : Free b name i held := by
  cases held with
  | sessions =>
      intro session hsession
      obtain ⟨old, hold, heq⟩ := h.sessions session hsession
      exact heq ▸ hfree old hold
  | edits => exact fun lease hlease => hfree lease (h.edits lease hlease)
  | challenges =>
      exact fun challenge hchallenge => hfree challenge (h.challenges challenge hchallenge)

/-- What request `i` finds between two of its statements. -/
structure Meanwhile (i : Nat) (s t : Daemon F) : Prop where
  inherits : Inherits i s.authority t.authority
  departed : ∀ name, s.departed name = true → t.departed name = true
  swept : ∀ held name, s.swept held name = true → t.swept held name = true
  sweeps : ∀ held name, t.swept held name = true →
    s.swept held name = true ∨ Free t.authority name i held

/-- Only what belongs to an owner that is gone is swept. -/
def Marked (s : Daemon F) : Prop := ∀ held name, s.swept held name = true → s.departed name = true

/-- Nothing bears the number. -/
structure Unused (i : Nat) (s : Daemon F) : Prop where
  sessions : s.authority.sessions i = none
  edits : s.authority.edits i = none
  challenges : s.authority.challenges i = none

/-- What is held by an owner that was marked as gone is dropped. -/
def departure : Discipline (Daemon F) where
  valid := Marked
  grows _ _ := True
  rely := Meanwhile
  fresh := Unused
  grows_refl _ := trivial
  grows_trans _ _ := trivial
  rely_refl i s := ⟨.refl i s.authority, fun _ h => h, fun _ _ h => h, fun _ _ h => .inl h⟩
  rely_trans h h' :=
    { inherits := h.inherits.trans h'.inherits
      departed := fun name hname => h'.departed name (h.departed name hname)
      swept := fun held name hname => h'.swept held name (h.swept held name hname)
      sweeps := fun held name hname => by
        rcases h'.sweeps held name hname with hswept | hfree
        · exact (h.sweeps held name hswept).imp_right h'.inherits.free
        · exact .inr hfree }
  fresh_rely h hfresh :=
    { sessions := Option.eq_none_iff_forall_ne_some.mpr fun session hsession => by
        obtain ⟨old, hold, -⟩ := h.inherits.sessions session hsession
        rw [hfresh.sessions] at hold
        cases hold
      edits := Option.eq_none_iff_forall_ne_some.mpr fun lease hlease => by
        have hold := h.inherits.edits lease hlease
        rw [hfresh.edits] at hold
        cases hold
      challenges := Option.eq_none_iff_forall_ne_some.mpr fun challenge hchallenge => by
        have hold := h.inherits.challenges challenge hchallenge
        rw [hfresh.challenges] at hold
        cases hold }

section Departure

variable {P : Platform} {H : Machine F} {rights : Rights} {i j : Nat}
  {owner : Owner} {s t : Daemon F}

theorem Turn.inherits (h : Turn P rights i owner s t) (hne : j ≠ i) :
    Inherits j s.authority t.authority where
  sessions session hsession := (h.sessions j session hsession).resolve_right fun hi => hne hi.1
  edits lease hlease := (h.edits j lease hlease).resolve_right fun hi => hne hi.1
  challenges challenge hchallenge :=
    (h.challenges j challenge hchallenge).resolve_right fun hi => hne hi.1

/-- A statement keeps the tokens of its own number from others than whom it serves. -/
theorem Turn.free {name : String} {held : Held} (h : Turn P rights i owner s t)
    (hne : owner ≠ some name) (hfree : Free s.authority name i held) :
    Free t.authority name i held := by
  cases held with
  | sessions =>
      intro session hsession
      rcases h.sessions i session hsession with ⟨old, hold, heq⟩ | ⟨-, heq⟩
      · exact heq ▸ hfree old hold
      · exact heq ▸ hne
  | edits =>
      intro lease hlease
      rcases h.edits i lease hlease with hold | ⟨-, heq, -⟩
      · exact hfree lease hold
      · exact heq ▸ hne
  | challenges =>
      intro challenge hchallenge
      rcases h.challenges i challenge hchallenge with hold | ⟨-, heq⟩
      · exact hfree challenge hold
      · exact heq ▸ hne

theorem Turn.meanwhile (h : Turn P rights i owner s t) (hne : j ≠ i) : Meanwhile j s t where
  inherits := h.inherits hne
  departed name hname := by rw [h.departed]; exact hname
  swept := h.swept
  sweeps held name hname := (h.sweeps held name hname).imp_right fun hd => hd.2.free j

theorem Turn.marked (h : Turn P rights i owner s t) (hs : Marked s) : Marked t := by
  intro held name hname
  rw [h.departed]
  rcases h.sweeps held name hname with hswept | ⟨hdeparted, -⟩
  · exact hs held name hswept
  · exact hdeparted

theorem Turn.allows (h : Turn P rights i owner s t) (hs : Marked s) : departure.Allows i s t :=
  ⟨h.marked hs, trivial, fun _ hne => h.meanwhile hne⟩

theorem mark_meanwhile (name : String) (s : Daemon F) : Meanwhile j s (mark name s) where
  inherits := .refl j s.authority
  departed other hother := by
    rw [mark]
    rcases eq_or_ne other name with rfl | hne
    · exact Function.update_self ..
    · exact (Function.update_of_ne hne ..).trans hother
  swept _ _ h := h
  sweeps _ _ h := .inl h

theorem mark_allows (name : String) (hs : Marked s) : departure.Allows i s (mark name s) :=
  ⟨fun held other h => (mark_meanwhile (j := i) name s).departed other (hs held other h), trivial,
    fun _ _ => mark_meanwhile name s⟩

/-! ## The cleanup -/

/-- What is left of the cleanup of an owner. -/
structure Cleaned (i : Nat) (name : String) (gone : Bool) (helds : List Held) (s : Daemon F) :
    Prop where
  free : ∀ held ∈ helds, Free s.authority name i held
  departed : gone = true → s.departed name = true
  swept : ∀ held ∈ helds, gone = true → s.swept held name = true

theorem Cleaned.meanwhile {name : String} {gone : Bool} {helds : List Held}
    (h : Cleaned i name gone helds s) (hmove : Meanwhile i s t) : Cleaned i name gone helds t where
  free held hheld := hmove.inherits.free (h.free held hheld)
  departed hgone := hmove.departed name (h.departed hgone)
  swept held hheld hgone := hmove.swept held name (h.swept held hheld hgone)

theorem Cleaned.turn {name : String} {gone : Bool} {helds : List Held}
    (h : Cleaned i name gone helds s) (hturn : Turn P rights i none s t) :
    Cleaned i name gone helds t where
  free held hheld := hturn.free (by simp) (h.free held hheld)
  departed hgone := by rw [hturn.departed]; exact h.departed hgone
  swept held hheld hgone := hturn.swept held name (h.swept held hheld hgone)

theorem keeps_sweep (P : Platform) {name : String} {gone : Bool} {helds : List Held} {held : Held}
    (h : Cleaned i name gone helds s) :
    (sweep held name : Act F Unit).run.Keeps departure i
      (fun r u => r = .ok () ∧ Cleaned i name gone (held :: helds) u) s := by
  have htakes : Takes P idle i none (sweep held name : Act F Unit).run := takes_sweep
  refine Thread.keeps_attempt fun t hvalid hmove c r u hop => ?_
  have hturn := htakes.1 c t r u hop
  refine ⟨hturn.allows hvalid, ?_⟩
  have hcleaned := (h.meanwhile hmove).turn hturn
  cases hop
  refine ⟨rfl, ⟨fun kind hkind => ?_, hcleaned.departed, fun kind hkind hgone => ?_⟩⟩
  · rcases List.mem_cons.mp hkind with rfl | hkind
    · exact (dropped_drop name _ t.authority).free i
    · exact hcleaned.free kind hkind
  · rcases List.mem_cons.mp hkind with rfl | hkind
    · have hdeparted : t.departed name = true := (h.meanwhile hmove).departed hgone
      simp [hdeparted]
    · exact hcleaned.swept kind hkind hgone

theorem keeps_lift {D : Discipline (Daemon F)} {m : Work F α}
    {Q : Except ApiError α → Daemon F → Prop}
    (h : m.Keeps D i (fun a u => Q (.ok a) u) s) : (ExceptT.lift m : Act F α).run.Keeps D i Q s :=
  Thread.keeps_bind h

/-- After the cleanup the number bears nothing of the owner, and if the owner was gone before,
all kinds are swept. -/
theorem keeps_releaseOwner (P : Platform) {name : String} {gone : Bool}
    (hgone : gone = true → s.departed name = true) :
    (releaseOwner i name : Act F Unit).run.Keeps departure i
      (fun _ u => Cleaned i name gone [.challenges, .edits, .sessions] u) s := by
  have hnothing : Cleaned i name gone [] s := ⟨by simp, hgone, by simp⟩
  refine Thread.keeps_run_bind ((keeps_sweep P hnothing).weaken ?_)
  rintro r u ⟨rfl, hsessions⟩
  refine Thread.keeps_run_bind ((keeps_sweep P hsessions).weaken ?_)
  rintro r u ⟨rfl, hedits⟩
  have hjobs : Takes P idle i none (onJobs (Jobs.releaseOwner i name) : Work F Jobs.Answer) :=
    takes_onJobs _
  refine Thread.keeps_run_bind (keeps_lift ((Thread.Each.keeps_inv
    (R := Cleaned i name gone [.edits, .sessions]) hjobs (fun _ _ hvalid h => h.allows hvalid)
    (fun _ _ hmove h => h.meanwhile hmove) (fun _ _ _ hturn h => h.turn hturn) hedits).weaken ?_))
  intro a u hcleaned
  exact (keeps_sweep P hcleaned).weaken fun _ _ h => h.2

/-! ## The requests -/

theorem Unused.free {name : String} {held : Held} (h : Unused i s) :
    Free s.authority name i held := by
  cases held with
  | sessions => exact fun session hsession => by rw [h.sessions] at hsession; cases hsession
  | edits => exact fun lease hlease => by rw [h.edits] at hlease; cases hlease
  | challenges =>
      exact fun challenge hchallenge => by rw [h.challenges] at hchallenge; cases hchallenge

/-- What the number bears belongs to the caller. -/
def Owned (i : Nat) (owner : Owner) (s : Daemon F) : Prop :=
  ∀ name held, owner ≠ some name → Free s.authority name i held

/-- What is so of a request that has returned. -/
structure Left (i : Nat) (call : Call F) (s : Daemon F) : Prop where
  caller : ∀ name, call.owner = some name → ∀ held, s.swept held name = true →
    Free s.authority name i held
  cleanup : ∀ name, call = .disconnect name → ∀ held, s.swept held name = true

/-- A call that serves no caller, and cleans up after none, has nothing to answer for. -/
theorem left_of_none {call : Call F} (howner : call.owner = none)
    (hcall : ∀ name, call ≠ .disconnect name) : Left i call s where
  caller name hname := by
    rw [howner] at hname
    cases hname
  cleanup name hname := absurd hname (hcall name)

theorem Left.meanwhile {call : Call F} (h : Left i call s) (hmove : Meanwhile i s t) :
    Left i call t where
  caller name hname held hswept := by
    rcases hmove.sweeps held name hswept with hold | hfree
    · exact hmove.inherits.free (h.caller name hname held hold)
    · exact hfree
  cleanup name hname held := hmove.swept held name (h.cleanup name hname held)

/-- Whether the caller is there. -/
theorem keeps_alive (transport : Transport) (name : String) :
    (alive transport name : Work F Bool).Keeps departure i
      (fun there u => Marked u ∧ Meanwhile i s u ∧ (there = true → u.departed name = false)) s := by
  refine Thread.keeps_atomic fun t hvalid hmove c there u hop => ?_
  cases hop
  refine ⟨.refl hvalid, hvalid, hmove, fun h => ?_⟩
  simp only [Bool.and_eq_true, Bool.not_eq_true'] at h
  exact h.1

theorem keeps_dropped {name : String} {reply : Reply} :
    ((do let _ ← (releaseOwner i name).run; return reply : Work F Reply)).Keeps departure i
      (fun _ u => ∀ held, Free u.authority name i held) s := by
  have hthere : false = true → s.departed name = true := fun h => (by cases h)
  refine Thread.keeps_bind ((keeps_releaseOwner .plain hthere).weaken ?_)
  intro r u h held
  refine h.free held ?_
  cases held <;> simp

theorem keeps_callerDispatch (transport : Transport) (reserves : Bool) (method : Method)
    (name : String) (hfresh : Unused i s) :
    (callerDispatch P H i transport reserves method name).Keeps departure i
      (fun _ u => ∀ held, u.swept held name = true → Free u.authority name i held) s := by
  refine Thread.keeps_bind ((keeps_alive transport name).weaken ?_)
  rintro there t ⟨-, hmove, -⟩
  cases there with
  | false =>
      simp only [Bool.false_eq_true, if_false]
      split
      · exact keeps_dropped.weaken fun _ _ h held _ => h held
      · exact fun held _ => (departure.fresh_rely hmove hfresh).free
  | true =>
      simp only [if_true]
      have hserving :
          Serving P i method.Leases method.Stages method.Governs method.Holds (some name)
          (dispatchOwned P H i reserves method (some name)) := serving_dispatchOwned reserves method
      refine Thread.keeps_bind
        ((Thread.Each.keeps hserving fun _ _ hvalid h => h.allows hvalid).weaken ?_)
      rintro reply u -
      refine Thread.keeps_bind ((keeps_alive transport name).weaken ?_)
      rintro there v ⟨hmarked, -, hthere⟩
      cases there with
      | false =>
          simp only [Bool.not_false, if_true]
          exact keeps_dropped.weaken fun _ _ h held _ => h held
      | true =>
          -- what is swept belongs to owners that are gone
          refine fun held hswept => ?_
          have hdeparted := hmarked held name hswept
          rw [hthere rfl] at hdeparted
          cases hdeparted

theorem keeps_disconnect (name : String) :
    (disconnect i name : Work F Reply).Keeps departure i
      (fun _ u => ∀ held, u.swept held name = true) s := by
  refine Thread.keeps_bind (Thread.keeps_modify fun t hvalid _ => ⟨mark_allows name hvalid, ?_⟩)
  have hgone : true = true → (mark name t).departed name = true := fun _ => Function.update_self ..
  refine Thread.keeps_bind ((keeps_releaseOwner .plain hgone).weaken ?_)
  intro r u h held
  refine h.swept held ?_ rfl
  cases held <;> simp

theorem goes_allows {call : Call F} (h : Goes P i call s t) (hs : Marked s) :
    departure.Allows i s t := by
  rcases h with hturn | ⟨name, -, rfl⟩
  · exact hturn.allows hs
  · exact mark_allows name hs

theorem keeps_program (call : Call F) (hfresh : Unused i s) :
    (program P H i call).Keeps departure i (fun _ u => Left i call u) s := by
  have hany : (program P H i call).Keeps departure i (fun _ _ => True) s :=
    Thread.Each.keeps (program_goes i call) fun _ _ hvalid h => goes_allows h hvalid
  cases call with
  | request client reserves method =>
      cases client with
      | none => exact hany.weaken fun _ _ _ => left_of_none rfl fun _ h => by cases h
      | some client =>
          refine (keeps_callerDispatch client.1 reserves method client.2 hfresh).weaken
            fun _ _ h => ?_
          refine ⟨fun name hname => ?_, fun name hname => by cases hname⟩
          exact Option.some.inj hname ▸ h
  | disconnect name =>
      refine (keeps_disconnect name).weaken fun _ _ h => ?_
      refine ⟨fun other hother => (by cases hother), fun other hother => ?_⟩
      cases hother
      exact h
  | _ => exact hany.weaken fun _ _ _ => left_of_none rfl fun _ h => by cases h

end Departure

/-! ## All runs -/

section Runs

variable {P : Platform} {H : Machine F}

theorem initial_unused (store : Store) (files : F) (clock now : Nat)
    (preferences : ClipboardSettings)
    (i : Nat) : Unused i (initial store files clock now preferences) := ⟨rfl, rfl, rfl⟩

/-- Every token belongs to the caller of the request whose number it bears. -/
theorem owned_after (store : Store) (files : F) (clock now : Nat) (preferences : ClipboardSettings)
    (moves : List (Pool.Move (Call F) Chance)) :
    Pool.Numbered Unused (fun i call => Owned i call.owner)
      ((service store files clock now preferences).after (program P H) moves) := by
  refine Pool.numbered_after (P := Goes P) program_goes ?_ ?_ ?_ ?_ (Pool.each_start _)
    (Pool.numbered_start (initial_unused store files clock now preferences)) moves
  · exact fun i call s hfresh name held _ => hfresh.free
  · rintro i call s t (hturn | ⟨name, -, rfl⟩) howned
    · exact fun name held hne => hturn.free hne (howned name held hne)
    · exact howned
  · rintro i j call s t hne (hturn | ⟨name, -, rfl⟩) hfresh
    · exact departure.fresh_rely (hturn.meanwhile hne.symm) hfresh
    · exact ⟨hfresh.sessions, hfresh.edits, hfresh.challenges⟩
  · rintro i call j other s t hne (hturn | ⟨name, -, rfl⟩) howned
    · exact fun name held hneq => (hturn.inherits hne.symm).free (howned name held hneq)
    · exact howned

/-- A caller that has left holds nothing.  In every run, once a cleanup of the caller and all
its requests have returned, no session, no lease and no challenge belongs to it. -/
theorem departed_holds_nothing (P : Platform) (H : Machine F) (store : Store) (files : F)
    (clock now : Nat) (preferences : ClipboardSettings) (moves : List (Pool.Move (Call F) Chance))
    (name : String) (d : Nat) (reply : Reply)
    (hcleanup : ((service store files clock now preferences).after (program P H) moves).Returned d
      (.disconnect name) reply)
    (hreturned : ∀ i transport reserves method m,
      ((service store files clock now preferences).after (program P H) moves).threads i =
        some (.request (some (transport, name)) reserves method, m) → ∃ answer, m = .done answer) :
    let authority :=
      ((service store files clock now preferences).after (program P H) moves).shared.authority
    (∀ id session, authority.sessions id = some session → session.owner ≠ some name) ∧
    (∀ id lease, authority.edits id = some lease → lease.owner ≠ some name) ∧
    ∀ id challenge, authority.challenges id = some challenge → challenge.owner ≠ some name := by
  set p := (service store files clock now preferences).after (program P H) moves with hp
  have hstart : departure.Keeps (fun i call _ s => Left i call s)
      (service store files clock now preferences : Pool (Daemon F) Chance (Call F) Reply) :=
    Discipline.keeps_start (fun _ _ h => by cases h)
      (initial_unused store files clock now preferences)
  have hprogram : ∀ i call s, departure.valid s → departure.fresh i s →
      (program P H i call).Keeps departure i (fun _ u => Left i call u) s :=
    fun i call s _ hfresh => keeps_program call hfresh
  have hkeeps := (Discipline.run_keeps hprogram
    (fun _ _ _ _ _ _ _ hmove h => h.meanwhile hmove) moves hstart).1
  rw [← hp] at hkeeps
  have hswept : ∀ held, p.shared.swept held name = true :=
    (hkeeps.threads d _ _ hcleanup).cleanup name rfl
  have hfree : ∀ held, Dropped p.shared.authority name held := by
    refine fun held => dropped_of_free fun i => ?_
    have howned := owned_after (P := P) (H := H) store files clock now preferences moves i
    rw [← hp] at howned
    cases hthread : p.threads i with
    | none => rw [hthread] at howned; exact howned.free
    | some thread =>
        obtain ⟨call, m⟩ := thread
        rw [hthread] at howned
        by_cases hcaller : call.owner = some name
        · cases call with
          | request client reserves method =>
              cases client with
              | none => cases hcaller
              | some client =>
                  obtain ⟨transport, other⟩ := client
                  cases hcaller
                  obtain ⟨answer, rfl⟩ := hreturned i transport reserves method m hthread
                  exact (hkeeps.threads i _ _ hthread).caller name rfl held (hswept held)
          | _ => cases hcaller
        · exact howned name held hcaller
  exact ⟨hfree .sessions, hfree .edits, hfree .challenges⟩

/-- A session is registered after the cleanup of its caller went by. -/
def lateSession : List (Pool.Move (Call Unit) Chance) :=
  .call 0 (.request (some (.socket, "a")) false .sessionBegin) :: steps 0 4 ++
  .call 1 (.disconnect "a") :: steps 1 5 ++ steps 0 7

/-- It does not stay. -/
theorem late_session_dropped :
    let authority := ((service .fresh () 0 0 .default).after (program .plain emptyMachine)
      lateSession).shared.authority
    (∀ id session, authority.sessions id = some session → session.owner ≠ some "a") ∧
    (∀ id lease, authority.edits id = some lease → lease.owner ≠ some "a") ∧
    ∀ id challenge, authority.challenges id = some challenge → challenge.owner ≠ some "a" := by
  refine departed_holds_nothing .plain emptyMachine .fresh () 0 0 .default lateSession "a" 1
    (.ok .none) rfl fun i transport reserves method m h => ?_
  rcases i with - | - | i
  · have hdone : ∃ answer, ((service .fresh () 0 0 .default).after (program .plain emptyMachine)
        lateSession).threads 0 = some (_, .done answer) := ⟨_, rfl⟩
    obtain ⟨answer, hdone⟩ := hdone
    rw [h] at hdone
    cases hdone
    exact ⟨answer, rfl⟩
  · cases h
  · cases h

end Runs

end ClipDaemon.Daemon
