import ClipDaemon.Api.Ledger

/-!
# Every interleaving of the requests

The requests keep the invariants of `Ledger`.  A statement that needs nothing of the past
is allowed in every valid state.  The others rely on what their own thread has logged: a
request that issues a token has not issued one before, and one that uses a token has
redeemed it and not used it yet.
-/

namespace ClipDaemon.Authority

open Thread (attempt outcome result)
open ThreadLog

/-! ## The discipline -/

/-- What every step does. -/
structure Grows (s t : Authority) : Prop where
  now : s.now ≤ t.now
  log : s.log <+: t.log
  /-- A token that was issued stays what it is until it leaves the map for good. -/
  held : ∀ kind id owner expires, (id, .issued kind owner expires) ∈ s.log →
    held t kind id = held s kind id ∨ held t kind id = none

theorem Grows.refl (s : Authority) : Grows s s :=
  ⟨Nat.le_refl _, List.prefix_rfl, fun _ _ _ _ _ => .inl rfl⟩

theorem Grows.trans {s t u : Authority} (h : Grows s t) (h' : Grows t u) : Grows s u where
  now := Nat.le_trans h.now h'.now
  log := h.log.trans h'.log
  held kind id owner expires hissued := by
    rcases h'.held kind id owner expires (h.log.subset hissued) with heq | hnone
    · rw [heq]
      exact h.held kind id owner expires hissued
    · exact .inr hnone

/-- The invariant, in runs that go on from a log. -/
structure Valid (past : Log) (s : Authority) : Prop where
  paste : PasteValid s.now s.sessions s.log
  tokens : ∀ kind, TokensValid kind (held s kind) s.log
  known : past <+: s.log

/-- What threads keep: the log only grows, and others leave a thread's own entries alone. -/
def discipline (past : Log) : Discipline Authority where
  valid := Valid past
  grows := Grows
  rely i s t := Grows s t ∧ own i t.log = own i s.log
  fresh i s := own i s.log = []
  grows_refl := .refl
  grows_trans := .trans
  rely_refl _ s := ⟨.refl s, rfl⟩
  rely_trans h h' := ⟨h.1.trans h'.1, h'.2.trans h.2⟩
  fresh_rely h hs := h.2.trans hs

section Steps

variable {past : Log} {i : Nat} {s t : Authority} {α : Type}

/-- A step that appends to the log what its thread did. -/
theorem allows_of (effects : List Effect) (h : Valid past s) (hnow : s.now ≤ t.now)
    (hlog : t.log = s.log ++ effects.map (Prod.mk i))
    (hheld : ∀ kind id owner expires, (id, .issued kind owner expires) ∈ s.log →
      held t kind id = held s kind id ∨ held t kind id = none)
    (hpaste : PasteValid t.now t.sessions t.log)
    (htokens : ∀ kind, TokensValid kind (held t kind) t.log) :
    (discipline past).Allows i s t := by
  have hgrows : Grows s t := ⟨hnow, hlog ▸ List.prefix_append .., hheld⟩
  refine ⟨⟨hpaste, htokens, h.known.trans hgrows.log⟩, hgrows, fun j hne => ⟨hgrows, ?_⟩⟩
  have hother : own j (effects.map (Prod.mk i)) = [] := by
    refine List.filter_eq_nil_iff.mpr fun entry hentry => ?_
    obtain ⟨effect, -, rfl⟩ := List.mem_map.mp hentry
    simpa using hne.symm
  rw [hlog, own_append, hother, List.append_nil]

/-- Tokens and sessions leave their maps, and time passes. -/
theorem allows_shrink (h : Valid past s) (hnow : s.now ≤ t.now) (hlog : t.log = s.log)
    (hsessions : ∀ id, t.sessions id = s.sessions id ∨ t.sessions id = none)
    (hheld : ∀ kind id, held t kind id = held s kind id ∨ held t kind id = none) :
    (discipline past).Allows i s t := by
  refine allows_of [] h hnow (by simpa using hlog) (fun kind id _ _ _ => hheld kind id)
    ?_ fun kind => ?_
  · rw [hlog]
    exact h.paste.shrink hnow hsessions
  · rw [hlog, ← List.append_nil s.log]
    exact (h.tokens kind).shrink (hheld kind) (by simp)

/-- A session changes, and the tokens do not. -/
theorem allows_session (sessions : SessionManager) (effects : List Effect) (h : Valid past s)
    (heffects : ∀ kind, ∀ effect ∈ effects, Effect.ofToken kind effect = false)
    (hpaste : PasteValid s.now sessions (s.log ++ effects.map (Prod.mk i))) :
    (discipline past).Allows i s
      { s with sessions, log := s.log ++ effects.map (Prod.mk i) } := by
  refine allows_of effects h (Nat.le_refl _) rfl (fun kind id _ _ _ => .inl ?_) hpaste
    fun kind => ?_
  · cases kind <;> rfl
  · have hsame : held { s with sessions, log := s.log ++ effects.map (Prod.mk i) } kind =
        held s kind := by cases kind <;> rfl
    rw [hsame]
    refine (h.tokens kind).shrink (fun _ => .inl rfl) ?_
    intro entry hentry
    obtain ⟨effect, heffect, rfl⟩ := List.mem_map.mp hentry
    exact heffects kind effect heffect

theorem update_none_some {β : Type} {f : Uuid → Option β} {id j : Uuid} {b : β}
    (h : Function.update f id none j = some b) : f j = some b := by
  rcases eq_or_ne j id with rfl | hne
  · rw [Function.update_self] at h
    cases h
  · rw [Function.update_of_ne hne] at h
    exact h

theorem map_update {β γ : Type} (g : β → γ) (f : Uuid → Option β) (id : Uuid) (b : Option β) :
    (fun j => (Function.update f id b j).map g) =
      Function.update (fun j => (f j).map g) id (b.map g) := by
  funext j
  rcases eq_or_ne j id with rfl | hne
  · simp
  · simp [hne]

/-- Leases leave their map. -/
theorem held_edits {edits : Tokens EditLease} (kind : TokenKind) (id : Uuid)
    (h : ∀ lease, edits id = some lease → s.edits id = some lease) :
    held { s with edits } kind id = held s kind id ∨ held { s with edits } kind id = none := by
  cases kind with
  | wipe => exact .inl rfl
  | edit =>
      cases hid : edits id with
      | none => exact .inr (by simp [held, hid])
      | some lease => exact .inl (by simp [held, hid, h lease hid])

/-- Challenges leave their map. -/
theorem held_challenges {challenges : Tokens WipeChallenge} (kind : TokenKind) (id : Uuid)
    (h : ∀ challenge, challenges id = some challenge → s.challenges id = some challenge) :
    held { s with challenges } kind id = held s kind id ∨
      held { s with challenges } kind id = none := by
  cases kind with
  | edit => exact .inl rfl
  | wipe =>
      cases hid : challenges id with
      | none => exact .inr (by simp [held, hid])
      | some challenge => exact .inl (by simp [held, hid, h challenge hid])

/-- Sessions leave their map. -/
theorem allows_sessions (h : Valid past s) {sessions : SessionManager}
    (hsessions : ∀ id session, sessions id = some session → s.sessions id = some session) :
    (discipline past).Allows i s { s with sessions } := by
  refine allows_shrink h (Nat.le_refl _) rfl (fun id => ?_) fun kind id => .inl ?_
  · cases hid : sessions id with
    | none => exact .inr hid
    | some session => exact .inl (hid.trans (hsessions id session hid).symm)
  · cases kind <;> rfl

theorem allows_edits (h : Valid past s) {edits : Tokens EditLease}
    (hedits : ∀ id lease, edits id = some lease → s.edits id = some lease) :
    (discipline past).Allows i s { s with edits } :=
  allows_shrink h (Nat.le_refl _) rfl (fun _ => .inl rfl)
    fun kind id => held_edits kind id (hedits id)

theorem allows_challenges (h : Valid past s) {challenges : Tokens WipeChallenge}
    (hchallenges : ∀ id challenge, challenges id = some challenge →
      s.challenges id = some challenge) :
    (discipline past).Allows i s { s with challenges } :=
  allows_shrink h (Nat.le_refl _) rfl (fun _ => .inl rfl)
    fun kind id => held_challenges kind id (hchallenges id)

/-! ### Statements that are allowed in every valid state -/

/-- A statement on a session that arms, hides and pastes nothing. -/
theorem withSession_allows {useSession : Session → α × Session} {id : Uuid} {owner : Owner}
    (h : Valid past s) (huse : ∀ session, (useSession session).2 = session) :
    (discipline past).Allows i s
      { s with sessions := (s.sessions.withSession id owner s.now useSession).2 } := by
  have hcases : ∀ j session, (s.sessions.withSession id owner s.now useSession).2 j = some session →
      s.sessions j = some session := by
    intro j found hfound
    rcases SessionManager.withSession_cases s.sessions id owner s.now useSession
        with ⟨e, heq⟩ | ⟨e, -, -, -, heq⟩ | ⟨session, hid, -, -, -, heq⟩
    · simpa [heq] using hfound
    · rw [heq] at hfound
      exact update_none_some hfound
    · simpa [heq, huse, ← hid] using hfound
  exact allows_sessions h hcases

theorem published_allows (h : Valid past s) :
    (discipline past).Allows i s (s.record i .published) :=
  allows_session s.sessions [.published] h (by simp [Effect.ofToken]) (h.paste.note rfl)

theorem armPaste_allows (id : Uuid) (owner : Owner) (h : Valid past s)
    (hpublished : (i, .published) ∈ s.log) :
    (discipline past).Allows i s
      (let s' := { s with sessions := (s.sessions.armPaste id owner s.now).2 }
       if (s.sessions.armPaste id owner s.now).1 then s'.record i (.prepared id owner)
         else s') := by
  have hcases := SessionManager.withSession_cases s.sessions id owner s.now
    fun session => (session.target.isSome, { session with pastePending := session.target.isSome })
  rcases hcases with ⟨e, heq⟩ | ⟨e, session, hid, -, heq⟩ | ⟨session, hid, howner, -, -, heq⟩
  · have harm : s.sessions.armPaste id owner s.now = (false, s.sessions) := by
      rw [SessionManager.armPaste, heq]
    rw [harm]
    exact .refl h
  · have harm : s.sessions.armPaste id owner s.now =
        (false, Function.update s.sessions id none) := by
      rw [SessionManager.armPaste, heq]
    rw [harm]
    exact allows_sessions h fun _ _ => update_none_some
  · have harm : s.sessions.armPaste id owner s.now = (session.target.isSome,
        Function.update s.sessions id
          (some { session with pastePending := session.target.isSome })) := by
      rw [SessionManager.armPaste, heq]
    rw [harm]
    cases htarget : session.target.isSome with
    | true =>
        refine allows_session _ [.prepared id owner] h (by simp [Effect.ofToken]) ?_
        rw [← howner]
        exact h.paste.arm hpublished hid rfl rfl fun hh => hh
    | false =>
        have hquiet := allows_session (i := i)
          (Function.update s.sessions id (some { session with pastePending := false })) [] h
          (by simp) (by
            rw [List.map_nil, List.append_nil]
            exact h.paste.disarm hid rfl rfl (fun hh => hh) (by simp))
        simpa using hquiet

theorem unprepared_allows (id : Uuid) (owner : Owner) (h : Valid past s) :
    (discipline past).Allows i s (s.record i (.unprepared id owner (s.armed id owner))) := by
  refine allows_session s.sessions [.unprepared id owner (s.armed id owner)] h
    (by simp [Effect.ofToken]) ?_
  refine h.paste.refuse fun session hid howner hpending hhidden hlive => ?_
  simp [armed, hid, howner, hpending, hhidden, hlive]

/-- The hidden acknowledgement of an armed session pastes, once. -/
theorem sessionHidden_allows {id : Uuid} {owner : Owner} {r : ApiResult Answer}
    {u : Authority} (h : Valid past s)
    (hu : (match s.sessions.hideWith id owner s.now with
      | (.ok (view, some _), sessions) =>
          some (.ok (.session view), record { s with sessions } i (.pasted id owner s.now))
      | (.ok (view, none), sessions) => some (.ok (.session view), { s with sessions })
      | (.error error, sessions) => some (.error (staleTarget error), { s with sessions }) :
        Option (ApiResult Answer × Authority)) = some (r, u)) :
    (discipline past).Allows i s u := by
  rcases SessionManager.withSession_cases s.sessions id owner s.now (SessionManager.hide id) with
    ⟨e, heq⟩ | ⟨e, session, hid, -, heq⟩ | ⟨session, hid, howner, hshown, hlive, heq⟩
  · rw [SessionManager.hideWith, heq] at hu
    cases hu
    exact .refl h
  · rw [SessionManager.hideWith, heq] at hu
    cases hu
    exact allows_sessions h fun _ _ => update_none_some
  · rw [SessionManager.hideWith, heq] at hu
    have hquiet : (discipline past).Allows i s { s with
        sessions := Function.update s.sessions id (some (SessionManager.hide id session).2) } := by
      have hstep := allows_session (i := i)
        (Function.update s.sessions id (some (SessionManager.hide id session).2)) [] h (by simp) (by
          rw [List.map_nil, List.append_nil]
          exact h.paste.disarm hid rfl rfl (fun _ => rfl) (by simp [SessionManager.hide]))
      simpa using hstep
    cases hpending : session.pastePending with
    | false =>
        simp only [SessionManager.hide, hpending, Bool.false_eq_true, if_false, Option.some.injEq,
          Prod.mk.injEq] at hu
        rw [← hu.2]
        simpa [SessionManager.hide, hpending] using hquiet
    | true =>
        cases htarget : session.target with
        | none =>
            simp only [SessionManager.hide, hpending, htarget, if_true, Option.some.injEq,
              Prod.mk.injEq] at hu
            rw [← hu.2]
            simpa [SessionManager.hide, hpending, htarget] using hquiet
        | some target =>
            have hpaste : PasteValid s.now
                (Function.update s.sessions id (some (SessionManager.hide id session).2))
                (s.log ++ [.pasted id owner s.now].map (Prod.mk i)) := by
              rw [← howner]
              exact h.paste.paste hid rfl rfl rfl hpending hshown hlive
            have hstep := allows_session (i := i) _ [.pasted id owner s.now] h
              (by simp [Effect.ofToken]) hpaste
            simp only [SessionManager.hide, hpending, htarget, if_true, Option.some.injEq,
              Prod.mk.injEq] at hu
            rw [← hu.2]
            simpa [SessionManager.hide, hpending, htarget, record] using hstep

theorem start_allows {owner : Owner} {target : Option Target} (h : Valid past s)
    (hown : own i s.log = []) :
    (discipline past).Allows i s
      (({ s with sessions := (s.sessions.start i owner target s.now).2 }).record i
        (.began owner (s.now + SESSION_TTL))) := by
  refine allows_session _ [.began owner (s.now + SESSION_TTL)] h (by simp [Effect.ofToken]) ?_
  refine h.paste.start rfl fun owner' expires hmem => ?_
  have hmine := mem_own hmem
  rw [hown] at hmine
  cases hmine

/-- A request whose thread has issued nothing issues a token. -/
theorem issue_allows {kind : TokenKind} {owner : Owner} {expires : Nat} (h : Valid past s)
    (hown : own i s.log = []) (hnow : t.now = s.now) (hsessions : t.sessions = s.sessions)
    (hlog : t.log = s.log ++ [(i, .issued kind owner expires)])
    (hheld : held t kind = Function.update (held s kind) i (some (owner, expires)))
    (hother : ∀ kind', kind' ≠ kind → held t kind' = held s kind') :
    (discipline past).Allows i s t := by
  have hnew : ∀ kind owner expires, (i, Effect.issued kind owner expires) ∉ s.log := by
    intro kind owner expires hmem
    have hmine := mem_own hmem
    rw [hown] at hmine
    cases hmine
  refine allows_of [.issued kind owner expires] h (Nat.le_of_eq hnow.symm)
    (by simpa using hlog) (fun kind' id owner' expires' hissued => .inl ?_) ?_ fun kind' => ?_
  · rcases eq_or_ne kind' kind with rfl | hne
    · rw [hheld]
      refine Function.update_of_ne ?_ ..
      rintro rfl
      exact hnew _ _ _ hissued
    · rw [hother kind' hne]
  · rw [hnow, hsessions, hlog]
    exact h.paste.note rfl
  · rcases eq_or_ne kind' kind with rfl | hne
    · rw [hheld, hlog]
      exact (h.tokens kind').issue (hnew kind')
    · rw [hother kind' hne, hlog]
      exact (h.tokens kind').shrink (fun _ => .inl rfl) (by simp [Effect.ofToken, hne.symm])

/-- A commit redeems a token that its owner holds. -/
theorem redeem_allows {kind : TokenKind} {id : Uuid} {owner : Owner} {expires : Nat}
    (h : Valid past s) (hid : held s kind id = some (owner, expires)) (hnow : t.now = s.now)
    (hsessions : t.sessions = s.sessions) (hlog : t.log = s.log ++ [(i, .redeemed kind id owner)])
    (hheld : held t kind = Function.update (held s kind) id none)
    (hother : ∀ kind', kind' ≠ kind → held t kind' = held s kind') :
    (discipline past).Allows i s t := by
  refine allows_of [.redeemed kind id owner] h (Nat.le_of_eq hnow.symm)
    (by simpa using hlog) (fun kind' j _ _ _ => ?_) ?_ fun kind' => ?_
  · rcases eq_or_ne kind' kind with rfl | hne
    · rw [hheld]
      rcases eq_or_ne j id with rfl | hj
      · exact .inr (Function.update_self ..)
      · exact .inl (Function.update_of_ne hj ..)
    · exact .inl (by rw [hother kind' hne])
  · rw [hnow, hsessions, hlog]
    exact h.paste.note rfl
  · rcases eq_or_ne kind' kind with rfl | hne
    · rw [hheld, hlog]
      exact (h.tokens kind').redeem hid
    · rw [hother kind' hne, hlog]
      exact (h.tokens kind').shrink (fun _ => .inl rfl) (by simp [Effect.ofToken, hne.symm])

/-- The thread that redeemed a token uses it for the first time. -/
theorem use_allows {kind : TokenKind} {id : Uuid} {owner : Owner} {expires checked : Nat}
    (h : Valid past s) (hown : own i s.log = [(i, .redeemed kind id owner)])
    (hissued : (id, .issued kind owner expires) ∈ s.log) (hlive : checked < expires) :
    (discipline past).Allows i s (s.record i (.used kind id owner checked)) := by
  have hred : (i, Effect.redeemed kind id owner) ∈ s.log := by
    have hmem : (i, Effect.redeemed kind id owner) ∈ own i s.log := by
      rw [hown]
      exact List.mem_cons_self
    exact List.mem_of_mem_filter hmem
  have hfirst : ∀ owner checked, (i, Effect.used kind id owner checked) ∉ s.log := by
    intro owner' checked' hmem
    have hmine := mem_own hmem
    rw [hown] at hmine
    simp at hmine
  refine allows_of [.used kind id owner checked] h (Nat.le_refl _) rfl
    (fun kind' _ _ _ _ => .inl (by cases kind' <;> rfl)) (h.paste.note rfl) fun kind' => ?_
  have hsame : held (s.record i (.used kind id owner checked)) kind' = held s kind' := by
    cases kind' <;> rfl
  rcases eq_or_ne kind' kind with rfl | hne
  · rw [hsame]
    exact (h.tokens kind').use hred hfirst hissued hlive
  · rw [hsame]
    exact (h.tokens kind').shrink (fun _ => .inl rfl) (by simp [Effect.ofToken, hne.symm])

end Steps

/-! ## What a call ends with -/

/-- The token was issued to the owner. -/
def IssuedTo (kind : TokenKind) (id : Uuid) (owner : Owner) (log : Log) : Prop :=
  ∃ expires, (id, .issued kind owner expires) ∈ log

/-- The token was issued to the owner, and has left the map. -/
def Spent (kind : TokenKind) (id : Uuid) (owner : Owner) (s : Authority) : Prop :=
  IssuedTo kind id owner s.log ∧ held s kind id = none

theorem IssuedTo.grows {kind : TokenKind} {id : Uuid} {owner : Owner} {s t : Authority}
    (h : IssuedTo kind id owner s.log) (hgrows : Grows s t) : IssuedTo kind id owner t.log := by
  obtain ⟨expires, hissued⟩ := h
  exact ⟨expires, hgrows.log.subset hissued⟩

/-- A token that has left the map stays away. -/
theorem Spent.grows {kind : TokenKind} {id : Uuid} {owner : Owner} {s t : Authority}
    (h : Spent kind id owner s) (hgrows : Grows s t) : Spent kind id owner t := by
  refine ⟨h.1.grows hgrows, ?_⟩
  obtain ⟨expires, hissued⟩ := h.1
  rcases hgrows.held kind id owner expires hissued with heq | hnone
  · rw [heq, h.2]
  · exact hnone

/-- The commit was refused before it looked for its lease. -/
def RefusedEarly (answer : ApiResult Answer) : Prop :=
  ∃ message, answer = .error (settingsError message) ∨ answer = .error (staleTarget message)

/-- A commit succeeds only with a token of its owner, and a token that was issued before is
spent, unless the commit was refused early; one that was has redeemed nothing. -/
structure Commits (past : Log) (i : Nat) (kind : TokenKind) (id : Uuid) (owner : Owner)
    (refused : Prop) (answer : ApiResult Answer) (s : Authority) : Prop where
  owned : ∀ a, answer = .ok a → IssuedTo kind id owner s.log
  spent : IssuedTo kind id owner past → refused ∨ Spent kind id owner s
  kept : refused → (i, .redeemed kind id owner) ∉ s.log

/-- A request that has prepared a paste says so. -/
def Announced (i : Nat) (answer : ApiResult Answer) (s : Authority) : Prop :=
  ∀ id owner, (i, .prepared id owner) ∈ s.log → Answer.prepares answer = true

/-- What holds when a call has returned. -/
def Post (past : Log) (i : Nat) : AuthorityCall → ApiResult Answer → Authority → Prop
  | .entryAction .., answer, s => Announced i answer s
  | .editCommit owner params, answer, s =>
      Commits past i .edit params.editId owner (RefusedEarly answer) answer s ∧ Announced i answer s
  | .wipeCommit owner params, answer, s =>
      Commits past i .wipe params.challengeId owner (params.response ≠ "WIPE") answer s
  | .editCancel owner id, answer, s =>
      ∀ id', answer = .ok (.cancelled id' true) → IssuedTo .edit id owner s.log
  | _, _, _ => True

theorem Commits.rely {past : Log} {i : Nat} {kind : TokenKind} {id : Uuid} {owner : Owner}
    {refused : Prop} {answer : ApiResult Answer} {s t : Authority}
    (h : Commits past i kind id owner refused answer s) (hrely : (discipline past).rely i s t) :
    Commits past i kind id owner refused answer t where
  owned a ha := (h.owned a ha).grows hrely.1
  spent hpast := (h.spent hpast).imp_right fun hspent => hspent.grows hrely.1
  kept hrefused hmem := h.kept hrefused (List.mem_of_mem_filter (hrely.2 ▸ mem_own hmem))

theorem Announced.rely {past : Log} {i : Nat} {answer : ApiResult Answer} {s t : Authority}
    (h : Announced i answer s) (hrely : (discipline past).rely i s t) : Announced i answer t :=
  fun id owner hmem => h id owner (List.mem_of_mem_filter (hrely.2 ▸ mem_own hmem))

theorem prepares_pasteFeedback (action : String) :
    Answer.prepares (.ok (.pasted (pasteFeedback true action).1 (pasteFeedback true action).2)) =
      true := by
  unfold pasteFeedback
  cases decide (action = "image-as-file") <;> rfl

theorem Announced.unprepared {i : Nat} {answer : ApiResult Answer} {s : Authority} {id : Uuid}
    {owner : Owner} {armed : Bool} (h : Announced i answer s) :
    Announced i answer (s.record i (.unprepared id owner armed)) :=
  fun id' owner' hmem => h id' owner' ((mem_append_single (by simp)).mp hmem)

theorem announced_of_own {i : Nat} {answer : ApiResult Answer} {s : Authority} {entries : Log}
    (hown : own i s.log = entries) (hnone : ∀ id owner, (i, .prepared id owner) ∉ entries) :
    Announced i answer s :=
  fun id owner hmem => absurd (hown ▸ mem_own hmem) (hnone id owner)

theorem Post.rely {past : Log} {i : Nat} {call : AuthorityCall} {answer : ApiResult Answer}
    {s t : Authority} (h : Post past i call answer s) (hrely : (discipline past).rely i s t) :
    Post past i call answer t := by
  cases call with
  | entryAction owner params => exact Announced.rely h hrely
  | editCommit owner params => exact ⟨Commits.rely h.1 hrely, Announced.rely h.2 hrely⟩
  | wipeCommit owner params => exact Commits.rely h hrely
  | editCancel owner id => exact fun id' hid => (h id' hid).grows hrely.1
  | _ => trivial

/-! ## Parts of the requests -/

section Specs

variable {past : Log} {i : Nat} {s : Authority} {α : Type} {entries : Log}

/-- A statement that logs nothing. -/
theorem keeps_quiet {op : Chance → Authority → Option (ApiResult α × Authority)}
    {Q : ApiResult α → Authority → Prop} (hown : own i s.log = entries)
    (hop : ∀ t chance r u, Valid past t → op chance t = some (r, u) →
      (discipline past).Allows i t u ∧ u.log = t.log)
    (hQ : ∀ r u, Grows s u → own i u.log = entries → Q r u) :
    (attempt op).run.Keeps (discipline past) i Q s := by
  refine Thread.keeps_attempt ?_
  intro t hvalid hrely chance r u hu
  obtain ⟨hallows, hlog⟩ := hop t chance r u hvalid hu
  exact ⟨hallows, hQ r u (hrely.1.trans hallows.grows) (by rw [hlog, hrely.2, hown])⟩

/-- A statement that only reads. -/
theorem keeps_read {read : Chance → Authority → ApiResult α}
    {Q : ApiResult α → Authority → Prop} (hown : own i s.log = entries)
    (hQ : ∀ t chance, Grows s t → own i t.log = entries → Q (read chance t) t) :
    (attempt fun chance s => some (read chance s, s)).run.Keeps (discipline past) i Q s := by
  refine Thread.keeps_attempt ?_
  intro t hvalid hrely chance r u hu
  cases hu
  exact ⟨.refl hvalid, hQ t chance hrely.1 (hrely.2.trans hown)⟩

theorem settings_keeps {reply : Chance → α} {Q : ApiResult α → Authority → Prop}
    (hown : own i s.log = entries)
    (hok : ∀ a u, Grows s u → own i u.log = entries → Q (.ok a) u)
    (herror : ∀ message u, Grows s u → own i u.log = entries →
      Q (.error (settingsError message)) u) :
    (settings reply).run.Keeps (discipline past) i Q s := by
  refine keeps_read hown fun t chance hgrows hown' => ?_
  cases chance.fails with
  | some error => exact herror error.message t hgrows hown'
  | none => exact hok _ t hgrows hown'

theorem outside_keeps {reply : Chance → α} {Q : ApiResult α → Authority → Prop}
    (hown : own i s.log = entries) (h : ∀ r u, Grows s u → own i u.log = entries → Q r u) :
    (outside reply).run.Keeps (discipline past) i Q s :=
  keeps_read hown fun t _ hgrows hown' => h _ t hgrows hown'

theorem backend_keeps {reply : Chance → α} {Q : ApiResult α → Authority → Prop}
    (hown : own i s.log = entries)
    (hok : ∀ a u, Grows s u → own i u.log = entries → Q (.ok a) u)
    (herror : ∀ e u, Grows s u → own i u.log = entries → Q (.error (.ofBackend e)) u) :
    (backend reply).run.Keeps (discipline past) i Q s := by
  refine keeps_read hown fun t chance hgrows hown' => ?_
  cases chance.refuses with
  | some error => exact herror error t hgrows hown'
  | none => exact hok _ t hgrows hown'

theorem purgeEdits_keeps {Q : ApiResult Unit → Authority → Prop} (hown : own i s.log = entries)
    (hQ : ∀ u, Grows s u → own i u.log = entries → Q (.ok ()) u) :
    purgeEdits.run.Keeps (discipline past) i Q s := by
  refine Thread.keeps_attempt ?_
  intro t hvalid hrely chance r u hu
  cases hu
  have hallows := allows_edits (i := i) hvalid fun _ _ =>
    (Tokens.purge_some : t.edits.purge t.now _ = _ → _)
  exact ⟨hallows, hQ _ (hrely.1.trans hallows.grows) (hrely.2.trans hown)⟩

theorem validatePaste_keeps {id : Uuid} {owner : Owner} {Q : ApiResult Bool → Authority → Prop}
    (hown : own i s.log = entries)
    (hok : ∀ b u, Grows s u → own i u.log = entries → Q (.ok b) u)
    (herror : ∀ message u, Grows s u → own i u.log = entries →
      Q (.error (staleTarget message)) u) :
    (validatePaste id owner).run.Keeps (discipline past) i Q s := by
  refine Thread.keeps_attempt ?_
  intro t hvalid hrely chance r u hu
  obtain ⟨rfl, rfl⟩ := Prod.mk.inj (Option.some.inj hu)
  have hallows : (discipline past).Allows i t
      { t with sessions := (t.sessions.validatePaste id owner t.now).2 } :=
    withSession_allows hvalid fun _ => rfl
  refine ⟨hallows, ?_⟩
  have hgrows := hrely.1.trans hallows.grows
  cases (t.sessions.validatePaste id owner t.now).1 with
  | ok b => exact hok b _ hgrows (hrely.2.trans hown)
  | error e => exact herror e _ hgrows (hrely.2.trans hown)

theorem restore_keeps {Q : ApiResult Unit → Authority → Prop} (hown : own i s.log = entries)
    (hok : ∀ u, Grows s u → own i u.log = entries ++ [(i, .published)] → Q (.ok ()) u)
    (herror : ∀ e u, Grows s u → own i u.log = entries → Q (.error e) u) :
    (restore i).run.Keeps (discipline past) i Q s := by
  refine Thread.keeps_attempt ?_
  intro t hvalid hrely chance r u hu
  split at hu <;> cases hu
  · exact ⟨.refl hvalid, herror _ _ hrely.1 (hrely.2.trans hown)⟩
  · have hallows := published_allows (i := i) hvalid
    refine ⟨hallows, hok _ (hrely.1.trans hallows.grows) ?_⟩
    simp [record, hrely.2, hown]

theorem publishReplacement_keeps {Q : ApiResult Bool → Authority → Prop}
    (hown : own i s.log = entries)
    (hok : ∀ b u, Grows s u →
      own i u.log = entries ++ (if b then [(i, .published)] else []) → Q (.ok b) u) :
    (publishReplacement i).run.Keeps (discipline past) i Q s := by
  refine Thread.keeps_attempt ?_
  intro t hvalid hrely chance r u hu
  cases hu
  cases chance.flag with
  | false => exact ⟨.refl hvalid, hok _ _ hrely.1 (by simp [hrely.2, hown])⟩
  | true =>
      have hallows := published_allows (i := i) hvalid
      refine ⟨hallows, hok _ _ (hrely.1.trans hallows.grows) ?_⟩
      simp [record, hrely.2, hown]

/-- A thread that has published arms a session. -/
theorem armPaste_keeps {id : Uuid} {owner : Owner} {Q : ApiResult Bool → Authority → Prop}
    (hown : own i s.log = entries) (hpublished : (i, .published) ∈ entries)
    (hQ : ∀ b u, Grows s u →
      own i u.log = entries ++ (if b then [(i, .prepared id owner)] else []) → Q (.ok b) u) :
    (armPaste i id owner).run.Keeps (discipline past) i Q s := by
  refine Thread.keeps_attempt ?_
  intro t hvalid hrely chance r u hu
  cases hu
  have hown := hrely.2.trans hown
  have hmem : (i, Effect.published) ∈ own i t.log := hown ▸ hpublished
  have hallows := armPaste_allows (i := i) id owner hvalid (List.mem_of_mem_filter hmem)
  refine ⟨hallows, hQ _ _ (hrely.1.trans hallows.grows) ?_⟩
  cases (t.sessions.armPaste id owner t.now).1 with
  | false => simpa using hown
  | true => simpa [record] using hown

theorem loadDetails_keeps {entryId : String} {revision : Option Nat}
    {Q : ApiResult EntryDetails → Authority → Prop} (hown : own i s.log = entries)
    (hQ : ∀ r u, Grows s u → own i u.log = entries → Q r u) :
    (loadDetails entryId revision).run.Keeps (discipline past) i Q s := by
  refine Thread.keeps_run_bind (Thread.keeps_result ?_)
  cases validateEntryId entryId with
  | error e => exact hQ _ s (.refl s) hown
  | ok a =>
      refine Thread.keeps_run_bind (backend_keeps hown ?_ fun e u => hQ _ u)
      intro details u hgrows hown'
      refine Thread.keeps_run_bind (Thread.keeps_result ?_)
      cases validateRevision revision details.entry.revision with
      | error e => exact hQ _ u hgrows hown'
      | ok a => exact hQ _ u hgrows hown'

/-- A refusal is logged, and changes nothing else. -/
theorem answering_keeps {session : Option Uuid} {owner : Owner} {m : Act Answer}
    {Q : ApiResult Answer → Authority → Prop}
    (hQ : ∀ r u t id armed, (discipline past).rely i u t → Q r u →
      Grows u (t.record i (.unprepared id owner armed)) →
        Q r (t.record i (.unprepared id owner armed)))
    (h : m.run.Keeps (discipline past) i Q s) :
    (answering i session owner m).Keeps (discipline past) i Q s := by
  refine Thread.keeps_bind (h.weaken ?_)
  intro answer u hu
  cases session with
  | none => exact Thread.keeps_pure hu
  | some id =>
      cases hprepares : Answer.prepares answer with
      | true =>
          simp only [if_true]
          exact Thread.keeps_pure hu
      | false =>
          simp only [Bool.false_eq_true, if_false]
          refine Thread.keeps_bind (Thread.keeps_modify ?_)
          intro t hvalid hrely
          have hallows := unprepared_allows (i := i) id owner hvalid
          exact ⟨hallows, Thread.keeps_pure (hQ _ _ _ _ _ hrely hu (hrely.1.trans hallows.grows))⟩

/-- What a thread that has redeemed a token knows until it uses it. -/
structure Redeemed (i : Nat) (kind : TokenKind) (id : Uuid) (owner : Owner) (expires : Nat)
    (s : Authority) : Prop where
  own : own i s.log = [(i, .redeemed kind id owner)]
  issued : (id, .issued kind owner expires) ∈ s.log
  spent : Spent kind id owner s

theorem Redeemed.grows {kind : TokenKind} {id : Uuid} {owner : Owner} {expires : Nat}
    {t : Authority} (h : Redeemed i kind id owner expires s) (hgrows : Grows s t)
    (hown : ThreadLog.own i t.log = ThreadLog.own i s.log) :
    Redeemed i kind id owner expires t :=
  ⟨hown.trans h.own, hgrows.log.subset h.issued, h.spent.grows hgrows⟩

/-- The commit takes the token out of the map. -/
theorem redeemed_of {kind : TokenKind} {id : Uuid} {owner : Owner} {expires : Nat}
    {t : Authority} (h : Valid past s) (hown : own i s.log = [])
    (hid : held s kind id = some (owner, expires)) (hnow : t.now = s.now)
    (hsessions : t.sessions = s.sessions) (hlog : t.log = s.log ++ [(i, .redeemed kind id owner)])
    (hheld : held t kind = Function.update (held s kind) id none)
    (hother : ∀ kind', kind' ≠ kind → held t kind' = held s kind') :
    (discipline past).Allows i s t ∧ Redeemed i kind id owner expires t := by
  have hissued : (id, .issued kind owner expires) ∈ t.log := by
    rw [hlog]
    exact List.mem_append_left _ ((h.tokens kind).held id owner expires hid)
  refine ⟨redeem_allows h hid hnow hsessions hlog hheld hother,
    ⟨?_, hissued, ⟨expires, hissued⟩, ?_⟩⟩
  · rw [hlog, own_append, hown, own_self, List.nil_append]
  · rw [hheld]
    exact Function.update_self ..

/-- A token that was issued to the owner before, and cannot be redeemed, is spent. -/
theorem spent_of_unheld {kind : TokenKind} {id : Uuid} {owner : Owner} (h : Valid past s)
    (hid : ∀ owner' expires, held s kind id = some (owner', expires) → owner' ≠ owner)
    (hpast : IssuedTo kind id owner past) : Spent kind id owner s := by
  obtain ⟨expires, hissued⟩ := hpast
  have hissued' := h.known.subset hissued
  refine ⟨⟨expires, hissued'⟩, ?_⟩
  cases hheld : held s kind id with
  | none => rfl
  | some token =>
      obtain ⟨owner', expires'⟩ := token
      have hsame := (h.tokens kind).issuedOnce id _ _ _ _
        ((h.tokens kind).held id _ _ hheld) hissued'
      exact absurd hsame.1 (hid owner' expires' hheld)

theorem redeemEdit_keeps {id : Uuid} {owner : Owner} {Q : ApiResult EditLease → Authority → Prop}
    (hown : own i s.log = [])
    (hok : ∀ lease u, Redeemed i .edit id owner lease.expires u → Q (.ok lease) u)
    (herror : ∀ e u, own i u.log = [] →
      (IssuedTo .edit id owner past → Spent .edit id owner u) → Q (.error e) u) :
    (redeemEdit i id owner).run.Keeps (discipline past) i Q s := by
  refine Thread.keeps_attempt ?_
  intro t hvalid hrely chance r u hu
  cases hr : (t.edits.redeem id owner).1 with
  | some lease =>
      obtain ⟨hid, howner, hrest⟩ := Tokens.redeem_some hr
      rw [show t.edits.redeem id owner = (some lease, Function.update t.edits id none) from
        Prod.ext hr hrest] at hu
      cases hu
      have hheld : held t .edit id = some (owner, lease.expires) := by
        rw [← howner]
        simp [held, hid, Token.owner]
      have hmap :=
        map_update (fun lease : EditLease => (lease.owner, lease.expires)) t.edits id none
      obtain ⟨hallows, hredeemed⟩ : _ ∧ Redeemed i .edit id owner lease.expires
          (record { t with edits := Function.update t.edits id none } i
            (.redeemed .edit id owner)) :=
        redeemed_of hvalid (hrely.2.trans hown) hheld rfl rfl rfl hmap
          fun kind hne => by cases kind <;> first | rfl | exact absurd rfl hne
      exact ⟨hallows, hok lease _ hredeemed⟩
  | none =>
      obtain ⟨hrest, hother⟩ := Tokens.redeem_none hr
      rw [show t.edits.redeem id owner = (none, t.edits) from Prod.ext hr hrest] at hu
      cases hu
      refine ⟨.refl hvalid, herror _ _ (hrely.2.trans hown)
        (spent_of_unheld hvalid fun owner' expires hheld => ?_)⟩
      obtain ⟨lease, hid, heq⟩ := Option.map_eq_some_iff.mp hheld
      cases heq
      exact hother lease hid

theorem redeemWipe_keeps {id : Uuid} {owner : Owner}
    {Q : ApiResult WipeChallenge → Authority → Prop} (hown : own i s.log = [])
    (hok : ∀ challenge u, Redeemed i .wipe id owner challenge.expires u → Q (.ok challenge) u)
    (herror : ∀ e u, own i u.log = [] →
      (IssuedTo .wipe id owner past → Spent .wipe id owner u) → Q (.error e) u) :
    (redeemWipe i id owner).run.Keeps (discipline past) i Q s := by
  refine Thread.keeps_attempt ?_
  intro t hvalid hrely chance r u hu
  cases hr : (t.challenges.redeem id owner).1 with
  | some challenge =>
      obtain ⟨hid, howner, hrest⟩ := Tokens.redeem_some hr
      rw [show t.challenges.redeem id owner =
        (some challenge, Function.update t.challenges id none) from Prod.ext hr hrest] at hu
      cases hu
      have hheld : held t .wipe id = some (owner, challenge.expires) := by
        rw [← howner]
        simp [held, hid, Token.owner]
      have hmap :=
        map_update (fun challenge : WipeChallenge => (challenge.owner, challenge.expires))
        t.challenges id none
      obtain ⟨hallows, hredeemed⟩ : _ ∧ Redeemed i .wipe id owner challenge.expires
          (record { t with challenges := Function.update t.challenges id none } i
            (.redeemed .wipe id owner)) :=
        redeemed_of hvalid (hrely.2.trans hown) hheld rfl rfl rfl hmap
          fun kind hne => by cases kind <;> first | rfl | exact absurd rfl hne
      exact ⟨hallows, hok challenge _ hredeemed⟩
  | none =>
      obtain ⟨hrest, hother⟩ := Tokens.redeem_none hr
      rw [show t.challenges.redeem id owner = (none, t.challenges) from Prod.ext hr hrest] at hu
      cases hu
      refine ⟨.refl hvalid, herror _ _ (hrely.2.trans hown)
        (spent_of_unheld hvalid fun owner' expires hheld => ?_)⟩
      obtain ⟨challenge, hid, heq⟩ := Option.map_eq_some_iff.mp hheld
      cases heq
      exact hother challenge hid

theorem unexpired_keeps {kind : TokenKind} {id : Uuid} {owner : Owner} {expires : Nat}
    {error : ApiError} {Q : ApiResult Nat → Authority → Prop}
    (h : Redeemed i kind id owner expires s)
    (hok : ∀ checked u, Redeemed i kind id owner expires u → checked < expires → Q (.ok checked) u)
    (herror : ∀ u, Redeemed i kind id owner expires u → Q (.error error) u) :
    (unexpired expires error).run.Keeps (discipline past) i Q s := by
  refine keeps_read h.own fun t chance hgrows hown => ?_
  have ht := h.grows hgrows (hown.trans h.own.symm)
  rcases Nat.lt_or_ge t.now expires with hlive | hexpired
  · rw [if_neg (Nat.not_le.mpr hlive)]
    exact hok t.now t ht hlive
  · rw [if_pos hexpired]
    exact herror t ht

theorem carryOut_keeps {kind : TokenKind} {id : Uuid} {owner : Owner} {expires checked : Nat}
    {Q : ApiResult Unit → Authority → Prop} (h : Redeemed i kind id owner expires s)
    (hlive : checked < expires)
    (hQ : ∀ r u, (∀ e, r = .error e → ∃ error, e = .ofBackend error) → Spent kind id owner u →
      own i u.log = [(i, .redeemed kind id owner), (i, .used kind id owner checked)] → Q r u) :
    (carryOut i kind id owner checked).run.Keeps (discipline past) i Q s := by
  refine Thread.keeps_attempt ?_
  intro t hvalid hrely chance r u hu
  obtain ⟨rfl, rfl⟩ := Prod.mk.inj (Option.some.inj hu)
  have ht := h.grows hrely.1 hrely.2
  have hallows := use_allows hvalid ht.own ht.issued hlive
  refine ⟨hallows, hQ _ _ (fun e he => ?_) (ht.spent.grows hallows.grows)
    (by simp [record, ht.own])⟩
  split at he <;> cases he
  exact ⟨_, rfl⟩

/-- What a commit knows after the replacement: the lease is spent, and whether the thread has
published. -/
structure Replaced (i : Nat) (id : Uuid) (owner : Owner) (r : ApiResult Bool) (s : Authority) :
    Prop where
  spent : Spent .edit id owner s
  unprepared : ∀ id owner, (i, .prepared id owner) ∉ s.log
  published : r = .ok true → (i, .published) ∈ s.log
  error : ∀ e, r = .error e → ¬RefusedEarly (.error e)

theorem not_refusedEarly {e : ApiError} (hsettings : e.code ≠ "settings-error")
    (htarget : e.code ≠ "stale-target") : ¬RefusedEarly (.error e) := by
  rintro ⟨message, h | h⟩
  · cases h
    exact hsettings rfl
  · cases h
    exact htarget rfl

theorem ofBackend_not_refusedEarly (e : BackendError) : ¬RefusedEarly (.error (.ofBackend e)) := by
  obtain ⟨kind, message⟩ := e
  cases kind <;> exact not_refusedEarly (by simp [ApiError.ofBackend, BackendErrorKind.code])
    (by simp [ApiError.ofBackend, BackendErrorKind.code])

theorem validateRevision_not_refusedEarly {expected : Option Nat} {actual : Nat} {e : ApiError}
    (h : validateRevision expected actual = .error e) : ¬RefusedEarly (.error e) := by
  unfold validateRevision at h
  split at h
  · split at h <;> cases h
    exact not_refusedEarly (by decide) (by decide)
  · cases h

/-- A lease is used by the thread that redeemed it, before it expired. -/
theorem replace_keeps {id : Uuid} {owner : Owner} {lease : EditLease} {value : String}
    {maxBytes : Nat} (h : Redeemed i .edit id owner lease.expires s) :
    (EditLease.replace i id owner lease value maxBytes).run.Keeps (discipline past) i
      (fun r u => Replaced i id owner r u) s := by
  have hfailed : ∀ e u, Redeemed i .edit id owner lease.expires u → ¬RefusedEarly (.error e) →
      Replaced i id owner (.error e) u := by
    intro e u hu he
    refine ⟨hu.spent, fun id' owner' hmem => ?_, (fun h => nomatch h), fun e' heq => ?_⟩
    · have hmine := mem_own hmem
      rw [hu.own] at hmine
      simp at hmine
    · cases heq
      exact he
  refine Thread.keeps_run_bind (unexpired_keeps h ?_ fun u hu =>
    hfailed _ u hu (not_refusedEarly (by decide) (by decide)))
  intro checked u hu hlive
  have hrest : ∀ w, Redeemed i .edit id owner lease.expires w →
      (do
        let revision ← backend (·.number)
        result (validateRevision (some lease.revision) revision)
        carryOut i .edit id owner checked
        publishReplacement i : Act Bool).run.Keeps (discipline past) i
          (fun r u => Replaced i id owner r u) w := by
    intro w hw
    refine Thread.keeps_run_bind (backend_keeps hw.own ?_ ?_)
    · intro revision x hgrows hown
      have hx := hw.grows hgrows (hown.trans hw.own.symm)
      refine Thread.keeps_run_bind (Thread.keeps_result ?_)
      cases hrevision : validateRevision (some lease.revision) revision with
      | error e => exact hfailed e x hx (validateRevision_not_refusedEarly hrevision)
      | ok a =>
          refine Thread.keeps_run_bind (carryOut_keeps hx hlive fun r y he hspent hown => ?_)
          cases r with
          | error e =>
              obtain ⟨error, rfl⟩ := he e rfl
              refine ⟨hspent, fun id' owner' hmem => ?_, nofun, fun e' heq => ?_⟩
              · have hmine := mem_own hmem
                rw [hown] at hmine
                simp at hmine
              · cases heq
                exact ofBackend_not_refusedEarly error
          | ok b =>
              refine publishReplacement_keeps hown fun published z hgrows hown => ?_
              refine ⟨hspent.grows hgrows, fun id' owner' hmem => ?_, fun hb => ?_, nofun⟩
              · have hmine := mem_own hmem
                rw [hown] at hmine
                cases published <;> simp at hmine
              · cases hb
                have hmine : (i, Effect.published) ∈ own i z.log := by simp [hown]
                exact List.mem_of_mem_filter hmine
    · exact fun e x hgrows hown => hfailed _ x (hw.grows hgrows (hown.trans hw.own.symm))
        (ofBackend_not_refusedEarly e)
  rcases Nat.lt_or_ge (min MAX_EDIT_BYTES maxBytes) (byteLen value) with hlong | hshort
  · simp only [hlong, if_true]
    exact Thread.keeps_run_bind (Thread.keeps_run_throw
      (hfailed _ u hu (not_refusedEarly (by decide) (by decide))))
  · simp only [Nat.not_lt.mpr hshort, if_false]
    exact hrest u hu

/-- A thread that has published, if it is ready, prepares the session. -/
theorem prepareSession_keeps {owner : Owner} {session : Option Uuid} {ready : Bool}
    {Q : ApiResult (Option Bool) → Authority → Prop} (hown : own i s.log = entries)
    (hpublished : ready = true → (i, .published) ∈ entries)
    (hQ : ∀ paste u, Grows s u → (paste = some true ∨ own i u.log = entries) → Q (.ok paste) u) :
    (prepareSession i owner session ready).run.Keeps (discipline past) i Q s := by
  cases session with
  | none => exact Thread.keeps_run_pure (hQ _ s (.refl s) (.inr hown))
  | some id =>
      cases ready with
      | false => exact Thread.keeps_run_pure (hQ _ s (.refl s) (.inr hown))
      | true =>
          refine Thread.keeps_run_bind (armPaste_keeps hown (hpublished rfl) ?_)
          intro b u hgrows hown
          cases b with
          | true => exact hQ _ u hgrows (.inl rfl)
          | false => exact hQ _ u hgrows (.inr (by simpa using hown))

theorem validateSession_keeps {session : Option Uuid} {owner : Owner}
    {Q : ApiResult Bool → Authority → Prop} (hown : own i s.log = entries)
    (hok : ∀ b u, Grows s u → own i u.log = entries → Q (.ok b) u)
    (herror : ∀ message u, Grows s u → own i u.log = entries →
      Q (.error (staleTarget message)) u) :
    (validateSession session owner).run.Keeps (discipline past) i Q s := by
  cases session with
  | none => exact Thread.keeps_run_pure (hok _ s (.refl s) hown)
  | some id => exact validatePaste_keeps hown hok herror

/-! ## The requests -/

theorem editCommit_keeps {owner : Owner} {params : EditCommitParams} (hown : own i s.log = []) :
    (editCommit i owner params).run.Keeps (discipline past) i
      (fun answer u => Commits past i .edit params.editId owner (RefusedEarly answer) answer u ∧
        Announced i answer u) s := by
  have hearly : ∀ e u, own i u.log = [] → RefusedEarly (.error e) →
      Commits past i .edit params.editId owner (RefusedEarly (.error e)) (.error e) u ∧
        Announced i (.error e) u := by
    refine fun e u hown he => ⟨⟨nofun, fun _ => .inl he, fun _ hmem => ?_⟩,
      announced_of_own hown fun _ _ h => absurd h List.not_mem_nil⟩
    have hmine := mem_own hmem
    rw [hown] at hmine
    cases hmine
  refine Thread.keeps_run_bind (settings_keeps hown ?_ ?_)
  · intro maxBytes t _ hown
    refine Thread.keeps_run_bind (purgeEdits_keeps hown ?_)
    intro u _ hown
    refine Thread.keeps_run_bind (validateSession_keeps hown ?_ ?_)
    · intro pasteTarget w _ hown
      refine Thread.keeps_run_bind (redeemEdit_keeps hown ?_ ?_)
      · intro lease x hx
        refine Thread.keeps_run_bind ((replace_keeps hx).weaken fun r y hy => ?_)
        cases r with
        | error e =>
            have he := hy.error e rfl
            exact ⟨⟨nofun, fun _ => .inr hy.spent, fun h => absurd h he⟩,
              fun id' owner' hmem => absurd hmem (hy.unprepared id' owner')⟩
        | ok published =>
            have hnone : ∀ id' owner', (i, Effect.prepared id' owner') ∉ own i y.log :=
              fun id' owner' hmem => hy.unprepared id' owner' (List.mem_of_mem_filter hmem)
            refine Thread.keeps_run_bind (prepareSession_keeps (rfl : own i y.log = _)
              (fun hready => ?_) fun paste z hgrows hprepared => ?_)
            · rw [Bool.and_eq_true] at hready
              exact mem_own (hy.published (by rw [hready.1]))
            · have hspent := hy.spent.grows hgrows
              refine ⟨⟨fun _ _ => hspent.1, fun _ => .inr hspent, ?_⟩, ?_⟩
              · rintro ⟨message, h | h⟩ <;> cases h
              · rcases hprepared with rfl | hown
                · exact fun _ _ _ => rfl
                · exact announced_of_own hown hnone
      · refine fun e x hown hx => ⟨⟨nofun, fun hpast => .inr (hx hpast), fun _ hmem => ?_⟩,
          announced_of_own hown fun _ _ h => absurd h List.not_mem_nil⟩
        have hmine := mem_own hmem
        rw [hown] at hmine
        cases hmine
    · exact fun message w _ hown => hearly _ w hown ⟨message, .inr rfl⟩
  · exact fun message t _ hown => hearly _ t hown ⟨message, .inl rfl⟩

theorem editCancel_keeps {owner : Owner} {id : Uuid} (hown : own i s.log = entries) :
    (editCancel owner id).run.Keeps (discipline past) i
      (fun answer u => ∀ id', answer = .ok (.cancelled id' true) → IssuedTo .edit id owner u.log)
      s := by
  refine Thread.keeps_run_bind (settings_keeps hown ?_ ?_)
  · intro maxBytes t _ hown
    refine Thread.keeps_run_bind (purgeEdits_keeps hown ?_)
    intro u _ _
    refine Thread.keeps_attempt ?_
    intro w hvalid hrely chance r x hx
    obtain ⟨rfl, rfl⟩ := Prod.mk.inj (Option.some.inj hx)
    refine ⟨allows_edits hvalid fun _ _ => Tokens.of_redeem, fun id' hid' => ?_⟩
    simp only [Except.ok.injEq, Answer.cancelled.injEq] at hid'
    obtain ⟨lease, hlease⟩ := Option.isSome_iff_exists.mp hid'.2
    obtain ⟨hid, howner, -⟩ := Tokens.redeem_some hlease
    refine ⟨lease.expires, (hvalid.tokens .edit).held id owner lease.expires ?_⟩
    rw [← howner]
    simp [held, hid, Token.owner]
  · intro message t _ _ id' hid'
    cases hid'

/-- What follows the comparison of the response. -/
def wipeConfirmed (i : Nat) (owner : Owner) (params : WipeParams) : Act Answer := do
  let challenge ← redeemWipe i params.challengeId owner
  let checked ← unexpired challenge.expires (.new "stale-action" "wipe challenge expired")
  let _ ← outside (·.flag)
  clearEdits
  carryOut i .wipe params.challengeId owner checked
  match ← outcome (outside (·.flag)) with
  | .ok _ => return .wiped none
  | .error error =>
      return .wiped (some ("History was wiped; capture remains stopped: " ++ error.message))

theorem wipeCommit_keeps {owner : Owner} {params : WipeParams} (hown : own i s.log = []) :
    (wipeCommit i owner params).run.Keeps (discipline past) i
      (fun answer u => Commits past i .wipe params.challengeId owner (params.response ≠ "WIPE")
        answer u) s := by
  rcases eq_or_ne params.response "WIPE" with heq | hne
  · have hspent : ∀ answer u, Spent .wipe params.challengeId owner u →
        Commits past i .wipe params.challengeId owner (params.response ≠ "WIPE") answer u :=
      fun answer u h => ⟨fun _ _ => h.1, fun _ => .inr h, fun hrefused => absurd heq hrefused⟩
    rw [wipeCommit, if_neg (not_not.mpr heq)]
    refine Thread.keeps_run_bind (redeemWipe_keeps hown ?_ ?_)
    · intro challenge u hu
      refine Thread.keeps_run_bind (unexpired_keeps hu ?_ fun w hw => hspent _ w hw.spent)
      intro checked w hw hlive
      refine Thread.keeps_run_bind (outside_keeps hw.own fun r x hgrows hown => ?_)
      cases r with
      | error e => exact hspent _ x (hw.spent.grows hgrows)
      | ok flag =>
        have hx := hw.grows hgrows (hown.trans hw.own.symm)
        refine Thread.keeps_run_bind (keeps_quiet hx.own (fun y chance r z hvalid hz => ?_) ?_)
        · obtain ⟨rfl, rfl⟩ := Prod.mk.inj (Option.some.inj hz)
          exact ⟨allows_edits hvalid (by intro id lease hid; cases hid), rfl⟩
        · intro r y hgrows hown
          have hy := hx.grows hgrows (hown.trans hx.own.symm)
          cases r with
          | error e => exact hspent _ y hy.spent
          | ok a =>
              refine Thread.keeps_run_bind (carryOut_keeps hy hlive ?_)
              intro r z _ hz _
              cases r with
              | error e => exact hspent _ z hz
              | ok flag =>
                  refine Thread.keeps_run_bind (Thread.keeps_outcome
                    (outside_keeps (rfl : own i z.log = _) fun r w hgrows _ => ?_))
                  have hw := hz.grows hgrows
                  cases r with
                  | error e => exact hspent _ w hw
                  | ok flag => exact hspent _ w hw
    · exact fun e u _ hu =>
        ⟨nofun, fun hpast => .inr (hu hpast), fun hrefused => absurd heq hrefused⟩
  · rw [wipeCommit, if_pos hne]
    refine Thread.keeps_run_bind (Thread.keeps_run_throw
      ⟨nofun, fun _ => .inl hne, fun _ hmem => ?_⟩)
    have hmine := mem_own hmem
    rw [hown] at hmine
    cases hmine

theorem sessionBegin_keeps {owner : Owner} (hown : own i s.log = []) :
    (sessionBegin i owner).run.Keeps (discipline past) i (fun _ _ => True) s := by
  refine Thread.keeps_run_bind (keeps_quiet hown (fun t chance r u hvalid hu => ?_) ?_)
  · obtain ⟨rfl, rfl⟩ := Prod.mk.inj (Option.some.inj hu)
    exact ⟨allows_sessions hvalid fun _ _ h => (SessionManager.removeExpired_some h).1, rfl⟩
  · intro r t _ hown
    cases r with
    | error e => trivial
    | ok a =>
        refine Thread.keeps_run_bind (keeps_read hown fun u chance _ hown => ?_)
        refine Thread.keeps_attempt ?_
        intro w hvalid hrely chance r x hx
        obtain ⟨rfl, rfl⟩ := Prod.mk.inj (Option.some.inj hx)
        exact ⟨start_allows hvalid (hrely.2.trans hown), trivial⟩

theorem sessionWait_keeps {owner : Owner} {id : Uuid} (rounds : Nat)
    (hown : own i s.log = entries) :
    (sessionWait owner id rounds).run.Keeps (discipline past) i (fun _ _ => True) s := by
  induction rounds generalizing s with
  | zero => trivial
  | succ rounds ih =>
      refine Thread.keeps_run_bind (keeps_read hown fun t chance _ hown => ?_)
      cases t.sessions.waitPoll id owner t.now chance.flag with
      | none => exact ih hown
      | some polled =>
          cases polled with
          | ok view => trivial
          | error error => trivial

theorem paste_keeps {owner : Owner} {params : ActionParams} (hown : own i s.log = []) :
    (paste i owner params).run.Keeps (discipline past) i (Announced i) s := by
  have hquiet : ∀ {answer u}, own i u.log = [] → Announced i answer u :=
    fun hown => announced_of_own hown fun _ _ h => absurd h List.not_mem_nil
  rw [paste]
  cases params.sessionId with
  | none => exact hquiet hown
  | some id =>
      refine Thread.keeps_run_bind (validatePaste_keeps hown ?_ fun _ _ _ hown => hquiet hown)
      intro hasTarget x _ hown
      refine Thread.keeps_run_bind (restore_keeps hown ?_ fun _ _ _ hown => hquiet hown)
      intro y _ hown
      cases hasTarget with
      | false =>
          refine Thread.keeps_run_bind (Thread.keeps_run_pure ?_)
          exact announced_of_own hown (by simp)
      | true =>
          refine Thread.keeps_run_bind (armPaste_keeps hown (by simp) ?_)
          intro armed z _ hown
          cases armed with
          | true => exact fun _ _ _ => prepares_pasteFeedback params.action
          | false => exact announced_of_own hown (by simp)

theorem entryAction_keeps {owner : Owner} {params : ActionParams} (hown : own i s.log = []) :
    (entryAction i owner params).run.Keeps (discipline past) i (Announced i) s := by
  have hquiet : ∀ {answer u}, own i u.log = [] → Announced i answer u :=
    fun hown => announced_of_own hown fun _ _ h => absurd h List.not_mem_nil
  refine Thread.keeps_run_bind (settings_keeps hown ?_ fun _ _ _ hown => hquiet hown)
  intro maxBytes t _ hown
  refine Thread.keeps_run_bind (purgeEdits_keeps hown ?_)
  intro u _ hown
  refine Thread.keeps_run_bind (loadDetails_keeps hown ?_)
  intro r w _ hown
  cases r with
  | error e => exact hquiet hown
  | ok details =>
      refine Thread.keeps_run_bind (Thread.keeps_result ?_)
      cases validateAction details params.action with
      | error e => exact hquiet hown
      | ok a =>
          cases params.pastes with
          | true => exact paste_keeps hown
          | false => exact outside_keeps hown fun _ _ _ hown => hquiet hown

theorem editBegin_keeps {owner : Owner} {params : EntryParams} (hown : own i s.log = []) :
    (editBegin i owner params).run.Keeps (discipline past) i (fun _ _ => True) s := by
  refine Thread.keeps_run_bind (settings_keeps hown ?_ fun _ _ _ _ => trivial)
  intro maxBytes t _ hown
  refine Thread.keeps_run_bind (purgeEdits_keeps hown ?_)
  intro u _ hown
  refine Thread.keeps_run_bind (loadDetails_keeps hown ?_)
  intro r w _ hown
  cases r with
  | error e => trivial
  | ok details =>
      refine Thread.keeps_run_bind (Thread.keeps_result ?_)
      cases editableValue details with
      | error e => trivial
      | ok value =>
          refine Thread.keeps_attempt ?_
          intro x hvalid hrely chance r y hy
          obtain ⟨rfl, rfl⟩ := Prod.mk.inj (Option.some.inj hy)
          have hmap := map_update (fun lease : EditLease => (lease.owner, lease.expires)) x.edits i
            (some { owner, entryId := details.entry.id, revision := details.entry.revision
                    mime := details.entry.mime, expires := x.now + EDIT_TTL })
          refine ⟨issue_allows hvalid
            (hrely.2.trans hown) rfl rfl rfl hmap fun kind hne => ?_, trivial⟩
          cases kind <;> first | rfl | exact absurd rfl hne

/-- The challenges that expired are purged first. -/
theorem wipePrepare_keeps {owner : Owner} (hown : own i s.log = []) :
    (wipePrepare i owner).run.Keeps (discipline past) i (fun _ _ => True) s := by
  refine Thread.keeps_attempt ?_
  intro t hvalid hrely chance r u hu
  obtain ⟨rfl, rfl⟩ := Prod.mk.inj (Option.some.inj hu)
  have hpurge := allows_challenges (i := i) hvalid fun _ _ =>
    (Tokens.purge_some : t.challenges.purge t.now _ = _ → _)
  have hmap := map_update (fun challenge : WipeChallenge => (challenge.owner, challenge.expires))
    (t.challenges.purge t.now) i (some { owner, expires := t.now + CHALLENGE_TTL })
  have hissue : (discipline past).Allows i { t with challenges := t.challenges.purge t.now }
      (record { t with
          challenges := (t.challenges.purge t.now).insert i
            { owner, expires := t.now + CHALLENGE_TTL } } i
        (.issued .wipe owner (t.now + CHALLENGE_TTL))) :=
    issue_allows hpurge.valid (hrely.2.trans hown) rfl rfl rfl hmap fun kind hne => by
      cases kind <;> first | rfl | exact absurd rfl hne
  refine ⟨⟨hissue.valid, hpurge.grows.trans hissue.grows, fun j hne => ?_⟩, trivial⟩
  exact (discipline past).rely_trans (hpurge.others j hne) (hissue.others j hne)

theorem release_keeps {held : Held} {owner : String} :
    (release held owner).run.Keeps (discipline past) i (fun _ _ => True) s := by
  refine Thread.keeps_attempt fun t hvalid _ chance r u hu => ?_
  obtain ⟨rfl, rfl⟩ := Prod.mk.inj (Option.some.inj hu)
  refine ⟨?_, trivial⟩
  cases held with
  | sessions => exact allows_sessions hvalid fun _ _ h => (Option.filter_eq_some_iff.mp h).1
  | edits => exact allows_edits hvalid fun _ _ => Tokens.release_some
  | challenges => exact allows_challenges hvalid fun _ _ => Tokens.release_some

theorem resourceOwners_keeps (hown : own i s.log = entries) :
    resourceOwners.run.Keeps (discipline past) i (fun _ _ => True) s := by
  refine Thread.keeps_run_bind (keeps_quiet hown (fun t chance r u hvalid hu => ?_) ?_)
  · obtain ⟨rfl, rfl⟩ := Prod.mk.inj (Option.some.inj hu)
    exact ⟨allows_sessions hvalid fun _ _ h => (SessionManager.removeExpired_some h).1, rfl⟩
  intro r t _ hown
  cases r with
  | error e => trivial
  | ok a =>
      refine Thread.keeps_run_bind (purgeEdits_keeps hown ?_)
      intro u _ hown
      refine Thread.keeps_run_bind (keeps_quiet hown (fun t chance r u hvalid hu => ?_) ?_)
      · obtain ⟨rfl, rfl⟩ := Prod.mk.inj (Option.some.inj hu)
        exact ⟨allows_challenges hvalid fun _ _ => Tokens.purge_some, rfl⟩
      · intro r w _ _
        cases r <;> trivial

end Specs

/-- Every request keeps the discipline. -/
theorem program_keeps (past : Log) (i : Nat) (call : AuthorityCall) (s : Authority)
    (hfresh : own i s.log = []) :
    (program i call).Keeps (discipline past) i (Post past i call) s := by
  cases call with
  | sessionBegin owner => exact sessionBegin_keeps hfresh
  | sessionHidden owner id =>
      refine Thread.keeps_attempt ?_
      intro t hvalid _ chance r u hu
      exact ⟨sessionHidden_allows hvalid hu, trivial⟩
  | sessionEnd owner id =>
      refine Thread.keeps_attempt ?_
      intro t hvalid _ chance r u hu
      obtain ⟨rfl, rfl⟩ := Prod.mk.inj (Option.some.inj hu)
      refine ⟨allows_sessions hvalid fun j session hj => ?_, trivial⟩
      rw [SessionManager.finish] at hj
      split at hj
      · exact update_none_some hj
      · exact hj
  | sessionWait owner id rounds => exact sessionWait_keeps rounds hfresh
  | entryAction owner params =>
      exact answering_keeps (fun _ _ _ _ _ hrely h _ => (h.rely hrely).unprepared)
        (entryAction_keeps hfresh)
  | editBegin owner params => exact editBegin_keeps hfresh
  | editCommit owner params =>
      refine answering_keeps (fun r u t id armed hrely h hgrows => ?_) (editCommit_keeps hfresh)
      have hlater := h.1.rely hrely
      refine ⟨⟨fun a ha => (h.1.owned a ha).grows hgrows,
        fun hpast => (h.1.spent hpast).imp_right fun hspent => hspent.grows hgrows,
        fun hrefused hmem => hlater.kept hrefused ?_⟩, (h.2.rely hrely).unprepared⟩
      exact (mem_append_single (by simp)).mp hmem
  | editCancel owner id => exact editCancel_keeps hfresh
  | wipePrepare owner => exact wipePrepare_keeps hfresh
  | wipeCommit owner params => exact wipeCommit_keeps hfresh
  | release held owner => exact release_keeps
  | resourceOwners => exact resourceOwners_keeps hfresh
  | elapse time =>
      refine Thread.keeps_attempt ?_
      intro t hvalid _ chance r u hu
      obtain ⟨rfl, rfl⟩ := Prod.mk.inj (Option.some.inj hu)
      refine ⟨allows_shrink hvalid (Nat.le_add_right ..) rfl (fun _ => .inl rfl)
        fun kind id => .inl ?_, trivial⟩
      cases kind <;> rfl

theorem service_valid (now : Nat) :
    (discipline []).Keeps (Post []) (service now) := by
  refine Discipline.keeps_start (s := initial now) ?_ fun _ => rfl
  refine ⟨⟨?_, ?_, ?_, ?_, ?_, ?_⟩, fun kind => ⟨?_, ?_, ?_, ?_, ?_, ?_⟩, List.prefix_rfl⟩ <;>
    simp [initial, held]
  cases kind <;> simp

/-- Every run of the service keeps the discipline. -/
theorem service_keeps (now : Nat) (moves : List (Pool.Move AuthorityCall Chance)) :
    (discipline []).Keeps (Post []) ((service now).after program moves) :=
  ((discipline []).run_keeps (fun i call s _ hfresh => program_keeps [] i call s hfresh)
    (fun _ _ _ _ _ _ _ hrely h => h.rely hrely) moves (service_valid now)).1

end ClipDaemon.Authority
