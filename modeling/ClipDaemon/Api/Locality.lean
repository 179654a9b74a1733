import ClipDaemon.Api.Authority

/-!
# What a request adds to the authority

A request may drop or use what is there, and it adds under the number of its own thread and
for its own owner only.  Leases are handed out by `clipboard.entry.edit.begin` alone, which is
not among the programs here.
-/

namespace ClipDaemon.Authority

open Thread (attempt outcome result)

/-- A statement of thread `i`, which serves `owner`. -/
structure Local (i : Nat) (owner : Owner) (s t : Authority) : Prop where
  sessions : ∀ id session, t.sessions id = some session →
    (∃ old, s.sessions id = some old ∧ old.owner = session.owner) ∨ (id = i ∧ session.owner = owner)
  edits : ∀ id lease, t.edits id = some lease → s.edits id = some lease
  challenges : ∀ id challenge, t.challenges id = some challenge →
    s.challenges id = some challenge ∨ (id = i ∧ challenge.owner = owner)

section Local

variable {i : Nat} {owner : Owner} {s : Authority}

theorem Local.refl (s : Authority) : Local i owner s s :=
  ⟨fun _ session h => .inl ⟨session, h, rfl⟩, fun _ _ h => h, fun _ _ h => .inl h⟩

/-- The log does not matter. -/
theorem Local.record {t : Authority} (h : Local i owner s t) (effect : Effect) :
    Local i owner s (t.record i effect) :=
  ⟨h.sessions, h.edits, h.challenges⟩

theorem local_sessions {sessions : SessionManager} (h : ∀ id session, sessions id = some session →
      (∃ old, s.sessions id = some old ∧ old.owner = session.owner) ∨
        (id = i ∧ session.owner = owner)) : Local i owner s { s with sessions } :=
  ⟨h, fun _ _ h => h, fun _ _ h => .inl h⟩

theorem local_edits {edits : Tokens EditLease}
    (h : ∀ id lease, edits id = some lease → s.edits id = some lease) :
    Local i owner s { s with edits } :=
  ⟨fun _ session h => .inl ⟨session, h, rfl⟩, h, fun _ _ h => .inl h⟩

theorem local_challenges {challenges : Tokens WipeChallenge}
    (h : ∀ id challenge, challenges id = some challenge →
      s.challenges id = some challenge ∨ (id = i ∧ challenge.owner = owner)) :
    Local i owner s { s with challenges } :=
  ⟨fun _ session h => .inl ⟨session, h, rfl⟩, fun _ _ h => h, h⟩

/-- A session that is used stays that of its owner. -/
theorem local_withSession {α : Type} {id : Uuid} {now : Nat} {useSession : Session → α × Session}
    (huse : ∀ session, (useSession session).2.owner = session.owner) :
    Local i owner s { s with sessions := (s.sessions.withSession id owner now useSession).2 } := by
  refine local_sessions fun j session h => .inl ?_
  rcases s.sessions.withSession_cases id owner now useSession with
    ⟨e, heq⟩ | ⟨e, old, -, -, heq⟩ | ⟨old, hold, -, -, -, heq⟩
  · rw [heq] at h
    exact ⟨session, h, rfl⟩
  · simp only [heq] at h
    rcases eq_or_ne j id with rfl | hne
    · rw [Function.update_self] at h
      cases h
    · rw [Function.update_of_ne hne] at h
      exact ⟨session, h, rfl⟩
  · simp only [heq] at h
    rcases eq_or_ne j id with rfl | hne
    · rw [Function.update_self] at h
      cases h
      exact ⟨old, hold, (huse old).symm⟩
    · rw [Function.update_of_ne hne] at h
      exact ⟨session, h, rfl⟩

end Local

section Programs

variable {i : Nat} {owner : Owner}

theorem each_settings {α : Type} (reply : Chance → α) :
    (settings reply).run.Each (Local i owner) := by
  refine Thread.each_attempt fun c s r t hop => ?_
  cases hop
  exact .refl s

theorem each_maxEntryBytes : maxEntryBytes.run.Each (Local i owner) := each_settings _

theorem local_purgeEdits : purgeEdits.run.Each (Local i owner) := by
  refine Thread.each_attempt fun c s r t hop => ?_
  cases hop
  exact local_edits fun id lease h => Tokens.purge_some h

theorem local_validatePaste (id : Uuid) : (validatePaste id owner).run.Each (Local i owner) := by
  refine Thread.each_attempt fun c s r t hop => ?_
  cases hop
  exact local_withSession fun _ => rfl

theorem local_armPaste (id : Uuid) : (armPaste i id owner).run.Each (Local i owner) := by
  refine Thread.each_attempt fun c s r t hop => ?_
  have hlocal : Local i owner s { s with sessions := (s.sessions.armPaste id owner s.now).2 } := by
    have hused : Local i owner s { s with sessions := (s.sessions.withSession id owner s.now
        fun session => (session.target.isSome,
          { session with pastePending := session.target.isSome })).2 } :=
      local_withSession fun _ => rfl
    rw [SessionManager.armPaste]
    split
    next heq => rw [heq] at hused; exact hused
    next heq => rw [heq] at hused; exact hused
  simp only at hop
  split at hop
  · cases hop
    exact hlocal.record _
  · cases hop
    exact hlocal

theorem local_redeemEdit (id : Uuid) : (redeemEdit i id owner).run.Each (Local i owner) := by
  refine Thread.each_attempt fun c s r t hop => ?_
  have hlocal : Local i owner s { s with edits := (s.edits.redeem id owner).2 } :=
    local_edits fun j lease h => Tokens.of_redeem h
  split at hop
  next heq =>
    cases hop
    rw [heq] at hlocal
    exact hlocal.record _
  next heq =>
    cases hop
    rw [heq] at hlocal
    exact hlocal

theorem local_redeemWipe (id : Uuid) : (redeemWipe i id owner).run.Each (Local i owner) := by
  refine Thread.each_attempt fun c s r t hop => ?_
  have hlocal : Local i owner s { s with challenges := (s.challenges.redeem id owner).2 } :=
    local_challenges fun j challenge h => .inl (Tokens.of_redeem h)
  split at hop
  next heq =>
    cases hop
    rw [heq] at hlocal
    exact hlocal.record _
  next heq =>
    cases hop
    rw [heq] at hlocal
    exact hlocal

theorem local_unexpired (expires : Nat) (error : ApiError) :
    (unexpired expires error).run.Each (Local i owner) := by
  refine Thread.each_attempt fun c s r t hop => ?_
  cases hop
  exact .refl s

theorem local_prepareSession (session : Option Uuid) (ready : Bool) :
    (prepareSession i owner session ready).run.Each (Local i owner) := by
  cases session with
  | none => exact Thread.each_run_pure _
  | some id =>
      rw [prepareSession]
      split
      · exact Thread.each_run_bind (local_armPaste id) fun _ => Thread.each_run_pure _
      · exact Thread.each_run_pure _

theorem local_validateSession (session : Option Uuid) :
    (validateSession session owner).run.Each (Local i owner) := by
  cases session with
  | none => exact Thread.each_run_pure _
  | some id => exact local_validatePaste id

theorem local_sessionBegin : (sessionBegin i owner).run.Each (Local i owner) := by
  refine Thread.each_run_bind ?_ fun _ => Thread.each_run_bind ?_ fun target => ?_
  · refine Thread.each_attempt fun c s r t hop => ?_
    cases hop
    exact local_sessions fun id session h =>
      .inl ⟨session, (SessionManager.removeExpired_some h).1, rfl⟩
  · refine Thread.each_attempt fun c s r t hop => ?_
    cases hop
    exact .refl s
  · refine Thread.each_attempt fun c s r t hop => ?_
    cases hop
    refine Local.record (local_sessions fun id session h => ?_) _
    simp only [SessionManager.start] at h
    rcases eq_or_ne id i with rfl | hne
    · rw [Function.update_self] at h
      cases h
      exact .inr ⟨rfl, rfl⟩
    · rw [Function.update_of_ne hne] at h
      exact .inl ⟨session, h, rfl⟩

theorem local_sessionHidden (id : Uuid) : (sessionHidden i owner id).run.Each (Local i owner) := by
  refine Thread.each_attempt fun c s r t hop => ?_
  have hlocal : Local i owner s { s with sessions := (s.sessions.hideWith id owner s.now).2 } :=
    local_withSession fun _ => rfl
  split at hop
  next heq =>
    cases hop
    rw [heq] at hlocal
    exact hlocal.record _
  next heq =>
    cases hop
    rw [heq] at hlocal
    exact hlocal
  next heq =>
    cases hop
    rw [heq] at hlocal
    exact hlocal

theorem local_sessionEnd (id : Uuid) : (sessionEnd owner id).run.Each (Local i owner) := by
  refine Thread.each_attempt fun c s r t hop => ?_
  cases hop
  refine local_sessions fun j session h => .inl ⟨session, ?_, rfl⟩
  rw [SessionManager.finish] at h
  split at h
  · simp only at h
    rcases eq_or_ne j id with rfl | hne
    · rw [Function.update_self] at h
      cases h
    · rwa [Function.update_of_ne hne] at h
  · exact h

theorem local_sessionWait (id : Uuid) (rounds : Nat) :
    (sessionWait owner id rounds).run.Each (Local i owner) := by
  induction rounds with
  | zero => exact Thread.each_run_pure _
  | succ rounds ih =>
      refine Thread.each_run_bind ?_ fun polled => ?_
      · refine Thread.each_attempt fun c s r t hop => ?_
        cases hop
        exact .refl s
      · split
        · exact Thread.each_run_pure _
        · exact Thread.each_run_throw _
        · exact ih

theorem local_wipePrepare : (wipePrepare i owner).run.Each (Local i owner) := by
  refine Thread.each_attempt fun c s r t hop => ?_
  cases hop
  refine Local.record (local_challenges fun id challenge h => ?_) _
  rcases eq_or_ne id i with rfl | hne
  · rw [Tokens.insert, Function.update_self] at h
    cases h
    exact .inr ⟨rfl, rfl⟩
  · rw [Tokens.insert, Function.update_of_ne hne] at h
    exact .inl (Tokens.purge_some h)

end Programs

end ClipDaemon.Authority
