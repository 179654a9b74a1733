import ClipDaemon.Api.Requests

/-!
# What authority is good for

The two results about every interleaving of the requests.  A session pastes at most once,
for its owner, before it expires, and after a publication; but a request that is refused
does not disarm the session, so a paste can follow a refusal (`stale_paste`).  A token is
used at most once, for its owner; other owners can neither use it nor take it away, and a
commit of its owner spends it whether or not it succeeds.
-/

namespace ClipDaemon.Authority

open Thread (attempt outcome result)
open ThreadLog

/-! ## Paste follows the last publication -/

/-- Answers for a history of one text entry. -/
def oneEntry (fails : Option ApiError) (refuses : Option BackendError) : Chance where
  fails := fails
  refuses := refuses
  number := 1
  target := some ⟨"0x1", "foot"⟩
  details :=
    { entry := ⟨"e", 1, .text, "text/plain", 1, false, true, "x"⟩
      text := some "x"
      files := []
      image := none
      previewTruncated := false }
  flag := true

/-- Steps of a thread whose calls all succeed. -/
def steps (i n : Nat) : List (Pool.Move AuthorityCall Chance) :=
  List.replicate n (.step i (oneEntry none none))

/-- Unexpired tokens stay in the map, those of the owner unless they are `gone`. -/
def Leaves (kinds : TokenKind → Prop) (owner : Owner) (gone : TokenKind → Uuid → Authority → Prop)
    (s t : Authority) : Prop :=
  ∀ kind, kinds kind → ∀ id owner' expires, s.now < expires →
    held s kind id = some (owner', expires) →
      held t kind id = some (owner', expires) ∨ owner' = owner ∧ gone kind id t

/-- The thread has redeemed the token. -/
def Redeems (i : Nat) (owner : Owner) (kind : TokenKind) (id : Uuid) (s : Authority) : Prop :=
  (i, .redeemed kind id owner) ∈ s.log

/-- What a commit or a cancellation does to tokens: to those of others nothing, and to those of
its owner it is known what.  A wipe that is committed revokes every lease. -/
def Spares (i : Nat) : AuthorityCall → Authority → Authority → Prop
  | .editCommit owner _ => Leaves (fun _ => True) owner (Redeems i owner)
  | .editCancel owner _ => Leaves (fun _ => True) owner fun _ _ _ => True
  | .wipeCommit owner _ => Leaves (· = .wipe) owner (Redeems i owner)
  | _ => fun _ _ => True

section Others

variable {kinds : TokenKind → Prop} {owner : Owner} {gone : TokenKind → Uuid → Authority → Prop}
  {i : Nat} {α : Type}

theorem Leaves.of_held {s t : Authority} (h : ∀ kind, kinds kind → held t kind = held s kind) :
    Leaves kinds owner gone s t :=
  fun kind hkind id _ _ _ hid => .inl (by rw [h kind hkind, hid])

/-- A statement that only reads. -/
theorem each_read {read : Chance → Authority → ApiResult α} :
    (attempt fun chance s => some (read chance s, s)).run.Each (Leaves kinds owner gone) := by
  refine Thread.each_attempt fun chance s r t h => ?_
  cases h
  exact .of_held fun _ _ => rfl

theorem each_purgeEdits : purgeEdits.run.Each (Leaves kinds owner gone) := by
  refine Thread.each_attempt fun chance s r t h => ?_
  cases h
  intro kind _ id owner' expires hlive hid
  cases kind with
  | wipe => exact .inl hid
  | edit =>
      obtain ⟨lease, hlease, heq⟩ := Option.map_eq_some_iff.mp hid
      cases heq
      exact .inl (by simp [held, Tokens.purge_of_live hlease hlive])

theorem each_validatePaste {id : Uuid} :
    (validatePaste id owner).run.Each (Leaves kinds owner gone) := by
  refine Thread.each_attempt fun chance s r t h => ?_
  obtain ⟨rfl, rfl⟩ := Prod.mk.inj (Option.some.inj h)
  exact .of_held fun kind _ => by cases kind <;> rfl

theorem each_armPaste {id : Uuid} : (armPaste i id owner).run.Each (Leaves kinds owner gone) := by
  refine Thread.each_attempt fun chance s r t h => ?_
  obtain ⟨rfl, rfl⟩ := Prod.mk.inj (Option.some.inj h)
  refine .of_held fun kind _ => ?_
  cases (s.sessions.armPaste id owner s.now).1 <;> cases kind <;> rfl

/-- The removal of a token looks at its owner first. -/
theorem each_redeemEdit {id : Uuid} :
    (redeemEdit i id owner).run.Each (Leaves kinds owner (Redeems i owner)) := by
  refine Thread.each_attempt fun chance s r t h => ?_
  intro kind _ j owner' expires _ hid
  cases hr : (s.edits.redeem id owner).1 with
  | some lease =>
      obtain ⟨hlease, howner, hrest⟩ := Tokens.redeem_some hr
      rw [show s.edits.redeem id owner = (some lease, Function.update s.edits id none) from
        Prod.ext hr hrest] at h
      cases h
      cases kind with
      | wipe => exact .inl hid
      | edit =>
          rcases eq_or_ne j id with rfl | hne
          · obtain ⟨lease', hlease', heq⟩ := Option.map_eq_some_iff.mp hid
            cases hlease.symm.trans hlease'
            cases heq
            exact .inr ⟨howner, List.mem_append_right _ List.mem_cons_self⟩
          · refine .inl (Eq.trans ?_ hid)
            simp [held, record, Function.update_of_ne hne]
  | none =>
      rw [show s.edits.redeem id owner = (none, s.edits) from
        Prod.ext hr (Tokens.redeem_none hr).1] at h
      cases h
      exact .inl hid

theorem each_redeemWipe {id : Uuid} :
    (redeemWipe i id owner).run.Each (Leaves kinds owner (Redeems i owner)) := by
  refine Thread.each_attempt fun chance s r t h => ?_
  intro kind _ j owner' expires _ hid
  cases hr : (s.challenges.redeem id owner).1 with
  | some challenge =>
      obtain ⟨hchallenge, howner, hrest⟩ := Tokens.redeem_some hr
      rw [show s.challenges.redeem id owner =
        (some challenge, Function.update s.challenges id none) from Prod.ext hr hrest] at h
      cases h
      cases kind with
      | edit => exact .inl hid
      | wipe =>
          rcases eq_or_ne j id with rfl | hne
          · obtain ⟨challenge', hchallenge', heq⟩ := Option.map_eq_some_iff.mp hid
            cases hchallenge.symm.trans hchallenge'
            cases heq
            exact .inr ⟨howner, List.mem_append_right _ List.mem_cons_self⟩
          · refine .inl (Eq.trans ?_ hid)
            simp [held, record, Function.update_of_ne hne]
  | none =>
      rw [show s.challenges.redeem id owner = (none, s.challenges) from
        Prod.ext hr (Tokens.redeem_none hr).1] at h
      cases h
      exact .inl hid

theorem each_carryOut {kind : TokenKind} {id : Uuid} {checked : Nat} :
    (carryOut i kind id owner checked).run.Each (Leaves kinds owner gone) := by
  refine Thread.each_attempt fun chance s r t h => ?_
  obtain ⟨rfl, rfl⟩ := Prod.mk.inj (Option.some.inj h)
  exact .of_held fun kind _ => by cases kind <;> rfl

theorem each_publishReplacement : (publishReplacement i).run.Each (Leaves kinds owner gone) := by
  refine Thread.each_attempt fun chance s r t h => ?_
  obtain ⟨rfl, rfl⟩ := Prod.mk.inj (Option.some.inj h)
  refine .of_held fun kind _ => ?_
  cases chance.flag <;> cases kind <;> rfl

theorem each_answering {session : Option Uuid} {m : Act Answer}
    (h : m.run.Each (Leaves kinds owner gone)) :
    (answering i session owner m).Each (Leaves kinds owner gone) := by
  refine Thread.each_bind h fun answer => ?_
  cases session with
  | none => exact Thread.each_pure _
  | some id =>
      cases Answer.prepares answer with
      | true => exact Thread.each_pure _
      | false =>
          refine Thread.each_bind (Thread.each_modify fun s => ?_) fun _ => Thread.each_pure _
          exact .of_held fun kind _ => by cases kind <;> rfl

theorem each_result (r : ApiResult α) :
    (result r : Act α).run.Each (Leaves kinds owner gone) := Thread.each_pure _

theorem each_replace {id : Uuid} {lease : EditLease} {value : String} {maxBytes : Nat} :
    (EditLease.replace i id owner lease value maxBytes).run.Each (Leaves kinds owner gone) := by
  refine Thread.each_run_bind each_read fun checked => ?_
  have hrest : (do
      let revision ← backend (·.number)
      result (validateRevision (some lease.revision) revision)
      carryOut i .edit id owner checked
      publishReplacement i : Act Bool).run.Each (Leaves kinds owner gone) :=
    Thread.each_run_bind each_read fun revision =>
      Thread.each_run_bind (each_result _) fun _ =>
        Thread.each_run_bind each_carryOut fun _ => each_publishReplacement
  rcases Nat.lt_or_ge (min MAX_EDIT_BYTES maxBytes) (byteLen value) with hlong | hshort
  · simp only [hlong, if_true]
    exact Thread.each_run_bind (Thread.each_run_throw _) fun _ => hrest
  · simp only [Nat.not_lt.mpr hshort, if_false]
    exact hrest

theorem each_editCommit {params : EditCommitParams} :
    (editCommit i owner params).run.Each (Leaves kinds owner (Redeems i owner)) := by
  refine Thread.each_run_bind each_read fun maxBytes => ?_
  refine Thread.each_run_bind each_purgeEdits fun _ => ?_
  refine Thread.each_run_bind ?_ fun pasteTarget => ?_
  · cases params.pasteSessionId with
    | none => exact Thread.each_run_pure _
    | some id => exact each_validatePaste
  · refine Thread.each_run_bind each_redeemEdit fun lease => ?_
    refine Thread.each_run_bind each_replace fun published => ?_
    refine Thread.each_run_bind ?_ fun paste => Thread.each_run_pure _
    cases params.pasteSessionId with
    | none => exact Thread.each_run_pure _
    | some id =>
        cases published && pasteTarget with
        | false => exact Thread.each_run_pure _
        | true => exact Thread.each_run_bind each_armPaste fun _ => Thread.each_run_pure _

theorem each_editCancel {id : Uuid} :
    (editCancel owner id).run.Each (Leaves kinds owner fun _ _ _ => True) := by
  refine Thread.each_run_bind each_read fun maxBytes => ?_
  refine Thread.each_run_bind each_purgeEdits fun _ => ?_
  refine Thread.each_attempt fun chance s r t h => ?_
  obtain ⟨rfl, rfl⟩ := Prod.mk.inj (Option.some.inj h)
  intro kind _ j owner' expires _ hid
  cases kind with
  | wipe => exact .inl hid
  | edit =>
      obtain ⟨lease, hlease, heq⟩ := Option.map_eq_some_iff.mp hid
      cases heq
      rcases eq_or_ne lease.owner owner with howner | hne
      · exact .inr ⟨howner, trivial⟩
      · have hkept : (s.edits.redeem id owner).2 j = some lease := Tokens.redeem_of_ne hlease hne
        exact .inl (by simp [held, hkept])

theorem each_wipeCommit {params : WipeParams} :
    (wipeCommit i owner params).run.Each (Leaves (· = .wipe) owner (Redeems i owner)) := by
  have hrest : (wipeConfirmed i owner params).run.Each
      (Leaves (· = .wipe) owner (Redeems i owner)) := by
    refine Thread.each_run_bind each_redeemWipe fun challenge => ?_
    refine Thread.each_run_bind each_read fun checked => ?_
    refine Thread.each_run_bind each_read fun _ => ?_
    refine Thread.each_run_bind (Thread.each_attempt fun chance s r t h => ?_) fun _ => ?_
    · cases h
      exact .of_held fun kind hkind => by subst hkind; rfl
    · refine Thread.each_run_bind each_carryOut fun _ => ?_
      refine Thread.each_run_bind
        (Thread.each_bind each_read fun _ => Thread.each_pure _) fun r => ?_
      cases r with
      | ok a => exact Thread.each_run_pure _
      | error e => exact Thread.each_run_pure _
  rcases eq_or_ne params.response "WIPE" with heq | hne
  · rw [wipeCommit, if_neg (not_not.mpr heq)]
    exact hrest
  · rw [wipeCommit, if_pos hne]
    exact Thread.each_run_bind (Thread.each_run_throw _) fun _ => hrest

end Others

/-- Every statement of every call spares the tokens of others. -/
theorem program_spares (i : Nat) (call : AuthorityCall) :
    (program i call).Each (Spares i call) := by
  cases call with
  | editCommit owner params => exact each_answering each_editCommit
  | editCancel owner id => exact each_editCancel
  | wipeCommit owner params => exact each_wipeCommit
  | _ => exact Thread.each_any _

/-! ## Tokens are used once -/

/-- The owner of the commit of a token, and the token. -/
def commits : AuthorityCall → Option (TokenKind × Uuid × Owner)
  | .editCommit owner params => some (.edit, params.editId, owner)
  | .wipeCommit owner params => some (.wipe, params.challengeId, owner)
  | _ => none

/-- The commit was refused because of the settings, its paste session or its response word. -/
def Refused : AuthorityCall → ApiResult Answer → Prop
  | .editCommit _ _, answer => RefusedEarly answer
  | .wipeCommit _ params, _ => params.response ≠ "WIPE"
  | _, _ => False

theorem Post.commits {past : Log} {i : Nat} {call : AuthorityCall} {answer : ApiResult Answer}
    {s : Authority} {kind : TokenKind} {id : Uuid} {owner : Owner} (h : Post past i call answer s)
    (hcall : commits call = some (kind, id, owner)) :
    Commits past i kind id owner (Refused call answer) answer s := by
  cases call with
  | editCommit owner' params => cases hcall; exact h.1
  | wipeCommit owner' params => cases hcall; exact h
  | _ => cases hcall

theorem discipline_refines (past : Log) : (discipline past).Refines (discipline []) where
  valid _ h := ⟨h.paste, h.tokens, List.nil_prefix⟩
  rely _ _ _ h := h
  allows _ _ _ h hallows :=
    ⟨⟨hallows.valid.paste, hallows.valid.tokens, h.known.trans hallows.grows.log⟩, hallows.grows,
      hallows.others⟩

/-- A commit that is called while its owner holds the token spends it, unless it is refused. -/
theorem commit_spends (now : Nat) (moves moves' : List (Pool.Move AuthorityCall Chance))
    {kind : TokenKind} {id : Uuid} {owner : Owner} {expires i : Nat} {call : AuthorityCall}
    {answer : ApiResult Answer}
    (hheld : held ((service now).after program moves).shared kind id = some (owner, expires))
    (hnew : ((service now).after program moves).threads i = none)
    (hcall : commits call = some (kind, id, owner))
    (hreturned :
      (((service now).after program moves).after program moves').Returned i call answer) :
    Refused call answer ∨
      held (((service now).after program moves).after program moves').shared kind id = none := by
  have hkeeps := service_keeps now moves
  generalize (service now).after program moves = pool at hkeeps hheld hnew hreturned ⊢
  -- From here on the log is known to say that the token was issued.
  have hissued : IssuedTo kind id owner pool.shared.log :=
    ⟨expires, (hkeeps.valid.tokens kind).held id owner expires hheld⟩
  have hlater : (discipline pool.shared.log).Keeps
      (fun j call answer s => pool.threads j = none → Post pool.shared.log j call answer s) pool :=
    hkeeps.refine (discipline_refines _) ⟨hkeeps.valid.paste, hkeeps.valid.tokens, List.prefix_rfl⟩
      (fun _ h => h) fun j call answer s hj _ hnone => absurd hnone hj
  have hdone : (discipline pool.shared.log).Keeps
      (fun j call answer s => pool.threads j = none → Post pool.shared.log j call answer s)
      (pool.after program moves') := by
    refine (Discipline.run_keeps (fun j call s _ hfresh => ?_) ?_ moves' hlater).1
    · exact (program_keeps pool.shared.log j call s hfresh).weaken fun _ _ hpost _ => hpost
    · exact fun _ _ _ _ _ _ _ hrely h hj => (h hj).rely hrely
  have hpost : Post pool.shared.log i call answer (pool.after program moves').shared :=
    hdone.threads i call _ hreturned hnew
  exact ((hpost.commits hcall).spent hissued).imp_right fun hspent => hspent.2

/-- A commit whose statement takes a token out of the map is not one that is refused. -/
theorem refused_keeps (now : Nat) (moves moves' : List (Pool.Move AuthorityCall Chance)) {i : Nat}
    {call : AuthorityCall} {kind : TokenKind} {id : Uuid} {owner : Owner}
    {answer : ApiResult Answer} (hcall : commits call = some (kind, id, owner))
    (hredeemed : (i, .redeemed kind id owner) ∈ ((service now).after program moves).shared.log)
    (hreturned :
      (((service now).after program moves).after program moves').Returned i call answer) :
    ¬Refused call answer := by
  obtain ⟨hkeeps, hgrows⟩ := (discipline []).run_keeps
    (fun i call s _ hfresh => program_keeps [] i call s hfresh)
    (fun _ _ _ _ _ _ _ hrely h => h.rely hrely) moves' (service_keeps now moves)
  have hpost : Post [] i call answer _ := hkeeps.threads i call _ hreturned
  exact fun hrefused => (hpost.commits hcall).kept hrefused (hgrows.log.subset hredeemed)

/-- Edit leases and wipe challenges are single-use and bound to their owner.

The parts: each is used at most once; by its owner, who had it compared with its expiry;
a commit or cancellation by another owner fails; each of its steps leaves the tokens of
others alone; a step of a commit leaves the token that it names in the map, unless the commit is
not refused; and a commit of the owner spends the token, unless it is refused. -/
theorem tokens_single_use (now : Nat) (moves : List (Pool.Move AuthorityCall Chance)) :
    let pool := (service now).after program moves
    (∀ kind id, pool.shared.log.countP (isUse kind id) ≤ 1) ∧
    (∀ j kind id owner checked, (j, .used kind id owner checked) ∈ pool.shared.log →
      ∃ expires, (id, .issued kind owner expires) ∈ pool.shared.log ∧ checked < expires) ∧
    (∀ kind id owner expires, (id, .issued kind owner expires) ∈ pool.shared.log →
      ∀ owner', owner' ≠ owner → ∀ i answer,
        (∀ call, commits call = some (kind, id, owner') → pool.Returned i call answer →
          ∃ e, answer = .error e) ∧
        (kind = .edit → pool.Returned i (.editCancel owner' id) answer →
          ∀ id', answer ≠ .ok (.cancelled id' true))) ∧
    (∀ i call m chance, pool.threads i = some (call, m) →
      Spares i call pool.shared (pool.step program (.step i chance)).shared ∧
      ∀ kind id owner expires, commits call = some (kind, id, owner) →
        held pool.shared kind id = some (owner, expires) → pool.shared.now < expires →
        held (pool.step program (.step i chance)).shared kind id = some (owner, expires) ∨
          ∀ moves' answer,
            ((pool.step program (.step i chance)).after program moves').Returned i call answer →
              ¬Refused call answer) ∧
    ∀ kind id owner expires, held pool.shared kind id = some (owner, expires) →
      ∀ i call answer moves', pool.threads i = none → commits call = some (kind, id, owner) →
        (pool.after program moves').Returned i call answer →
        Refused call answer ∨ held (pool.after program moves').shared kind id = none := by
  intro pool
  have hkeeps := service_keeps now moves
  refine ⟨fun kind => (hkeeps.valid.tokens kind).usedOnce,
    fun j kind id owner checked hj => ((hkeeps.valid.tokens kind).used j id owner checked hj).2,
    fun kind id owner expires hissued owner' hne i answer => ⟨fun call hcall hreturned => ?_,
      fun hkind hreturned id' hid' => ?_⟩, fun i call m chance hthread => ?_,
    fun kind id owner expires hheld i call answer moves' hnew hcall hreturned =>
      commit_spends now moves moves' hheld hnew hcall hreturned⟩
  · have hpost : Post [] i call answer pool.shared := hkeeps.threads i call _ hreturned
    cases hanswer : answer with
    | error e => exact ⟨e, rfl⟩
    | ok a =>
        obtain ⟨expires', hissued'⟩ := (hpost.commits hcall).owned a hanswer
        exact absurd ((hkeeps.valid.tokens kind).issuedOnce id _ _ _ _ hissued' hissued).1 hne
  · subst hkind
    have hpost : Post [] i (.editCancel owner' id) answer pool.shared :=
      hkeeps.threads i _ _ hreturned
    obtain ⟨expires', hissued'⟩ := hpost id' hid'
    exact hne ((hkeeps.valid.tokens .edit).issuedOnce id _ _ _ _ hissued' hissued).1
  have hspares : Spares i call pool.shared (pool.step program (.step i chance)).shared := by
    have heach : pool.Each Spares := Pool.each_after program_spares (Pool.each_start _) moves
    rcases (Pool.each_step program_spares heach (.step i chance)).2 with heq |
        ⟨j, call', m', c, hmove, hthread', hspares⟩
    · rw [heq]
      cases call <;> first | trivial | exact fun _ _ _ _ _ _ hid => .inl hid
    · cases hmove
      rw [hthread] at hthread'
      cases hthread'
      exact hspares
  refine ⟨hspares, fun kind id owner expires hcall hheld hlive => ?_⟩
  have hkept : held (pool.step program (.step i chance)).shared kind id = some (owner, expires) ∨
      Redeems i owner kind id (pool.step program (.step i chance)).shared := by
    cases call with
    | editCommit owner' params =>
        cases hcall
        exact (hspares .edit trivial _ owner expires hlive hheld).imp_right And.right
    | wipeCommit owner' params =>
        cases hcall
        exact (hspares .wipe rfl _ owner expires hlive hheld).imp_right And.right
    | _ => cases hcall
  have hstep : pool.step program (.step i chance) =
      (service now).after program (moves ++ [.step i chance]) := (Pool.after_snoc moves _).symm
  refine hkept.imp_right fun hredeemed moves' answer hreturned => ?_
  rw [hstep] at hredeemed hreturned
  exact refused_keeps now _ moves' hcall hredeemed hreturned

/-- A lease is begun, redeemed in time, and then time passes. -/
def slowCommit : List (Pool.Move AuthorityCall Chance) :=
  .call 0 (.editBegin none ⟨"e", none⟩) :: steps 0 4 ++
  .call 1 (.editCommit none ⟨0, "y", none⟩) :: steps 1 5 ++
  .call 2 (.elapse 60000) :: steps 2 1

/-- A lease is begun, and the settings refuse its commit. -/
def refusedCommit : List (Pool.Move AuthorityCall Chance) :=
  .call 0 (.editBegin none ⟨"e", none⟩) :: steps 0 4 ++
  [.call 1 (.editCommit none ⟨0, "y", none⟩),
    .step 1 (oneEntry (some (.new "shutdown" "Clipboard service is shutting down")) none)]

/-- A replacement can be carried out after its lease has expired, and a commit that the
settings refuse leaves its lease in the map. -/
theorem lease_outlived :
    (let pool := (service 0).after program slowCommit
     (0, .issued .edit none 60000) ∈ pool.shared.log ∧ pool.shared.now = 60000 ∧
      pool.shared.log.countP (isUse .edit 0) = 0 ∧
      (pool.step program (.step 1 (oneEntry none none))).shared.log.countP (isUse .edit 0) = 1) ∧
    (let pool := (service 0).after program refusedCommit
     pool.Returned 1 (.editCommit none ⟨0, "y", none⟩)
      (.error (settingsError "Clipboard service is shutting down")) ∧
      held pool.shared .edit 0 = some (none, 60000)) := by
  have hlog : ((service 0).after program slowCommit).shared.log =
      [(0, .issued .edit none 60000), (1, .redeemed .edit 0 none)] := rfl
  refine ⟨⟨?_, rfl, rfl, rfl⟩, rfl, rfl⟩
  rw [hlog]
  exact List.mem_cons_self

end ClipDaemon.Authority
