import ClipDaemon.Api.Authority
import Mathlib.Data.List.Infix

/-!
# What the log of the requests says

Two invariants tie the log to the maps of the service.  `TokensValid` is about the two kinds
of single-use tokens: each was issued once, is redeemed at most once, by its owner, and is
used at most once, by the request that redeemed it.  `PasteValid` is about sessions: each
has pasted at most once, and one that would paste now has been prepared since it was last
refused, unless a refusal left it armed.

Each invariant has one lemma for every kind of change to its map.
-/

namespace ClipDaemon.Authority

open ThreadLog

/-! ## The log -/

/-- What happened, with the thread that did it. -/
abbrev Log := List (Nat × Effect)

/-- The effect uses the token. -/
def isUse (kind : TokenKind) (id : Uuid) (entry : Nat × Effect) : Bool :=
  match entry.2 with
  | .used kind' id' _ _ => kind' = kind && id' = id
  | _ => false

/-- The effect pastes for the session. -/
def isPaste (id : Uuid) (entry : Nat × Effect) : Bool :=
  match entry.2 with
  | .pasted id' _ _ => id' = id
  | _ => false

/-- The effect answers a request of the owner that names the session. -/
def isMark (id : Uuid) (owner : Owner) (entry : Nat × Effect) : Bool :=
  match entry.2 with
  | .prepared id' owner' | .unprepared id' owner' _ => id' = id && owner' = owner
  | _ => false

/-- The most recent request that names the session has published its content, and prepared the
paste. -/
def Primed (id : Uuid) (owner : Owner) (log : Log) : Prop :=
  ∃ k earlier later, log = earlier ++ (k, .prepared id owner) :: later ∧
    (k, .published) ∈ earlier ∧ ∀ entry ∈ later, isMark id owner entry = false

/-- A request that names the session was refused and left it armed. -/
def Slipped (id : Uuid) (owner : Owner) (log : Log) : Prop :=
  ∃ j, (j, .unprepared id owner true) ∈ log

theorem Primed.append {id : Uuid} {owner : Owner} {log : Log} {entry : Nat × Effect}
    (h : Primed id owner log) (hentry : isMark id owner entry = false) :
    Primed id owner (log ++ [entry]) := by
  obtain ⟨k, earlier, later, rfl, hpublished, hlater⟩ := h
  refine ⟨k, earlier, later ++ [entry], by simp, hpublished, fun other hother => ?_⟩
  rcases List.mem_append.mp hother with hold | hnew
  · exact hlater other hold
  · rw [List.mem_singleton.mp hnew]
    exact hentry

theorem primed_of_published {id k : Uuid} {owner : Owner} {log : Log}
    (hpublished : (k, .published) ∈ log) : Primed id owner (log ++ [(k, .prepared id owner)]) :=
  ⟨k, log, [], rfl, hpublished, fun _ h => absurd h List.not_mem_nil⟩

theorem Slipped.append {id : Uuid} {owner : Owner} {log : Log} (h : Slipped id owner log)
    (log' : Log) : Slipped id owner (log ++ log') := by
  obtain ⟨j, hj⟩ := h
  exact ⟨j, List.mem_append_left _ hj⟩

theorem mem_append_single {log : Log} {entry entry' : Nat × Effect} (hne : entry ≠ entry') :
    entry ∈ log ++ [entry'] ↔ entry ∈ log := by
  simp [hne]

/-! ## Tokens -/

/-- The owner and the expiry of a token in the map. -/
def held (s : Authority) : TokenKind → Uuid → Option (Owner × Nat)
  | .edit, id => (s.edits id).map fun lease => (lease.owner, lease.expires)
  | .wipe, id => (s.challenges id).map fun challenge => (challenge.owner, challenge.expires)

/-- The effects about tokens of a kind. -/
def Effect.ofToken (kind : TokenKind) : Effect → Bool
  | .issued kind' _ _ => kind' = kind
  | .redeemed kind' _ _ => kind' = kind
  | .used kind' _ _ _ => kind' = kind
  | _ => false

/-- The tokens that are held have been issued, and each id once. -/
structure TokensValid (kind : TokenKind) (map : Uuid → Option (Owner × Nat)) (log : Log) :
    Prop where
  held : ∀ id owner expires, map id = some (owner, expires) →
    (id, .issued kind owner expires) ∈ log
  issuedOnce : ∀ id owner expires owner' expires', (id, .issued kind owner expires) ∈ log →
    (id, .issued kind owner' expires') ∈ log → owner = owner' ∧ expires = expires'
  redeemed : ∀ j id owner, (j, .redeemed kind id owner) ∈ log →
    map id = none ∧ ∃ expires, (id, .issued kind owner expires) ∈ log
  redeemedOnce : ∀ j j' id owner owner', (j, .redeemed kind id owner) ∈ log →
    (j', .redeemed kind id owner') ∈ log → j = j'
  used : ∀ j id owner checked, (j, .used kind id owner checked) ∈ log →
    (j, .redeemed kind id owner) ∈ log ∧
      ∃ expires, (id, .issued kind owner expires) ∈ log ∧ checked < expires
  usedOnce : ∀ id, log.countP (isUse kind id) ≤ 1

section Tokens

variable {kind : TokenKind} {map map' : Uuid → Option (Owner × Nat)} {log : Log} {i : Nat}

/-- Tokens leave the map, and nothing is said about them. -/
theorem TokensValid.shrink (h : TokensValid kind map log) {entries : Log}
    (hmap : ∀ id, map' id = map id ∨ map' id = none)
    (hentries : ∀ entry ∈ entries, Effect.ofToken kind entry.2 = false) :
    TokensValid kind map' (log ++ entries) := by
  have hmem : ∀ j effect, Effect.ofToken kind effect = true →
      (j, effect) ∈ log ++ entries → (j, effect) ∈ log := by
    intro j effect heffect hj
    rcases List.mem_append.mp hj with hj | hj
    · exact hj
    · rw [hentries _ hj] at heffect
      cases heffect
  refine ⟨fun id owner expires hid => ?_, fun id owner expires owner' expires' hid hid' => ?_,
    fun j id owner hj => ?_, fun j j' id owner owner' hj hj' => ?_, fun j id owner checked hj => ?_,
    fun id => ?_⟩
  · rcases hmap id with heq | hnone
    · exact List.mem_append_left _ (h.held id owner expires (heq ▸ hid))
    · rw [hnone] at hid
      cases hid
  · exact h.issuedOnce id owner expires owner' expires' (hmem _ _ (by simp [Effect.ofToken]) hid)
      (hmem _ _ (by simp [Effect.ofToken]) hid')
  · obtain ⟨hnone, expires, hissued⟩ :=
      h.redeemed j id owner (hmem _ _ (by simp [Effect.ofToken]) hj)
    refine ⟨?_, expires, List.mem_append_left _ hissued⟩
    rcases hmap id with heq | hnone'
    · rw [heq, hnone]
    · exact hnone'
  · exact h.redeemedOnce j j' id owner owner' (hmem _ _ (by simp [Effect.ofToken]) hj)
      (hmem _ _ (by simp [Effect.ofToken]) hj')
  · obtain ⟨hred, expires, hissued, hlt⟩ :=
      h.used j id owner checked (hmem _ _ (by simp [Effect.ofToken]) hj)
    exact ⟨List.mem_append_left _ hred, expires, List.mem_append_left _ hissued, hlt⟩
  · have hnone : entries.countP (isUse kind id) = 0 := by
      refine List.countP_eq_zero.mpr fun entry hentry huse => ?_
      obtain ⟨j, effect⟩ := entry
      have hfalse := hentries _ hentry
      cases effect <;> simp_all [isUse, Effect.ofToken]
    rw [List.countP_append, hnone, Nat.add_zero]
    exact h.usedOnce id

/-- A thread that has not issued a token issues one. -/
theorem TokensValid.issue (h : TokensValid kind map log) {owner : Owner} {expires : Nat}
    (hnew : ∀ owner expires, (i, .issued kind owner expires) ∉ log) :
    TokensValid kind (Function.update map i (some (owner, expires)))
      (log ++ [(i, .issued kind owner expires)]) := by
  have hmem : ∀ j effect, effect ≠ .issued kind owner expires →
      (j, effect) ∈ log ++ [(i, .issued kind owner expires)] → (j, effect) ∈ log := by
    intro j effect hne hj
    exact (mem_append_single (by simp [hne])).mp hj
  refine ⟨fun id owner' expires' hid => ?_, fun id owner₁ expires₁ owner₂ expires₂ h₁ h₂ => ?_,
    fun j id owner' hj => ?_, fun j j' id owner₁ owner₂ hj hj' => ?_,
    fun j id owner' checked hj => ?_, fun id => ?_⟩
  · rcases eq_or_ne id i with rfl | hne
    · rw [Function.update_self] at hid
      cases hid
      exact List.mem_append_right _ List.mem_cons_self
    · rw [Function.update_of_ne hne] at hid
      exact List.mem_append_left _ (h.held id owner' expires' hid)
  · rcases eq_or_ne id i with rfl | hne
    · have hnew' : ∀ {owner' expires'}, (id, Effect.issued kind owner' expires') ∈
          log ++ [(id, .issued kind owner expires)] → owner' = owner ∧ expires' = expires := by
        intro owner' expires' hj
        rcases List.mem_append.mp hj with hj | hj
        · exact absurd hj (hnew owner' expires')
        · simpa using hj
      obtain ⟨rfl, rfl⟩ := hnew' h₁
      obtain ⟨rfl, rfl⟩ := hnew' h₂
      exact ⟨rfl, rfl⟩
    · have hold : ∀ {owner' expires'}, (id, Effect.issued kind owner' expires') ∈
          log ++ [(i, .issued kind owner expires)] →
            (id, Effect.issued kind owner' expires') ∈ log :=
        fun hj => (mem_append_single (by simp [hne])).mp hj
      exact h.issuedOnce id _ _ _ _ (hold h₁) (hold h₂)
  · obtain ⟨hnone, expires', hissued⟩ := h.redeemed j id owner' (hmem _ _ (by simp) hj)
    have hne : id ≠ i := by
      rintro rfl
      exact hnew _ _ hissued
    exact ⟨by rw [Function.update_of_ne hne, hnone], expires', List.mem_append_left _ hissued⟩
  · exact h.redeemedOnce j j' id owner₁ owner₂ (hmem _ _ (by simp) hj) (hmem _ _ (by simp) hj')
  · obtain ⟨hred, expires', hissued, hlt⟩ := h.used j id owner' checked (hmem _ _ (by simp) hj)
    exact ⟨List.mem_append_left _ hred, expires', List.mem_append_left _ hissued, hlt⟩
  · rw [List.countP_append]
    simpa [isUse] using h.usedOnce id

/-- A commit removes a token that is in the map. -/
theorem TokensValid.redeem (h : TokensValid kind map log) {id : Uuid} {owner : Owner}
    {expires : Nat} (hheld : map id = some (owner, expires)) :
    TokensValid kind (Function.update map id none) (log ++ [(i, .redeemed kind id owner)]) := by
  have hmem : ∀ j effect, effect ≠ .redeemed kind id owner →
      (j, effect) ∈ log ++ [(i, .redeemed kind id owner)] → (j, effect) ∈ log := by
    intro j effect hne hj
    exact (mem_append_single (by simp [hne])).mp hj
  have hissued := h.held id owner expires hheld
  -- A token in the map was not redeemed.
  have hfirst : ∀ j owner', (j, Effect.redeemed kind id owner') ∉ log := by
    intro j owner' hj
    rw [(h.redeemed j id owner' hj).1] at hheld
    cases hheld
  have hshrink : ∀ id', Function.update map id none id' = map id' ∨
      Function.update map id none id' = none := by
    intro id'
    rcases eq_or_ne id' id with rfl | hne
    · exact .inr (Function.update_self ..)
    · exact .inl (Function.update_of_ne hne ..)
  refine ⟨fun id' owner' expires' hid => ?_, fun id' _ _ _ _ h₁ h₂ => ?_,
    fun j id' owner' hj => ?_, fun j j' id' owner₁ owner₂ hj hj' => ?_,
    fun j id' owner' checked hj => ?_, fun id' => ?_⟩
  · rcases hshrink id' with heq | hnone
    · exact List.mem_append_left _ (h.held id' owner' expires' (heq ▸ hid))
    · rw [hnone] at hid
      cases hid
  · exact h.issuedOnce id' _ _ _ _ (hmem _ _ (by simp) h₁) (hmem _ _ (by simp) h₂)
  · rcases List.mem_append.mp hj with hj | hj
    · obtain ⟨hnone, expires', hissued'⟩ := h.redeemed j id' owner' hj
      refine ⟨?_, expires', List.mem_append_left _ hissued'⟩
      rcases hshrink id' with heq | hnone'
      · rw [heq, hnone]
      · exact hnone'
    · simp only [List.mem_singleton, Prod.mk.injEq, Effect.redeemed.injEq, true_and] at hj
      obtain ⟨rfl, rfl, rfl⟩ := hj
      exact ⟨Function.update_self .., expires, List.mem_append_left _ hissued⟩
  · have hsplit : ∀ {j owner'}, (j, Effect.redeemed kind id' owner') ∈
        log ++ [(i, .redeemed kind id owner)] →
          (j, Effect.redeemed kind id' owner') ∈ log ∨ (j = i ∧ id' = id) := by
      intro j owner' hj
      rcases List.mem_append.mp hj with hj | hj
      · exact .inl hj
      · simp only [List.mem_singleton, Prod.mk.injEq, Effect.redeemed.injEq, true_and] at hj
        exact .inr ⟨hj.1, hj.2.1⟩
    rcases hsplit hj with h₁ | ⟨rfl, rfl⟩
    · rcases hsplit hj' with h₂ | ⟨rfl, rfl⟩
      · exact h.redeemedOnce j j' id' owner₁ owner₂ h₁ h₂
      · exact absurd h₁ (hfirst j owner₁)
    · rcases hsplit hj' with h₂ | ⟨rfl, -⟩
      · exact absurd h₂ (hfirst j' owner₂)
      · rfl
  · obtain ⟨hred, expires', hissued', hlt⟩ := h.used j id' owner' checked (hmem _ _ (by simp) hj)
    exact ⟨List.mem_append_left _ hred, expires', List.mem_append_left _ hissued', hlt⟩
  · rw [List.countP_append]
    simpa [isUse] using h.usedOnce id'

/-- The thread that redeemed a token, and has not used it yet, uses it. -/
theorem TokensValid.use (h : TokensValid kind map log) {id : Uuid} {owner : Owner}
    {expires checked : Nat} (hred : (i, .redeemed kind id owner) ∈ log)
    (hfirst : ∀ owner checked, (i, .used kind id owner checked) ∉ log)
    (hissued : (id, .issued kind owner expires) ∈ log) (hlive : checked < expires) :
    TokensValid kind map (log ++ [(i, .used kind id owner checked)]) := by
  have hmem : ∀ j effect, effect ≠ .used kind id owner checked →
      (j, effect) ∈ log ++ [(i, .used kind id owner checked)] → (j, effect) ∈ log := by
    intro j effect hne hj
    exact (mem_append_single (by simp [hne])).mp hj
  refine ⟨fun id' _ _ hid => List.mem_append_left _ (h.held id' _ _ hid),
    fun id' _ _ _ _ h₁ h₂ =>
      h.issuedOnce id' _ _ _ _ (hmem _ _ (by simp) h₁) (hmem _ _ (by simp) h₂),
    fun j id' owner' hj => ?_,
    fun j j' id' _ _ hj hj' =>
      h.redeemedOnce j j' id' _ _ (hmem _ _ (by simp) hj) (hmem _ _ (by simp) hj'),
    fun j id' owner' checked' hj => ?_, fun id' => ?_⟩
  · obtain ⟨hnone, expires', hissued'⟩ := h.redeemed j id' owner' (hmem _ _ (by simp) hj)
    exact ⟨hnone, expires', List.mem_append_left _ hissued'⟩
  · rcases List.mem_append.mp hj with hj | hj
    · obtain ⟨hred', expires', hissued', hlt⟩ := h.used j id' owner' checked' hj
      exact ⟨List.mem_append_left _ hred', expires', List.mem_append_left _ hissued', hlt⟩
    · simp only [List.mem_singleton, Prod.mk.injEq, Effect.used.injEq, true_and] at hj
      obtain ⟨rfl, rfl, rfl, rfl⟩ := hj
      exact ⟨List.mem_append_left _ hred, expires, List.mem_append_left _ hissued, hlive⟩
  · rcases eq_or_ne id' id with rfl | hne
    · -- Whoever used the token had redeemed it, so it was this thread.
      have hunused : log.countP (isUse kind id') = 0 := by
        refine List.countP_eq_zero.mpr fun entry hentry huse => ?_
        obtain ⟨j, effect⟩ := entry
        cases effect with
        | used kind' id'' owner' checked' =>
            simp only [isUse, Bool.and_eq_true, decide_eq_true_eq] at huse
            obtain ⟨rfl, rfl⟩ := huse
            obtain ⟨hred', -⟩ := h.used j _ owner' checked' hentry
            obtain rfl := h.redeemedOnce j i _ _ _ hred' hred
            exact hfirst owner' checked' hentry
        | _ => simp [isUse] at huse
      rw [List.countP_append, hunused]
      simp [isUse]
    · rw [List.countP_append]
      have hother : isUse kind id' (i, .used kind id owner checked) = false := by
        simp [isUse, hne.symm]
      simpa [hother] using h.usedOnce id'

end Tokens

/-! ## Sessions -/

/-- The effects about sessions. -/
def Effect.ofPaste : Effect → Bool
  | .began .. | .prepared .. | .unprepared .. | .pasted .. => true
  | _ => false

/-- The sessions that are held have begun, and one that would paste was prepared, or has slipped. -/
structure PasteValid (now : Nat) (sessions : SessionManager) (log : Log) : Prop where
  began : ∀ id session, sessions id = some session →
    (id, .began session.owner session.expires) ∈ log
  beganOnce : ∀ id owner expires owner' expires', (id, .began owner expires) ∈ log →
    (id, .began owner' expires') ∈ log → owner = owner' ∧ expires = expires'
  pasted : ∀ j id owner time, (j, .pasted id owner time) ∈ log →
    (∀ session, sessions id = some session → session.hidden = true) ∧
      ∃ expires, (id, .began owner expires) ∈ log ∧ time < expires
  once : ∀ id, log.countP (isPaste id) ≤ 1
  /-- A session that would paste now. -/
  primed : ∀ id session, sessions id = some session → session.pastePending = true →
    session.hidden = false → now < session.expires →
    Primed id session.owner log ∨ Slipped id session.owner log
  faithful : ∀ before after j id owner time, log = before ++ (j, .pasted id owner time) :: after →
    Primed id owner before ∨ Slipped id owner before

/-- What is known of an armed session stays known when others are named. -/
theorem primed_append {id : Uuid} {owner : Owner} {log : Log} {entry : Nat × Effect}
    (h : Primed id owner log ∨ Slipped id owner log) (hentry : isMark id owner entry = false) :
    Primed id owner (log ++ [entry]) ∨ Slipped id owner (log ++ [entry]) :=
  h.imp (fun hprimed => hprimed.append hentry) fun hslipped => hslipped.append _

section Sessions

variable {now now' : Nat} {sessions sessions' : SessionManager} {log : Log} {i : Nat}

/-- An entry of the log, when one more was appended. -/
theorem append_single_cases {before after : Log} {entry entry' : Nat × Effect}
    (h : log ++ [entry'] = before ++ entry :: after) :
    (∃ after', log = before ++ entry :: after') ∨ (log = before ∧ entry' = entry) := by
  rcases List.eq_nil_or_concat after with rfl | ⟨after', last, rfl⟩
  · obtain ⟨hlog, hentry⟩ := List.append_inj' h rfl
    exact .inr ⟨hlog, List.singleton_inj.mp hentry⟩
  · have hrest : log ++ [entry'] = (before ++ entry :: after') ++ [last] := by
      rw [h]
      simp
    exact .inl ⟨after', (List.append_inj' hrest rfl).1⟩

/-- Sessions leave the map and time passes. -/
theorem PasteValid.shrink (h : PasteValid now sessions log) (hnow : now ≤ now')
    (hsessions : ∀ id, sessions' id = sessions id ∨ sessions' id = none) :
    PasteValid now' sessions' log := by
  have hsome : ∀ {id session}, sessions' id = some session → sessions id = some session := by
    intro id session hid
    rcases hsessions id with heq | hnone
    · exact heq ▸ hid
    · rw [hnone] at hid
      cases hid
  exact
    { began := fun id session hid => h.began id session (hsome hid)
      beganOnce := h.beganOnce
      pasted := fun j id owner time hj =>
        ⟨fun session hid => (h.pasted j id owner time hj).1 session (hsome hid),
          (h.pasted j id owner time hj).2⟩
      once := h.once
      primed := fun id session hid hpending hhidden hlive =>
        h.primed id session (hsome hid) hpending hhidden (Nat.lt_of_le_of_lt hnow hlive)
      faithful := h.faithful }

/-- An effect that begins and pastes nothing and refuses no session that would paste now. -/
theorem PasteValid.append (h : PasteValid now sessions log) (i : Nat) (effect : Effect)
    (hbegan : ∀ owner expires, effect ≠ .began owner expires)
    (hpasted : ∀ id owner time, effect ≠ .pasted id owner time)
    (hprimed : ∀ id session, sessions id = some session → session.pastePending = true →
      session.hidden = false → now < session.expires →
      Primed id session.owner (log ++ [(i, effect)]) ∨
        Slipped id session.owner (log ++ [(i, effect)])) :
    PasteValid now sessions (log ++ [(i, effect)]) := by
  have hmem : ∀ j effect', effect' ≠ effect → (j, effect') ∈ log ++ [(i, effect)] →
      (j, effect') ∈ log := by
    intro j effect' hne hj
    exact (mem_append_single (by simp [hne])).mp hj
  refine ⟨fun id session hid => List.mem_append_left _ (h.began id session hid),
    fun id _ _ _ _ h₁ h₂ => h.beganOnce id _ _ _ _ (hmem _ _ (hbegan _ _).symm h₁)
      (hmem _ _ (hbegan _ _).symm h₂), fun j id owner time hj => ?_, fun id => ?_, hprimed,
    fun before after j id owner time heq => ?_⟩
  · obtain ⟨hhidden, expires, hbegan', hlt⟩ :=
      h.pasted j id owner time (hmem _ _ (hpasted _ _ _).symm hj)
    exact ⟨hhidden, expires, List.mem_append_left _ hbegan', hlt⟩
  · have hother : isPaste id (i, effect) = false := by
      cases effect with
      | pasted id' owner time => exact absurd rfl (hpasted id' owner time)
      | _ => rfl
    rw [List.countP_append]
    simpa [hother] using h.once id
  · rcases append_single_cases heq with ⟨after', hlog⟩ | ⟨-, hentry⟩
    · exact h.faithful before after' j id owner time hlog
    · cases hentry
      exact absurd rfl (hpasted id owner time)

/-- Nothing is said about sessions. -/
theorem PasteValid.note (h : PasteValid now sessions log) {effect : Effect}
    (heffect : Effect.ofPaste effect = false) : PasteValid now sessions (log ++ [(i, effect)]) := by
  refine h.append _ _ (by rintro _ _ rfl; cases heffect) (by rintro _ _ _ rfl; cases heffect) ?_
  intro id session hid hpending hhidden hlive
  refine primed_append (h.primed id session hid hpending hhidden hlive) ?_
  cases effect <;> first | rfl | cases heffect

/-- A request that names a session is refused. -/
theorem PasteValid.refuse (h : PasteValid now sessions log) {id : Uuid} {owner : Owner}
    {armed : Bool} (harmed : ∀ session, sessions id = some session → session.owner = owner →
      session.pastePending = true → session.hidden = false → now < session.expires →
      armed = true) :
    PasteValid now sessions (log ++ [(i, .unprepared id owner armed)]) := by
  refine h.append _ _ (by simp) (by simp) ?_
  intro id' session hid hpending hhidden hlive
  rcases eq_or_ne (id, owner) (id', session.owner) with heq | hne
  · cases heq
    obtain rfl := harmed session hid rfl hpending hhidden hlive
    exact .inr ⟨i, List.mem_append_right _ List.mem_cons_self⟩
  · refine primed_append (h.primed id' session hid hpending hhidden hlive) ?_
    simpa [isMark] using hne

/-- A session changes without being armed or hidden. -/
theorem PasteValid.disarm (h : PasteValid now sessions log) {id : Uuid} {session session' : Session}
    (hid : sessions id = some session) (howner : session'.owner = session.owner)
    (hexpires : session'.expires = session.expires)
    (hhidden : session.hidden = true → session'.hidden = true)
    (hpending : session'.hidden = false → session'.pastePending = true →
      session.pastePending = true) :
    PasteValid now (Function.update sessions id (some session')) log := by
  have hcases : ∀ {id' found}, Function.update sessions id (some session') id' = some found →
      (id' = id ∧ found = session') ∨ (id' ≠ id ∧ sessions id' = some found) := by
    intro id' found hfound
    rcases eq_or_ne id' id with rfl | hne
    · rw [Function.update_self] at hfound
      exact .inl ⟨rfl, (Option.some.inj hfound).symm⟩
    · rw [Function.update_of_ne hne] at hfound
      exact .inr ⟨hne, hfound⟩
  refine ⟨fun id' found hfound => ?_, h.beganOnce,
    fun j id' owner time hj => ⟨fun found hfound => ?_,
    (h.pasted j id' owner time hj).2⟩, h.once, fun id' found hfound hp hh hlive => ?_, h.faithful⟩
  · rcases hcases hfound with ⟨rfl, rfl⟩ | ⟨-, hfound⟩
    · rw [howner, hexpires]
      exact h.began id' session hid
    · exact h.began id' found hfound
  · rcases hcases hfound with ⟨rfl, rfl⟩ | ⟨-, hfound⟩
    · exact hhidden ((h.pasted j id' owner time hj).1 session hid)
    · exact (h.pasted j id' owner time hj).1 found hfound
  · rcases hcases hfound with ⟨rfl, rfl⟩ | ⟨-, hfound⟩
    · rw [howner]
      refine h.primed id' session hid (hpending hh hp) ?_ (hexpires ▸ hlive)
      cases hold : session.hidden with
      | true => rw [hhidden hold] at hh; cases hh
      | false => rfl
    · exact h.primed id' found hfound hp hh hlive

/-- A request of the owner has published and arms the session. -/
theorem PasteValid.arm (h : PasteValid now sessions log) {id : Uuid} {session session' : Session}
    (hpublished : (i, .published) ∈ log) (hid : sessions id = some session)
    (howner : session'.owner = session.owner)
    (hexpires : session'.expires = session.expires)
    (hhidden : session.hidden = true → session'.hidden = true) :
    PasteValid now (Function.update sessions id (some session'))
      (log ++ [(i, .prepared id session.owner)]) := by
  -- The session as if it was not armed, and then the mark.
  have hquiet : PasteValid now
      (Function.update sessions id (some { session' with pastePending := false })) log :=
    h.disarm hid howner hexpires hhidden (by simp)
  have hmarked := hquiet.append i (.prepared id session.owner) (by simp) (by simp) (by
    intro id' found hfound hp hh hlive
    rcases eq_or_ne id' id with rfl | hne
    · rw [Function.update_self] at hfound
      cases hfound
      cases hp
    · rw [Function.update_of_ne hne] at hfound
      refine primed_append (h.primed id' found hfound hp hh hlive) ?_
      simp [isMark, hne.symm])
  refine ⟨fun id' found hfound => ?_, hmarked.beganOnce,
    fun j id' owner time hj => ⟨fun found hfound => ?_, (hmarked.pasted j id' owner time hj).2⟩,
    hmarked.once, fun id' found hfound hp hh hlive => ?_, hmarked.faithful⟩
  · rcases eq_or_ne id' id with rfl | hne
    · rw [Function.update_self] at hfound
      cases hfound
      exact hmarked.began id' { session' with pastePending := false } (Function.update_self ..)
    · rw [Function.update_of_ne hne] at hfound
      exact hmarked.began id' found (by rw [Function.update_of_ne hne, hfound])
  · rcases eq_or_ne id' id with rfl | hne
    · rw [Function.update_self] at hfound
      cases hfound
      exact (hmarked.pasted j id' owner time hj).1 { session' with pastePending := false }
        (Function.update_self ..)
    · rw [Function.update_of_ne hne] at hfound
      exact (hmarked.pasted j id' owner time hj).1 found (by rw [Function.update_of_ne hne, hfound])
  · rcases eq_or_ne id' id with rfl | hne
    · rw [Function.update_self] at hfound
      cases hfound
      rw [howner]
      exact .inl (primed_of_published hpublished)
    · rw [Function.update_of_ne hne] at hfound
      exact hmarked.primed id' found (by rw [Function.update_of_ne hne, hfound]) hp hh hlive

/-- A session that would paste now is hidden, and pastes. -/
theorem PasteValid.paste (h : PasteValid now sessions log) {id : Uuid} {session session' : Session}
    (hid : sessions id = some session) (howner : session'.owner = session.owner)
    (hexpires : session'.expires = session.expires) (hhidden : session'.hidden = true)
    (hpending : session.pastePending = true) (hshown : session.hidden = false)
    (hlive : now < session.expires) :
    PasteValid now (Function.update sessions id (some session'))
      (log ++ [(i, .pasted id session.owner now)]) := by
  have hhide : PasteValid now (Function.update sessions id (some session')) log :=
    h.disarm hid howner hexpires (fun _ => hhidden) (by simp [hhidden])
  -- A session that is shown has not pasted.
  have hfirst : ∀ j owner time, (j, Effect.pasted id owner time) ∉ log := by
    intro j owner time hj
    rw [(h.pasted j id owner time hj).1 session hid] at hshown
    cases hshown
  have hmem : ∀ j effect, (∀ owner time, effect ≠ .pasted id owner time) →
      (j, effect) ∈ log ++ [(i, .pasted id session.owner now)] → (j, effect) ∈ log := by
    intro j effect hne hj
    exact (mem_append_single (by simp [hne])).mp hj
  refine ⟨fun id' found hfound => List.mem_append_left _ (hhide.began id' found hfound),
    fun id' _ _ _ _ h₁ h₂ => h.beganOnce id' _ _ _ _ (hmem _ _ (by simp) h₁)
    (hmem _ _ (by simp) h₂),
    fun j id' owner time hj => ?_, fun id' => ?_, fun id' found hfound hp hh hlive' => ?_,
    fun before after j id' owner time heq => ?_⟩
  · rcases List.mem_append.mp hj with hj | hj
    · obtain ⟨hhidden', expires, hbegan, hlt⟩ := hhide.pasted j id' owner time hj
      exact ⟨hhidden', expires, List.mem_append_left _ hbegan, hlt⟩
    · simp only [List.mem_singleton, Prod.mk.injEq, Effect.pasted.injEq] at hj
      obtain ⟨rfl, rfl, rfl, rfl⟩ := hj
      refine ⟨fun found hfound => ?_, session.expires,
        List.mem_append_left _ (h.began id' session hid),
        hlive⟩
      rw [Function.update_self] at hfound
      cases hfound
      exact hhidden
  · rcases eq_or_ne id' id with rfl | hne
    · have hnone : log.countP (isPaste id') = 0 := by
        refine List.countP_eq_zero.mpr fun entry hentry hpaste => ?_
        obtain ⟨j, effect⟩ := entry
        cases effect with
        | pasted id'' owner time =>
            obtain rfl : id'' = id' := by simpa [isPaste] using hpaste
            exact hfirst j owner time hentry
        | _ => cases hpaste
      rw [List.countP_append, hnone]
      simp [isPaste]
    · have hother : isPaste id' (i, .pasted id session.owner now) = false := by
        simp [isPaste, hne.symm]
      rw [List.countP_append]
      simpa [hother] using h.once id'
  · exact primed_append (hhide.primed id' found hfound hp hh hlive') rfl
  · rcases append_single_cases heq with ⟨after', hlog⟩ | ⟨hlog, hentry⟩
    · exact h.faithful before after' j id' owner time hlog
    · cases hentry
      rw [← hlog]
      exact h.primed id session hid hpending hshown hlive

/-- A thread that has not begun a session begins one. -/
theorem PasteValid.start (h : PasteValid now sessions log) {session : Session}
    (hpending : session.pastePending = false)
    (hnew : ∀ owner expires, (i, .began owner expires) ∉ log) :
    PasteValid now (Function.update sessions i (some session))
      (log ++ [(i, .began session.owner session.expires)]) := by
  have hmem : ∀ j effect, (∀ owner expires, effect ≠ .began owner expires) →
      (j, effect) ∈ log ++ [(i, .began session.owner session.expires)] → (j, effect) ∈ log := by
    intro j effect hne hj
    exact (mem_append_single (by simp [hne])).mp hj
  have hunpasted : ∀ j owner time, (j, Effect.pasted i owner time) ∉ log := by
    intro j owner time hj
    obtain ⟨-, expires, hbegan, -⟩ := h.pasted j i owner time hj
    exact hnew owner expires hbegan
  refine ⟨fun id found hfound => ?_, fun id owner₁ expires₁ owner₂ expires₂ h₁ h₂ => ?_,
    fun j id owner time hj => ?_, fun id => ?_, fun id found hfound hp hh hlive => ?_,
    fun before after j id owner time heq => ?_⟩
  · rcases eq_or_ne id i with rfl | hne
    · rw [Function.update_self] at hfound
      cases hfound
      exact List.mem_append_right _ List.mem_cons_self
    · rw [Function.update_of_ne hne] at hfound
      exact List.mem_append_left _ (h.began id found hfound)
  · rcases eq_or_ne id i with rfl | hne
    · have hlast : ∀ {owner expires}, (id, Effect.began owner expires) ∈
          log ++ [(id, .began session.owner session.expires)] →
            owner = session.owner ∧ expires = session.expires := by
        intro owner expires hj
        rcases List.mem_append.mp hj with hj | hj
        · exact absurd hj (hnew owner expires)
        · simpa using hj
      obtain ⟨rfl, rfl⟩ := hlast h₁
      obtain ⟨rfl, rfl⟩ := hlast h₂
      exact ⟨rfl, rfl⟩
    · have hold : ∀ {owner expires}, (id, Effect.began owner expires) ∈
          log ++ [(i, .began session.owner session.expires)] →
            (id, Effect.began owner expires) ∈ log :=
        fun hj => (mem_append_single (by simp [hne])).mp hj
      exact h.beganOnce id _ _ _ _ (hold h₁) (hold h₂)
  · have hj' := hmem _ _ (by simp) hj
    obtain ⟨hhidden, expires, hbegan, hlt⟩ := h.pasted j id owner time hj'
    refine ⟨fun found hfound => ?_, expires, List.mem_append_left _ hbegan, hlt⟩
    have hne : id ≠ i := by
      rintro rfl
      exact hunpasted j owner time hj'
    rw [Function.update_of_ne hne] at hfound
    exact hhidden found hfound
  · rw [List.countP_append]
    simpa [isPaste] using h.once id
  · rcases eq_or_ne id i with rfl | hne
    · rw [Function.update_self] at hfound
      cases hfound
      rw [hpending] at hp
      cases hp
    · rw [Function.update_of_ne hne] at hfound
      exact primed_append (h.primed id found hfound hp hh hlive) rfl
  · rcases append_single_cases heq with ⟨after', hlog⟩ | ⟨-, hentry⟩
    · exact h.faithful before after' j id owner time hlog
    · cases hentry

end Sessions

end ClipDaemon.Authority
