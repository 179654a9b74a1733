import ClipDaemon.Lib.Guarantee

/-!
# Pools that refine other pools

The threads of one pool may do what those of another do, with statements of their own in between
and over a state that holds more.  `Thread.Follows` relates two such threads: each statement of
the first is matched by statements of the second, possibly none, after which the states are
related again; and when the first returns, so does the second, with a result that fits.  It has
a rule for each way to build a thread, as `Thread.Keeps` has.

Some statements are matched by a step *aside*, which is what a call of its own could do to the
second state in one go.  `Pool.Refinement` says which call each call follows, and
`Pool.Refinement.after` puts the threads together: every run of the first pool has a run of the
second one whose state is related and whose calls have returned what fits.
-/

/-- How two states are related, and what may happen to the second one aside. -/
structure Matching (τ σ : Type) where
  related : τ → σ → Prop
  aside : σ → σ → Prop

/-- A statement that is matched by nothing, or by one step aside. -/
def Matching.Idle {τ σ : Type} (M : Matching τ σ) (t t' : τ) : Prop :=
  ∀ s, M.related t s → M.related t' s ∨ ∃ s', M.aside s s' ∧ M.related t' s'

namespace Thread

variable {σ τ ι ι' ε α α' β β' : Type}

/-! ## What a thread can do -/

/-- The thread can execute statements, with steps along `E` in between. -/
inductive Reaches (E : σ → σ → Prop) : Thread σ ι β → σ → Thread σ ι β → σ → Prop
  | refl (n : Thread σ ι β) (s : σ) : Reaches E n s n s
  | act {γ : Type} {op : ι → σ → Option (γ × σ)} {next : γ → Thread σ ι β} {c : ι} {b : γ}
      {s t u : σ} {n : Thread σ ι β} (hop : op c s = some (b, t)) (h : Reaches E (next b) t n u) :
      Reaches E (.act op next) s n u
  | aside {n n' : Thread σ ι β} {s t u : σ} (he : E s t) (h : Reaches E n t n' u) :
      Reaches E n s n' u

section Reaches

variable {E : σ → σ → Prop} {n n' n'' : Thread σ ι β} {s t u : σ}

theorem Reaches.trans (h : Reaches E n s n' t) (h' : Reaches E n' t n'' u) :
    Reaches E n s n'' u := by
  induction h with
  | refl => exact h'
  | act hop _ ih => exact .act hop (ih h')
  | aside he _ ih => exact .aside he (ih h')

theorem Reaches.bind {k : β → Thread σ ι β'} (h : Reaches E n s n' t) :
    Reaches E (n >>= k) s (n' >>= k) t := by
  induction h with
  | refl => exact .refl _ _
  | act hop _ ih => exact .act hop ih
  | aside he _ ih => exact .aside he ih

/-- One statement, with the choice that suits. -/
theorem reaches_atomic {op : ι → σ → Option (β × σ)} {c : ι} {b : β} (h : op c s = some (b, t)) :
    Reaches E (atomic op) s (.done b) t := .act h (.refl _ _)

theorem reaches_attempt {op : ι → σ → Option (Except ε β × σ)} {c : ι} {r : Except ε β}
    (h : op c s = some (r, t)) : Reaches E (attempt op).run s (.done r) t := reaches_atomic h

theorem Reaches.run_bind {m : ExceptT ε (Thread σ ι) β} {k : β → ExceptT ε (Thread σ ι) β'} {b : β}
    {r : Except ε β'} (h : Reaches E m.run s (.done (.ok b)) t)
    (h' : Reaches E (k b).run t (.done r) u) : Reaches E (m >>= k).run s (.done r) u :=
  h.bind.trans h'

theorem Reaches.run_bind_error {m : ExceptT ε (Thread σ ι) β} {k : β → ExceptT ε (Thread σ ι) β'}
    {e : ε} (h : Reaches E m.run s (.done (.error e)) t) :
    Reaches E (m >>= k).run s (.done (.error e)) t := h.bind

end Reaches

theorem bind_pure (m : Thread σ ι α) : m >>= pure = m := by
  induction m with
  | done a => rfl
  | act op next ih => exact congrArg (Thread.act _) (funext ih)

/-! ## Following -/

/-- The first thread follows the second.  A result with `D` is one with which the second thread is
given up; to all others `R` relates a result of the second one. -/
def Follows (M : Matching τ σ) (D : α → Prop) (R : α → β → Prop) :
    Thread τ ι' α → Thread σ ι β → Prop
  | .done a, n => D a ∨ ∀ t s, M.related t s →
      ∃ b s', Reaches M.aside n s (.done b) s' ∧ M.related t s' ∧ R a b
  | .act op next, n => ∀ c t b t' s, M.related t s → op c t = some (b, t') →
      ∃ n' s', Reaches M.aside n s n' s' ∧ M.related t' s' ∧ Follows M D R (next b) n'

/-- Nothing is given up. -/
abbrev Matches (M : Matching τ σ) (R : α → β → Prop) (m : Thread τ ι' α) (n : Thread σ ι β) :
    Prop :=
  Follows M (fun _ => False) R m n

section Follows

variable {M : Matching τ σ} {D : α → Prop} {D' : α' → Prop} {R : α → β → Prop}
  {R' : α' → β' → Prop} {Q : α → Prop} {m : Thread τ ι' α} {n : Thread σ ι β}

theorem Follows.mono {D' : α → Prop} {R' : α → β → Prop} (h : Follows M D R m n)
    (hD : ∀ a, D a → D' a) (hR : ∀ a b, R a b → R' a b) : Follows M D' R' m n := by
  induction m generalizing n with
  | done a =>
      refine h.imp (hD a) fun hdone t s hrelated => ?_
      obtain ⟨b, s', hreach, hrelated', hresult⟩ := hdone t s hrelated
      exact ⟨b, s', hreach, hrelated', hR a b hresult⟩
  | act op next ih =>
      intro c t b t' s hrelated hop
      obtain ⟨n', s', hreach, hrelated', hnext⟩ := h c t b t' s hrelated hop
      exact ⟨n', s', hreach, hrelated', ih b hnext⟩

theorem follows_pure {a : α} {b : β} (h : R a b) :
    Follows M D R (pure a : Thread τ ι' α) (pure b : Thread σ ι β) :=
  .inr fun _ s hrelated => ⟨b, s, .refl _ _, hrelated, h⟩

/-- The second thread may go ahead. -/
theorem follows_ahead (h : ∀ t s, M.related t s →
      ∃ n' s', Reaches M.aside n s n' s' ∧ M.related t s' ∧ Follows M D R m n') :
    Follows M D R m n := by
  cases m with
  | done a =>
      refine Classical.or_iff_not_imp_left.mpr fun hkept t s hrelated => ?_
      obtain ⟨n', s', hreach, hrelated', hdone⟩ := h t s hrelated
      obtain ⟨b, s'', hreach', hrelated'', hresult⟩ := hdone.resolve_left hkept t s' hrelated'
      exact ⟨b, s'', hreach.trans hreach', hrelated'', hresult⟩
  | act op next =>
      intro c t b t' s hrelated hop
      obtain ⟨n', s', hreach, hrelated', hfollows⟩ := h t s hrelated
      obtain ⟨n'', s'', hreach', hrelated'', hnext⟩ := hfollows c t b t' s' hrelated' hop
      exact ⟨n'', s'', hreach.trans hreach', hrelated'', hnext⟩

/-- What follows a given up thread is beside all that is left of it. -/
theorem follows_bind {k : α → Thread τ ι' α'} {k' : β → Thread σ ι β'} (h : Follows M D R m n)
    (hk : ∀ a b, R a b → Follows M D' R' (k a) (k' b))
    (hD : ∀ a (n' : Thread σ ι β'), D a → Follows M D' R' (k a) n') :
    Follows M D' R' (m >>= k) (n >>= k') := by
  induction m generalizing n with
  | done a =>
      rcases h with hgiven | hdone
      · exact hD a _ hgiven
      · refine follows_ahead fun t s hrelated => ?_
        obtain ⟨b, s', hreach, hrelated', hresult⟩ := hdone t s hrelated
        exact ⟨k' b, s', hreach.bind, hrelated', hk a b hresult⟩
  | act op next ih =>
      intro c t b t' s hrelated hop
      obtain ⟨n', s', hreach, hrelated', hnext⟩ := h c t b t' s hrelated hop
      exact ⟨n' >>= k', s', hreach.bind, hrelated', ih b hnext⟩

theorem matches_bind {k : α → Thread τ ι' α'} {k' : β → Thread σ ι β'} (h : Matches M R m n)
    (hk : ∀ a b, R a b → Follows M D' R' (k a) (k' b)) : Follows M D' R' (m >>= k) (n >>= k') :=
  follows_bind h hk fun _ _ hgiven => hgiven.elim

/-! ## Idle parts -/

/-- The second thread waits for an idle one. -/
theorem follows_idle (hidle : m.Each M.Idle) (hreturns : m.Returns Q) :
    Matches M (fun a _ => Q a) m (pure () : Thread σ ι Unit) := by
  induction m with
  | done a => exact follows_pure hreturns
  | act op next ih =>
      intro c t b t' s hrelated hop
      have hnext := ih b (hidle.2 b) (hreturns c t b t' hop)
      rcases hidle.1 c t b t' hop s hrelated with hrelated' | ⟨s', haside, hrelated'⟩
      · exact ⟨pure (), s, .refl _ _, hrelated', hnext⟩
      · exact ⟨pure (), s', .aside haside (.refl _ _), hrelated', hnext⟩

theorem Follows.after_idle {k : α → Thread τ ι' α'} {n : Thread σ ι β'} (hidle : m.Each M.Idle)
    (hreturns : m.Returns Q) (hk : ∀ a, Q a → Follows M D' R' (k a) n) :
    Follows M D' R' (m >>= k) n := by
  have hbind : Follows M D' R' (m >>= k) ((pure () : Thread σ ι Unit) >>= fun _ => n) :=
    matches_bind (follows_idle hidle hreturns) fun a _ ha => hk a ha
  exact hbind

/-- An idle thread that gives up. -/
theorem follows_given (hidle : m.Each M.Idle) (hreturns : m.Returns D) : Follows M D R m n := by
  have hwaits : Follows M D R (m >>= pure) n := .after_idle hidle hreturns fun a ha => .inl ha
  rwa [bind_pure] at hwaits

/-- After an idle thread the second one can give a result that fits. -/
theorem follows_chosen (hidle : m.Each M.Idle) (hreturns : m.Returns Q)
    (h : ∀ a, Q a → ∀ t s, M.related t s →
      ∃ b s', Reaches M.aside n s (.done b) s' ∧ M.related t s' ∧ R a b) : Matches M R m n := by
  have hwaits : Matches M R (m >>= pure) n :=
    .after_idle hidle hreturns fun a ha => .inr (h a ha)
  rwa [bind_pure] at hwaits

/-- What comes after is idle. -/
theorem Follows.then_idle {k : α → Thread τ ι' α'} {R' : α' → β → Prop} (h : Follows M D R m n)
    (hidle : ∀ a, (k a).Each M.Idle) (hreturns : ∀ a b, R a b → (k a).Returns (R' · b))
    (hgiven : ∀ a, D a → (k a).Returns D') : Follows M D' R' (m >>= k) n := by
  have hbind : Follows M D' R' (m >>= k) (n >>= pure) :=
    follows_bind h (fun a b hab => (follows_chosen (hidle a) (hreturns a b hab)
      fun a' ha' _ s hrelated => ⟨b, s, .refl _ _, hrelated, ha'⟩).mono (fun _ h => h.elim)
        fun _ _ h => h) fun a _ ha => follows_given (hidle a) (hgiven a ha)
  rwa [bind_pure] at hbind

/-- The second thread has something to add. -/
theorem Follows.then_more {k : β → Thread σ ι β'} {R' : α → β' → Prop} (h : Follows M D R m n)
    (hk : ∀ a b, R a b → ∀ t s, M.related t s →
      ∃ b' s', Reaches M.aside (k b) s (.done b') s' ∧ M.related t s' ∧ R' a b') :
    Follows M D R' m (n >>= k) := by
  have hbind : Follows M D R' (m >>= pure) (n >>= k) :=
    follows_bind h (fun a b hab => .inr (hk a b hab)) fun a _ ha => .inl ha
  rwa [bind_pure] at hbind

end Follows

/-! ## The same statements -/

/-- The statements do the same in states with `B` between them. -/
def Blind (B : σ → σ → Prop) : Thread σ ι α → Prop
  | .done _ => True
  | .act op next => (∀ c s s' b t, B s s' → op c s = some (b, t) →
      ∃ t', op c s' = some (b, t') ∧ B t t') ∧ ∀ b, (next b).Blind B

section Blind

variable {B : σ → σ → Prop}

theorem blind_pure (a : α) : (pure a : Thread σ ι α).Blind B := trivial

theorem blind_bind {m : Thread σ ι α} {k : α → Thread σ ι β} (hm : m.Blind B)
    (hk : ∀ a, (k a).Blind B) : (m >>= k).Blind B := by
  induction m with
  | done a => exact hk a
  | act op next ih => exact ⟨hm.1, fun b => ih b (hm.2 b)⟩

theorem blind_attempt {op : ι → σ → Option (Except ε α × σ)}
    (h : ∀ c s s' r t, B s s' → op c s = some (r, t) → ∃ t', op c s' = some (r, t') ∧ B t t') :
    (attempt op).run.Blind B := ⟨h, fun _ => trivial⟩

theorem blind_run_bind {m : ExceptT ε (Thread σ ι) α} {k : α → ExceptT ε (Thread σ ι) β}
    (hm : m.run.Blind B) (hk : ∀ a, (k a).run.Blind B) : (m >>= k).run.Blind B := by
  refine blind_bind hm fun r => ?_
  cases r with
  | ok a => exact hk a
  | error e => trivial

/-- A program over a part of the state follows itself. -/
theorem follows_zoom {get : τ → σ} {put : τ → σ → τ} {pick : ι' → ι} {E : σ → σ → Prop}
    (hlens : ∀ t s, get (put t s) = s) {n : Thread σ ι α} (h : n.Blind B) :
    Matches ⟨fun t s => B (get t) s, E⟩ Eq (zoom get put pick n) n := by
  induction n with
  | done a => exact follows_pure rfl
  | act op next ih =>
      intro c t b t' s hrelated hop
      obtain ⟨⟨b', u⟩, hop', heq⟩ := Option.map_eq_some_iff.mp hop
      cases heq
      obtain ⟨s', hop'', hrelated'⟩ := h.1 _ _ s b' u hrelated hop'
      refine ⟨next b', s', .act hop'' (.refl _ _), ?_, ih b' (h.2 b')⟩
      change B (get (put t u)) s'
      rw [hlens]
      exact hrelated'

end Blind

/-! ## Fallible threads -/

/-- The same failure, or results that fit. -/
def Agree (T : α → β → Prop) : Except ε α → Except ε β → Prop
  | .ok a, .ok b => T a b
  | .error e, .error e' => e = e'
  | _, _ => False

theorem agree_eq {r r' : Except ε α} (h : r = r') : Agree Eq r r' := by
  subst h
  cases r <;> rfl

section Fallible

variable {M : Matching τ σ} {T : α → β → Prop} {T' : α' → β' → Prop}

theorem matches_run_pure {a : α} {b : β} (h : T a b) :
    Matches M (Agree T) (pure a : ExceptT ε (Thread τ ι') α).run
      (pure b : ExceptT ε (Thread σ ι) β).run := follows_pure (R := Agree T) h

theorem matches_run_throw (e : ε) :
    Matches M (Agree T) (throw e : ExceptT ε (Thread τ ι') α).run
      (throw e : ExceptT ε (Thread σ ι) β).run :=
  follows_pure (R := Agree T) (a := .error e) (b := .error e) rfl

theorem matches_run_bind {m : ExceptT ε (Thread τ ι') α} {n : ExceptT ε (Thread σ ι) β}
    {k : α → ExceptT ε (Thread τ ι') α'} {k' : β → ExceptT ε (Thread σ ι) β'}
    (h : Matches M (Agree T) m.run n.run)
    (hk : ∀ a b, T a b → Matches M (Agree T') (k a).run (k' b).run) :
    Matches M (Agree T') (m >>= k).run (n >>= k').run := by
  refine matches_bind h fun r r' hr => ?_
  match r, r', hr with
  | .ok a, .ok b, hab => exact hk a b hab
  | .error _, .error _, rfl => exact matches_run_throw _

/-- The same results, and then what depends on them. -/
theorem matches_run_same {m : ExceptT ε (Thread τ ι') α} {n : ExceptT ε (Thread σ ι) α}
    {k : α → ExceptT ε (Thread τ ι') α'} {k' : α → ExceptT ε (Thread σ ι) β'}
    (h : Matches M Eq m.run n.run) (hk : ∀ a, Matches M (Agree T') (k a).run (k' a).run) :
    Matches M (Agree T') (m >>= k).run (n >>= k').run :=
  matches_run_bind (h.mono (fun _ h => h) fun _ _ => agree_eq) fun a _ hab => hab ▸ hk a

theorem result_ok_bind (a : α) (k : α → ExceptT ε (Thread σ ι) β) :
    (result (.ok a) >>= k) = k a := rfl

theorem matches_run_result (r : Except ε α) :
    Matches M Eq (result r : ExceptT ε (Thread τ ι') α).run
      (result r : ExceptT ε (Thread σ ι) α).run := follows_pure rfl

theorem matches_attempt {R : Except ε α → Except ε β → Prop}
    {op : ι' → τ → Option (Except ε α × τ)} {op' : ι → σ → Option (Except ε β × σ)}
    (h : ∀ c t s r t', M.related t s → op c t = some (r, t') →
      ∃ c' r' s', op' c' s = some (r', s') ∧ M.related t' s' ∧ R r r') :
    Matches M R (attempt op).run (attempt op').run := by
  intro c t r t' s hrelated hop
  obtain ⟨c', r', s', hop', hrelated', hr⟩ := h c t s r t' hrelated hop
  exact ⟨.done r', s', .act hop' (.refl _ _), hrelated', follows_pure hr⟩

theorem matches_outcome {m : ExceptT ε (Thread τ ι') α} {n : ExceptT ε (Thread σ ι) β}
    (h : Matches M (Agree T) m.run n.run) :
    Matches M (Agree (Agree T)) (outcome m).run (outcome n).run :=
  matches_bind h fun _ _ hr => follows_pure (R := Agree (Agree T)) hr

/-- What comes after the first program is idle. -/
theorem Follows.run_then_idle {m : ExceptT ε (Thread τ ι') α} {n : ExceptT ε (Thread σ ι) β}
    {k : α → ExceptT ε (Thread τ ι') α'} {R' : Except ε α' → Except ε β → Prop}
    (h : Matches M (Agree T) m.run n.run) (hidle : ∀ a, (k a).run.Each M.Idle)
    (hreturns : ∀ a b, T a b → (k a).run.Returns (R' · (.ok b)))
    (herror : ∀ e, R' (.error e) (.error e)) : Matches M R' (m >>= k).run n.run := by
  refine Follows.then_idle h (fun r => ?_) (fun r r' hr => ?_) fun _ hgiven => hgiven.elim
  · cases r with
    | ok a => exact hidle a
    | error e => trivial
  · match r, r', hr with
    | .ok a, .ok b, hab => exact hreturns a b hab
    | .error e, .error _, rfl => exact herror e

/-- What the first program makes of its result. -/
theorem Follows.run_map {m : ExceptT ε (Thread τ ι') α} {n : ExceptT ε (Thread σ ι) β} {f : α → α'}
    {T' : α' → β → Prop} (h : Matches M (Agree T) m.run n.run)
    (hf : ∀ a b, T a b → T' (f a) b) :
    Matches M (Agree T') (m >>= fun a => pure (f a)).run n.run :=
  Follows.run_then_idle h (fun _ => trivial) hf fun _ => rfl

/-- The first program is idle for a while, and does not fail. -/
theorem Follows.run_after_idle {m : ExceptT ε (Thread τ ι') α} {n : ExceptT ε (Thread σ ι) β'}
    {k : α → ExceptT ε (Thread τ ι') α'} (hidle : m.run.Each M.Idle)
    (hreturns : m.run.Returns Succeeds) (hk : ∀ a, Matches M (Agree T') (k a).run n.run) :
    Matches M (Agree T') (m >>= k).run n.run := by
  refine .after_idle hidle hreturns fun r hr => ?_
  cases r with
  | ok a => exact hk a
  | error e => exact (hr e rfl).elim

/-- What is held around the first program. -/
theorem Follows.run_held {take give : ExceptT ε (Thread τ ι') Unit} {m : ExceptT ε (Thread τ ι') α}
    {n : ExceptT ε (Thread σ ι) β} (htake : take.run.Each M.Idle)
    (htakes : take.run.Returns Succeeds) (hgive : give.run.Each M.Idle)
    (hgives : give.run.Returns Succeeds) (h : Matches M (Agree T) m.run n.run) :
    Matches M (Agree T)
      (do take; let r ← outcome m; give; result r : ExceptT ε (Thread τ ι') α).run n.run := by
  have houtcome : Matches M (fun r r' => ∃ r'', r = .ok r'' ∧ Agree T r'' r') (outcome m).run
      n.run :=
    Follows.then_idle h (fun _ => trivial) (fun r _ hr => ⟨r, rfl, hr⟩) fun _ hgiven => hgiven.elim
  refine .run_after_idle htake htakes fun _ => ?_
  refine Follows.then_idle houtcome (fun r => ?_) ?_ fun _ hgiven => hgiven.elim
  · cases r with
    | ok r => exact each_run_bind hgive fun _ => trivial
    | error e => trivial
  · rintro r r' ⟨r'', rfl, hr⟩
    exact returns_run_bind hgives (fun _ _ => hr) fun e he => (he e rfl).elim

end Fallible

end Thread

/-! ## Pools -/

namespace Pool

open Thread (Reaches Follows)

variable {σ τ ι ι' κ κ' α β : Type} {program : ℕ → κ → Thread τ ι' α}
  {program' : ℕ → κ' → Thread σ ι β} {M : Matching τ σ}

theorem step_of_call {q : Pool σ ι κ' β} {i : ℕ} {k : κ'} (h : q.threads i = none) :
    q.step program' (.call i k) = { q with threads := q.set i k (program' i k) } := by
  simp only [step, next, h, Option.getD_some]

theorem step_of_act {q : Pool σ ι κ' β} {i : ℕ} {k : κ'} {γ : Type} {op : ι → σ → Option (γ × σ)}
    {rest : γ → Thread σ ι β} {c : ι} {b : γ} {s : σ} (h : q.threads i = some (k, .act op rest))
    (hop : op c q.shared = some (b, s)) :
    q.step program' (.step i c) = ⟨s, q.set i k (rest b)⟩ := by
  simp only [step, next, h, hop, Option.map_some, Option.getD_some]

/-- The calls of one pool follow calls of another. -/
structure Refinement (program : ℕ → κ → Thread τ ι' α) (program' : ℕ → κ' → Thread σ ι β)
    (M : Matching τ σ) where
  /-- The call that is followed, if there is one. -/
  call : κ → Option κ'
  /-- The followed call is given up. -/
  given : α → Prop
  answers : κ → α → β → Prop
  idle : ∀ i k, call k = none → (program i k).Each M.Idle
  follows : ∀ i k k', call k = some k' → Follows M given (answers k) (program i k) (program' i k')
  /-- A step aside is a call that is executed in one go. -/
  aside : ∀ s s', M.aside s s' →
    ∃ k, ∀ j, ∃ b, Reaches (fun _ _ => False) (program' j k) s (.done b) s'

namespace Refinement

variable (R : Refinement program program' M)

/-- What is left of a thread follows what is left of the other one; both return together. -/
def Settled (k : κ) (m : Thread τ ι' α) (n : Thread σ ι β) : Prop :=
  match m with
  | .done a => R.given a ∨ ∃ b, n = .done b ∧ R.answers k a b
  | .act op next => Follows M R.given (R.answers k) (.act op next) n

/-- What each thread of the first pool has to do with one of the second. -/
def Attends (q : Pool σ ι κ' β) (i : ℕ) : Option (κ × Thread τ ι' α) → Prop
  | none => q.threads i = none
  | some (k, m) =>
      match R.call k with
      | none => m.Each M.Idle
      | some k' => ∃ n, q.threads i = some (k', n) ∧ R.Settled k m n

/-- The first pool has followed the second one so far; numbers from `N` on are not called in it. -/
structure Related (N : ℕ) (p : Pool τ ι' κ α) (q : Pool σ ι κ' β) : Prop where
  shared : M.related p.shared q.shared
  bound : ∀ i, N ≤ i → p.threads i = none
  attends : ∀ i, i < N → R.Attends q i (p.threads i)
  unused : ∃ free, N ≤ free ∧ ∀ j, free ≤ j → q.threads j = none

variable {R}

/-- A thread is settled before it goes on. -/
theorem exists_settled {k : κ} {m : Thread τ ι' α} {n : Thread σ ι β} {t : τ} {s : σ}
    (h : Follows M R.given (R.answers k) m n) (hrelated : M.related t s) :
    ∃ n' s', Reaches M.aside n s n' s' ∧ M.related t s' ∧ R.Settled k m n' := by
  cases m with
  | done a =>
      rcases h with hgiven | hdone
      · exact ⟨n, s, .refl _ _, hrelated, .inl hgiven⟩
      · obtain ⟨b, s', hreach, hrelated', hresult⟩ := hdone t s hrelated
        exact ⟨.done b, s', hreach, hrelated', .inr ⟨b, rfl, hresult⟩⟩
  | act op next => exact ⟨n, s, .refl _ _, hrelated, h⟩

/-- A thread alone does in the pool what it can do. -/
theorem exists_alone {n n' : Thread σ ι β} {s s' : σ} {j : ℕ} {k : κ'}
    (h : Reaches (fun _ _ => False) n s n' s') (run : ℕ → κ' → Thread σ ι β) {q : Pool σ ι κ' β}
    (hshared : q.shared = s) (hthread : q.threads j = some (k, n)) :
    ∃ moves, (q.after run moves).shared = s' ∧
      ∀ i, i ≠ j → (q.after run moves).threads i = q.threads i := by
  induction h generalizing q with
  | refl => exact ⟨[], hshared, fun _ _ => rfl⟩
  | aside he _ _ => exact he.elim
  | @act γ op rest c b s t u n' hop _ ih =>
      subst hshared
      have hstep : q.step run (.step j c) = ⟨t, q.set j k (rest b)⟩ := step_of_act hthread hop
      obtain ⟨moves, hafter, hothers⟩ := ih (q := q.step run (.step j c)) (by rw [hstep])
        (by rw [hstep]; exact Function.update_self ..)
      refine ⟨.step j c :: moves, hafter, fun i hne => (hothers i hne).trans ?_⟩
      rw [hstep]
      exact Function.update_of_ne hne ..

/-- A step aside can be made by a call under a number that is not used. -/
theorem exists_aside (R : Refinement program program' M) {s' : σ} {q : Pool σ ι κ' β} {free : ℕ}
    (haside : M.aside q.shared s') (hunused : ∀ j, free ≤ j → q.threads j = none) :
    ∃ moves, (q.after program' moves).shared = s' ∧
      (∀ i, i < free → (q.after program' moves).threads i = q.threads i) ∧
      ∀ j, free + 1 ≤ j → (q.after program' moves).threads j = none := by
  obtain ⟨k, hcall⟩ := R.aside _ _ haside
  obtain ⟨b, hreach⟩ := hcall free
  have hstep : q.step program' (.call free k) =
      { q with threads := q.set free k (program' free k) } :=
    step_of_call (hunused free (Nat.le_refl _))
  have hthread : (q.step program' (.call free k)).threads free = some (k, program' free k) := by
    rw [hstep]
    exact Function.update_self ..
  obtain ⟨moves, hshared, hothers⟩ := exists_alone hreach program' (by rw [hstep]) hthread
  refine ⟨.call free k :: moves, hshared, fun i hi => ?_, fun j hj => ?_⟩
  · refine (hothers i (Nat.ne_of_lt hi)).trans ?_
    rw [hstep]
    exact Function.update_of_ne (Nat.ne_of_lt hi) ..
  · have hne : j ≠ free := by omega
    refine (hothers j hne).trans ?_
    rw [hstep]
    exact (Function.update_of_ne hne ..).trans (hunused j (by omega))

/-- What a thread can do with steps aside, the pool can do. -/
theorem exists_moves (R : Refinement program program' M) {n n' : Thread σ ι β} {s s' : σ}
    (h : Reaches M.aside n s n' s') {q : Pool σ ι κ' β} {i free : ℕ} {k : κ'}
    (hshared : q.shared = s) (hthread : q.threads i = some (k, n)) (hi : i < free)
    (hunused : ∀ j, free ≤ j → q.threads j = none) :
    ∃ moves, (q.after program' moves).shared = s' ∧
      (q.after program' moves).threads i = some (k, n') ∧
      (∀ j, j < free → j ≠ i → (q.after program' moves).threads j = q.threads j) ∧
      ∃ free', free ≤ free' ∧ ∀ j, free' ≤ j → (q.after program' moves).threads j = none := by
  induction h generalizing q free with
  | refl => exact ⟨[], hshared, hthread, fun _ _ _ => rfl, free, Nat.le_refl _, hunused⟩
  | @act γ op rest c b s t u n' hop _ ih =>
      subst hshared
      have hstep : q.step program' (.step i c) = ⟨t, q.set i k (rest b)⟩ := step_of_act hthread hop
      obtain ⟨moves, hafter, hown, hothers, hfree⟩ := ih (q := q.step program' (.step i c))
        (by rw [hstep]) (by rw [hstep]; exact Function.update_self ..) hi fun j hj => by
          rw [hstep]
          exact (Function.update_of_ne (by omega) ..).trans (hunused j hj)
      refine ⟨.step i c :: moves, hafter, hown, fun j hj hne => (hothers j hj hne).trans ?_, hfree⟩
      rw [hstep]
      exact Function.update_of_ne hne ..
  | @aside n n' s t u he _ ih =>
      subst hshared
      obtain ⟨moves, hafter, hothers, hunused'⟩ := R.exists_aside he hunused
      obtain ⟨moves', hafter', hown, hothers', free', hle, hfree⟩ := ih hafter
        ((hothers i hi).trans hthread) (Nat.lt_succ_of_lt hi) hunused'
      refine ⟨moves ++ moves', ?_⟩
      rw [after_append]
      refine ⟨hafter', hown, fun j hj hne => ?_, free', by omega, hfree⟩
      exact (hothers' j (by omega) hne).trans (hothers j hj)

/-- The threads that are not looked at stay as they are. -/
theorem Attends.congr {q q' : Pool σ ι κ' β} {i : ℕ} {thread : Option (κ × Thread τ ι' α)}
    (h : R.Attends q i thread) (heq : q'.threads i = q.threads i) : R.Attends q' i thread := by
  match thread with
  | none => exact heq.trans h
  | some (k, m) =>
      simp only [Attends] at h ⊢
      split
      next => simpa only [*] using h
      next => simpa only [*] using h

/-- A thread that goes on, and what the second pool does for it. -/
theorem Related.advance {N : ℕ} {p : Pool τ ι' κ α} {q : Pool σ ι κ' β} (h : R.Related N p q)
    {i : ℕ} (hi : i < N) {k : κ} {m : Thread τ ι' α} {t : τ} {q' : Pool σ ι κ' β}
    (hshared : M.related t q'.shared) (hattends : R.Attends q' i (some (k, m)))
    (hothers : ∀ j, j < N → j ≠ i → q'.threads j = q.threads j)
    (hunused : ∃ free, N ≤ free ∧ ∀ j, free ≤ j → q'.threads j = none) :
    R.Related N ⟨t, p.set i k m⟩ q' where
  shared := hshared
  bound j hj := (Function.update_of_ne (by omega) ..).trans (h.bound j hj)
  attends j hj := by
    rcases eq_or_ne j i with rfl | hne
    · change R.Attends q' j (Function.update p.threads j (some (k, m)) j)
      rw [Function.update_self]
      exact hattends
    · change R.Attends q' j (Function.update p.threads i (some (k, m)) j)
      rw [Function.update_of_ne hne]
      exact (h.attends j hj).congr (hothers j hj hne)
  unused := hunused

/-- A thread that follows another one, which may just have been called, is matched by moves. -/
theorem Related.follow {N : ℕ} {p : Pool τ ι' κ α} {q q' : Pool σ ι κ' β} (h : R.Related N p q)
    {i : ℕ} (hi : i < N) {k : κ} {k' : κ'} (hcall : R.call k = some k') {m : Thread τ ι' α} {t : τ}
    {n n' : Thread σ ι β} {s : σ} (hthread : q'.threads i = some (k', n))
    (hothers : ∀ j, j ≠ i → q'.threads j = q.threads j)
    (hreach : Reaches M.aside n q'.shared n' s) (hrelated : M.related t s)
    (hfollows : Follows M R.given (R.answers k) m n') :
    ∃ moves, R.Related N ⟨t, p.set i k m⟩ (q'.after program' moves) := by
  obtain ⟨free, hle, hfree⟩ := h.unused
  have hunused : ∀ j, free ≤ j → q'.threads j = none := fun j hj =>
    (hothers j (by omega)).trans (hfree j hj)
  obtain ⟨n'', s', hsettles, hrelated', hsettled⟩ := exists_settled hfollows hrelated
  obtain ⟨moves, hshared, hown, hkept, free', hle', hfree'⟩ :=
    R.exists_moves (hreach.trans hsettles) rfl hthread (by omega : i < free) hunused
  refine ⟨moves, h.advance hi (by rw [hshared]; exact hrelated') ?_
    (fun j hj hne => (hkept j (by omega) hne).trans (hothers j hne)) ⟨free', by omega, hfree'⟩⟩
  simp only [Attends, hcall]
  exact ⟨n'', hown, hsettled⟩

/-- An idle thread is matched by a step aside at most. -/
theorem Related.wait {N : ℕ} {p : Pool τ ι' κ α} {q : Pool σ ι κ' β} (h : R.Related N p q)
    {i : ℕ} (hi : i < N) {k : κ} (hcall : R.call k = none) {m : Thread τ ι' α} (hm : m.Each M.Idle)
    {t : τ} (hidle : M.related t q.shared ∨ ∃ s, M.aside q.shared s ∧ M.related t s) :
    ∃ moves, R.Related N ⟨t, p.set i k m⟩ (q.after program' moves) := by
  have hattends : ∀ q', R.Attends q' i (some (k, m)) := fun q' => by
    simp only [Attends, hcall]
    exact hm
  rcases hidle with hrelated | ⟨s, haside, hrelated⟩
  · exact ⟨[], h.advance hi hrelated (hattends q) (fun _ _ _ => rfl) h.unused⟩
  · obtain ⟨free, hle, hfree⟩ := h.unused
    obtain ⟨moves, hshared, hothers, hunused⟩ := R.exists_aside haside hfree
    exact ⟨moves, h.advance hi (by rw [hshared]; exact hrelated) (hattends _)
      (fun j hj _ => hothers j (by omega)) ⟨free + 1, by omega, hunused⟩⟩

/-- The number of the thread that a move is about. -/
def number : Move κ ι' → ℕ
  | .call i _ => i
  | .step i _ => i

theorem Related.step {N : ℕ} {p : Pool τ ι' κ α} {q : Pool σ ι κ' β} (h : R.Related N p q)
    (move : Move κ ι') (hmove : number move < N) :
    ∃ moves, R.Related N (p.step program move) (q.after program' moves) := by
  rw [Pool.step]
  cases hnext : p.next program move with
  | none => exact ⟨[], h⟩
  | some p' =>
      cases move with
      | call i k =>
          obtain ⟨hfree, rfl⟩ := next_call hnext
          have hattends := h.attends i hmove
          rw [hfree] at hattends
          cases hcall : R.call k with
          | none => exact h.wait hmove hcall (R.idle i k hcall) (.inl h.shared)
          | some k' =>
              have hstep : q.step program' (.call i k') =
                  { q with threads := q.set i k' (program' i k') } := step_of_call hattends
              have hthread :
                  (q.step program' (.call i k')).threads i = some (k', program' i k') := by
                rw [hstep]
                exact Function.update_self ..
              obtain ⟨moves, hrelated⟩ := h.follow hmove hcall hthread
                (fun j hne => by rw [hstep]; exact Function.update_of_ne hne ..) (.refl _ _)
                (by rw [hstep]; exact h.shared) (R.follows i k k' hcall)
              exact ⟨.call i k' :: moves, hrelated⟩
      | step i c =>
          obtain ⟨k, γ, op, rest, b, t, hthread, hop, rfl⟩ := next_step hnext
          have hattends := h.attends i hmove
          rw [hthread] at hattends
          cases hcall : R.call k with
          | none =>
              simp only [Attends, hcall] at hattends
              exact h.wait hmove hcall (hattends.2 b)
                (hattends.1 c p.shared b t hop q.shared h.shared)
          | some k' =>
              simp only [Attends, hcall] at hattends
              obtain ⟨n, hn, hfollows⟩ := hattends
              obtain ⟨n', s, hreach, hrelated, hrest⟩ :=
                hfollows c p.shared b t q.shared h.shared hop
              exact h.follow hmove hcall hn (fun _ _ => rfl) hreach hrelated hrest

theorem Related.after {N : ℕ} {p : Pool τ ι' κ α} {q : Pool σ ι κ' β} (h : R.Related N p q)
    (moves : List (Move κ ι')) (hmoves : ∀ move ∈ moves, number move < N) :
    ∃ moves', R.Related N (p.after program moves) (q.after program' moves') := by
  induction moves generalizing p q with
  | nil => exact ⟨[], h⟩
  | cons move moves ih =>
      obtain ⟨first, hfirst⟩ := h.step move (hmoves move List.mem_cons_self)
      obtain ⟨later, hlater⟩ := ih hfirst fun next hnext =>
        hmoves next (List.mem_cons_of_mem _ hnext)
      refine ⟨first ++ later, ?_⟩
      rw [after_append]
      exact hlater

/-- Numbers that no move is about. -/
theorem exists_bound (moves : List (Move κ ι')) : ∃ N, ∀ move ∈ moves, number move < N := by
  induction moves with
  | nil => exact ⟨0, fun _ h => absurd h List.not_mem_nil⟩
  | cons move moves ih =>
      obtain ⟨N, hN⟩ := ih
      refine ⟨max N (number move + 1), fun other hother => ?_⟩
      rcases List.mem_cons.mp hother with rfl | hmem
      · omega
      · have hlt := hN other hmem
        omega

/-- The calls that were followed have returned answers that fit, unless they were given up. -/
theorem Related.returned {N : ℕ} {p : Pool τ ι' κ α} {q : Pool σ ι κ' β} (h : R.Related N p q)
    {i : ℕ} {k : κ} {k' : κ'} {a : α} (hcall : R.call k = some k') (hreturned : p.Returned i k a) :
    i < N ∧ (R.given a ∨ ∃ b, q.Returned i k' b ∧ R.answers k a b) := by
  rw [Returned] at hreturned
  have hi : i < N := by
    by_contra hlarge
    have hnone := h.bound i (Nat.le_of_not_lt hlarge)
    rw [hreturned] at hnone
    cases hnone
  have hattends := h.attends i hi
  rw [hreturned] at hattends
  simp only [Attends, hcall] at hattends
  obtain ⟨n, hn, hsettled⟩ := hattends
  refine ⟨hi, hsettled.imp id ?_⟩
  rintro ⟨b, rfl, hanswers⟩
  exact ⟨b, hn, hanswers⟩

/-- Every run of the first pool, in two parts, has a run of the second one: the states are related
after both parts, what is called in the second part is so in both, and the calls that were
followed have returned answers that fit, unless they were given up. -/
theorem after (R : Refinement program program' M) {t : τ} {s : σ} (h : M.related t s)
    (moves later : List (Move κ ι')) :
    ∃ moves' later',
      M.related ((start t).after program moves).shared ((start s).after program' moves').shared ∧
      M.related (((start t).after program moves).after program later).shared
        (((start s).after program' moves').after program' later').shared ∧
      ∀ i k k' a, R.call k = some k' →
        (((start t).after program moves).after program later).Returned i k a →
        (((start t).after program moves).threads i = none →
          ((start s).after program' moves').threads i = none) ∧
        (R.given a ∨ ∃ b,
          (((start s).after program' moves').after program' later').Returned i k' b ∧
            R.answers k a b) := by
  obtain ⟨N, hN⟩ := exists_bound (moves ++ later)
  have hstart : R.Related N (start t) (start s) :=
    ⟨h, fun _ _ => rfl, fun _ _ => rfl, N, Nat.le_refl N, fun _ _ => rfl⟩
  obtain ⟨moves', hfirst⟩ :=
    hstart.after moves fun move hmove => hN move (List.mem_append_left _ hmove)
  obtain ⟨later', hsecond⟩ :=
    hfirst.after later fun move hmove => hN move (List.mem_append_right _ hmove)
  refine ⟨moves', later', hfirst.shared, hsecond.shared, fun i k k' a hcall hreturned => ?_⟩
  obtain ⟨hi, hresult⟩ := hsecond.returned hcall hreturned
  refine ⟨fun hnew => ?_, hresult⟩
  have hattends := hfirst.attends i hi
  rwa [hnew] at hattends

end Refinement

end Pool
