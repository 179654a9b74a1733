import ClipDaemon.Lib.Threads

/-!
# Up to the point of no return

Some threads do what must not be told as a failure afterwards.  `Thread.Until P Q` says that every
statement of a thread moves the state along `P`, up to one from which on the thread returns only
results with `Q`.  `Thread.Returns Q` is the second half of that.

Both are about the program and not about a run, so they are shown by the structure of the
program; `Until.keeps` then puts a thread under a discipline.
-/

namespace Thread

variable {σ ι ε α β : Type} {P : σ → σ → Prop}

/-- Every result of the thread is one with `Q`. -/
def Returns (Q : α → Prop) : Thread σ ι α → Prop
  | .done a => Q a
  | .act op next => ∀ c s b t, op c s = some (b, t) → (next b).Returns Q

/-- Every statement moves the state along `P`, or nothing but `Q` is returned after it. -/
def Until (P : σ → σ → Prop) (Q : α → Prop) : Thread σ ι α → Prop
  | .done _ => True
  | .act op next => ∀ c s b t, op c s = some (b, t) →
      (P s t ∧ (next b).Until P Q) ∨ (next b).Returns Q

/-- A failure is one with `E`. -/
def FailsWith (E : ε → Prop) (r : Except ε α) : Prop := ∀ e, r = .error e → E e

/-- No failure. -/
abbrev Succeeds (r : Except ε α) : Prop := FailsWith (fun _ => False) r

theorem failsWith_ok {E : ε → Prop} (a : α) : FailsWith E (.ok a : Except ε α) := by
  intro e h
  cases h

theorem failsWith_error {E : ε → Prop} {e : ε} (h : E e) : FailsWith E (.error e : Except ε α) := by
  intro e' he
  cases he
  exact h

/-! ## What is returned -/

theorem Returns.mono {Q Q' : α → Prop} {m : Thread σ ι α} (h : m.Returns Q)
    (himp : ∀ a, Q a → Q' a) : m.Returns Q' := by
  induction m with
  | done a => exact himp a h
  | act op next ih => exact fun c s b t hop => ih b (h c s b t hop)

theorem returns_any (m : Thread σ ι α) : m.Returns fun _ => True := by
  induction m with
  | done a => trivial
  | act op next ih => exact fun c s b t _ => ih b

theorem Returns.and {Q Q' : α → Prop} {m : Thread σ ι α} (h : m.Returns Q) (h' : m.Returns Q') :
    m.Returns fun a => Q a ∧ Q' a := by
  induction m with
  | done a => exact ⟨h, h'⟩
  | act op next ih => exact fun c s b t hop => ih b (h c s b t hop) (h' c s b t hop)

theorem returns_bind {Q : α → Prop} {Q' : β → Prop} {m : Thread σ ι α} {k : α → Thread σ ι β}
    (hm : m.Returns Q) (hk : ∀ a, Q a → (k a).Returns Q') : (m >>= k).Returns Q' := by
  induction m with
  | done a => exact hk a hm
  | act op next ih => exact fun c s b t hop => ih b (hm c s b t hop)

theorem returns_zoom {τ ι' : Type} {get : τ → σ} {put : τ → σ → τ} {pick : ι' → ι} {Q : α → Prop}
    {m : Thread σ ι α} (hm : m.Returns Q) : (zoom get put pick m).Returns Q := by
  induction m with
  | done a => exact hm
  | act op next ih =>
      intro c s b t hop
      obtain ⟨⟨b', t'⟩, hop', heq⟩ := Option.map_eq_some_iff.mp hop
      cases heq
      exact ih b' (hm _ _ _ _ hop')

section Fallible

variable {E : ε → Prop}

theorem returns_attempt {op : ι → σ → Option (Except ε α × σ)} {Q : Except ε α → Prop}
    (h : ∀ c s r t, op c s = some (r, t) → Q r) : (attempt op).run.Returns Q := h

theorem returns_run_bind {m : ExceptT ε (Thread σ ι) α} {k : α → ExceptT ε (Thread σ ι) β}
    {Q : Except ε α → Prop} {Q' : Except ε β → Prop} (hm : m.run.Returns Q)
    (hk : ∀ a, Q (.ok a) → (k a).run.Returns Q') (herror : ∀ e, Q (.error e) → Q' (.error e)) :
    (m >>= k).run.Returns Q' := by
  refine returns_bind hm fun r hr => ?_
  cases r with
  | ok a => exact hk a hr
  | error e => exact herror e hr

/-- The last part says what is returned. -/
theorem returns_run_last {m : ExceptT ε (Thread σ ι) α} {k : α → ExceptT ε (Thread σ ι) β}
    {Q : Except ε β → Prop} (hk : ∀ a, (k a).run.Returns Q) (herror : ∀ e, Q (.error e)) :
    (m >>= k).run.Returns Q :=
  returns_run_bind (returns_any m.run) (fun a _ => hk a) fun e _ => herror e

/-- The same kinds of failures. -/
theorem returns_run_then {m : ExceptT ε (Thread σ ι) α} {k : α → ExceptT ε (Thread σ ι) β}
    (hm : m.run.Returns (FailsWith E)) (hk : ∀ a, (k a).run.Returns (FailsWith E)) :
    (m >>= k).run.Returns (FailsWith E) :=
  returns_run_bind hm (fun a _ => hk a) fun _ h => failsWith_error (h _ rfl)

theorem returns_run_pure (a : α) :
    (Pure.pure a : ExceptT ε (Thread σ ι) α).run.Returns (FailsWith E) := failsWith_ok a

/-- The result of a program as a value is no failure. -/
theorem returns_outcome {m : ExceptT ε (Thread σ ι) α} {Q : Except ε α → Prop}
    (hm : m.run.Returns Q) : (outcome m).run.Returns fun r => ∃ r', r = .ok r' ∧ Q r' :=
  returns_bind hm fun r hr => ⟨r, rfl, hr⟩

/-- What is held around a program. -/
theorem returns_held {take give : ExceptT ε (Thread σ ι) Unit} {m : ExceptT ε (Thread σ ι) α}
    {Q : Except ε α → Prop} (hm : m.run.Returns Q) (herror : ∀ e, Q (.error e)) :
    (do take; let r ← outcome m; give; result r : ExceptT ε (Thread σ ι) α).run.Returns Q := by
  refine returns_run_last (fun _ => ?_) herror
  refine returns_run_bind (returns_outcome hm) (fun r hr => ?_) fun e _ => herror e
  obtain ⟨r', hr', hresult⟩ := hr
  cases hr'
  exact returns_run_last (fun _ => hresult) herror

theorem succeeds_outcome (m : ExceptT ε (Thread σ ι) α) : (outcome m).run.Returns (FailsWith E) :=
  (returns_outcome (returns_any m.run)).mono fun _ ⟨_, hr, _⟩ => hr ▸ failsWith_ok _

end Fallible

/-! ## Up to a statement -/

theorem until_pure {Q : α → Prop} (a : α) : (Pure.pure a : Thread σ ι α).Until P Q := trivial

theorem until_of_each {Q : α → Prop} {m : Thread σ ι α} (h : m.Each P) : m.Until P Q := by
  induction m with
  | done a => trivial
  | act op next ih => exact fun c s b t hop => .inl ⟨h.1 c s b t hop, ih b (h.2 b)⟩

theorem until_of_returns {Q : α → Prop} {m : Thread σ ι α} (h : m.Returns Q) : m.Until P Q := by
  cases m with
  | done a => trivial
  | act op next => exact fun c s b t hop => .inr (h c s b t hop)

theorem until_atomic {op : ι → σ → Option (α × σ)} {Q : α → Prop}
    (h : ∀ c s a t, op c s = some (a, t) → P s t ∨ Q a) : (atomic op).Until P Q := by
  intro c s a t hop
  exact (h c s a t hop).imp (fun hstep => ⟨hstep, trivial⟩) id

theorem Until.mono {P' : σ → σ → Prop} {Q Q' : α → Prop} {m : Thread σ ι α} (h : m.Until P Q)
    (hP : ∀ s t, P s t → P' s t) (hQ : ∀ a, Q a → Q' a) : m.Until P' Q' := by
  induction m with
  | done a => trivial
  | act op next ih =>
      intro c s b t hop
      rcases h c s b t hop with ⟨hstep, hnext⟩ | hreturns
      · exact .inl ⟨hP s t hstep, ih b hnext⟩
      · exact .inr (hreturns.mono hQ)

/-- What every statement does besides. -/
theorem Until.and {G : σ → σ → Prop} {Q : α → Prop} {m : Thread σ ι α} (h : m.Until P Q)
    (heach : m.Each G) : m.Until (fun s t => P s t ∧ G s t) Q := by
  induction m with
  | done a => trivial
  | act op next ih =>
      intro c s b t hop
      rcases h c s b t hop with ⟨hstep, hnext⟩ | hreturns
      · exact .inl ⟨⟨hstep, heach.1 c s b t hop⟩, ih b hnext (heach.2 b)⟩
      · exact .inr hreturns

/-- What every result is besides. -/
theorem Until.and_returns {Q Q' : α → Prop} {m : Thread σ ι α} (h : m.Until P Q)
    (h' : m.Returns Q') : m.Until P fun a => Q a ∧ Q' a := by
  induction m with
  | done a => trivial
  | act op next ih =>
      intro c s b t hop
      rcases h c s b t hop with ⟨hstep, hnext⟩ | hreturns
      · exact .inl ⟨hstep, ih b hnext (h' c s b t hop)⟩
      · exact .inr (hreturns.and (h' c s b t hop))

theorem until_bind {Q : α → Prop} {Q' : β → Prop} {m : Thread σ ι α} {k : α → Thread σ ι β}
    (hm : m.Until P Q) (hk : ∀ a, (k a).Until P Q') (hlast : ∀ a, Q a → (k a).Returns Q') :
    (m >>= k).Until P Q' := by
  induction m with
  | done a => exact hk a
  | act op next ih =>
      intro c s b t hop
      rcases hm c s b t hop with ⟨hstep, hnext⟩ | hreturns
      · exact .inl ⟨hstep, ih b hnext⟩
      · exact .inr (returns_bind hreturns hlast)

/-- The first part does not leave `P`. -/
theorem until_after {Q : β → Prop} {m : Thread σ ι α} {k : α → Thread σ ι β} (hm : m.Each P)
    (hk : ∀ a, (k a).Until P Q) : (m >>= k).Until P Q :=
  until_bind (until_of_each (Q := fun _ => False) hm) hk fun _ h => h.elim

theorem until_zoom {τ ι' : Type} {get : τ → σ} {put : τ → σ → τ} {pick : ι' → ι}
    {R : τ → τ → Prop} {Q : α → Prop} {m : Thread σ ι α} (hm : m.Until P Q)
    (h : ∀ s t, P (get s) t → R s (put s t)) : (zoom get put pick m).Until R Q := by
  induction m with
  | done a => trivial
  | act op next ih =>
      intro c s b t hop
      obtain ⟨⟨b', t'⟩, hop', heq⟩ := Option.map_eq_some_iff.mp hop
      cases heq
      rcases hm _ _ _ _ hop' with ⟨hstep, hnext⟩ | hreturns
      · exact .inl ⟨h s t' hstep, ih b' hnext⟩
      · exact .inr (returns_zoom hreturns)

section Fallible

variable {E : ε → Prop}

theorem until_attempt {op : ι → σ → Option (Except ε α × σ)} {Q : Except ε α → Prop}
    (h : ∀ c s r t, op c s = some (r, t) → P s t ∨ Q r) : (attempt op).run.Until P Q :=
  until_atomic h

theorem until_run_bind {m : ExceptT ε (Thread σ ι) α} {k : α → ExceptT ε (Thread σ ι) β}
    {Q : Except ε α → Prop} {Q' : Except ε β → Prop} (hm : m.run.Until P Q)
    (hk : ∀ a, (k a).run.Until P Q') (hlast : ∀ a, Q (.ok a) → (k a).run.Returns Q')
    (herror : ∀ e, Q (.error e) → Q' (.error e)) : (m >>= k).run.Until P Q' := by
  refine until_bind hm (fun r => ?_) fun r hr => ?_
  · cases r with
    | ok a => exact hk a
    | error e => trivial
  · cases r with
    | ok a => exact hlast a hr
    | error e => exact herror e hr

theorem until_run_first {m : ExceptT ε (Thread σ ι) α} {k : α → ExceptT ε (Thread σ ι) β}
    {Q : Except ε β → Prop} (hm : m.run.Each P) (hk : ∀ a, (k a).run.Until P Q) :
    (m >>= k).run.Until P Q := by
  refine until_after hm fun r => ?_
  cases r with
  | ok a => exact hk a
  | error e => trivial

/-- The second part fails as the first one may. -/
theorem until_run_last {m : ExceptT ε (Thread σ ι) α} {k : α → ExceptT ε (Thread σ ι) β}
    (hm : m.run.Until P (FailsWith E)) (hk : ∀ a, (k a).run.Returns (FailsWith E)) :
    (m >>= k).run.Until P (FailsWith E) :=
  until_run_bind hm (fun a => until_of_returns (hk a)) (fun a _ => hk a)
    fun _ h => failsWith_error (h _ rfl)

theorem until_outcome {m : ExceptT ε (Thread σ ι) α} {Q : Except ε α → Prop}
    (hm : m.run.Until P Q) : (outcome m).run.Until P fun r => ∃ r', r = .ok r' ∧ Q r' :=
  until_bind hm (fun _ => until_pure _) fun r hr => ⟨r, rfl, hr⟩

/-- What is held around a program. -/
theorem until_held {take : ExceptT ε (Thread σ ι) Unit} {give : ExceptT ε (Thread σ ι) Unit}
    {Q : Except ε α → Prop} {m : ExceptT ε (Thread σ ι) α} (htake : take.run.Each P)
    (hgive : give.run.Each P) (hgives : give.run.Returns Succeeds) (hm : m.run.Until P Q) :
    (do take; let r ← outcome m; give; result r : ExceptT ε (Thread σ ι) α).run.Until P Q := by
  refine until_run_first htake fun _ => ?_
  refine until_run_bind (until_outcome hm) (fun r => ?_) ?_ ?_
  · exact until_run_first hgive fun _ => trivial
  · rintro r ⟨r', hr, hreturned⟩
    cases hr
    exact returns_run_bind hgives (fun _ _ => hreturned) fun e he => (he e rfl).elim
  · rintro e ⟨r', hr, -⟩
    cases hr

end Fallible

/-! ## Under a discipline -/

section Keeps

variable {D : Discipline σ} {i : ℕ} {s : σ} {G : σ → σ → Prop}

theorem Returns.keeps {Q : α → Prop} {m : Thread σ ι α} (h : m.Returns Q) (heach : m.Each G)
    (hallows : ∀ s t, D.valid s → G s t → D.Allows i s t) : m.Keeps D i (fun a _ => Q a) s := by
  induction m generalizing s with
  | done a => exact h
  | act op next ih =>
      intro t hvalid _ c b u hop
      exact ⟨hallows t u hvalid (heach.1 c t b u hop), ih b (h c t b u hop) (heach.2 b)⟩

/-- The steps are allowed where the thread knows `R`, which it relies on and keeps. -/
theorem Each.keeps_under {R : σ → Prop} {m : Thread σ ι α} (h : m.Each G)
    (hallows : ∀ s t, D.valid s → R s → G s t → D.Allows i s t)
    (hrely : ∀ s t, D.rely i s t → R s → R t) (hown : ∀ s t, D.valid s → G s t → R s → R t)
    (hR : R s) : m.Keeps D i (fun _ u => R u) s := by
  induction m generalizing s with
  | done a => exact hR
  | act op next ih =>
      intro t hvalid hmove c b u hop
      have hstep : G t u := h.1 c t b u hop
      have ht : R t := hrely s t hmove hR
      exact ⟨hallows t u hvalid ht hstep, ih b (h.2 b) (hown t u hvalid hstep ht)⟩

/-- What the thread relies on and what `P` keeps is so in the end, unless `Q` was returned. -/
theorem Until.keeps {Q : α → Prop} {R : σ → Prop} {m : Thread σ ι α} (h : m.Until P Q)
    (heach : m.Each G) (hallows : ∀ s t, D.valid s → G s t → D.Allows i s t)
    (hrely : ∀ s t, D.rely i s t → R s → R t)
    (hown : ∀ s t, D.valid s → P s t → R s → R t) (hR : R s) :
    m.Keeps D i (fun a u => R u ∨ Q a) s := by
  induction m generalizing s with
  | done a => exact .inl hR
  | act op next ih =>
      intro t hvalid hmove c b u hop
      have hstep : G t u := heach.1 c t b u hop
      refine ⟨hallows t u hvalid hstep, ?_⟩
      rcases h c t b u hop with ⟨hP, hnext⟩ | hreturns
      · exact ih b hnext (heach.2 b) (hown t u hvalid hP (hrely s t hmove hR))
      · exact (hreturns.keeps (heach.2 b) hallows).weaken fun a u ha => .inr ha

/-- Two postconditions. -/
theorem Keeps.and {Q Q' : α → σ → Prop} {m : Thread σ ι α} (h : m.Keeps D i Q s)
    (h' : m.Keeps D i Q' s) : m.Keeps D i (fun a u => Q a u ∧ Q' a u) s := by
  induction m generalizing s with
  | done a => exact ⟨h, h'⟩
  | act op next ih =>
      intro t hvalid hmove c b u hop
      obtain ⟨hallows, hnext⟩ := h t hvalid hmove c b u hop
      exact ⟨hallows, ih b hnext (h' t hvalid hmove c b u hop).2⟩

end Keeps

/-! ## What threads leave true -/

/-- What is so before a move along `r` is so after it. -/
def Stable (r : σ → σ → Prop) (R : σ → Prop) : Prop := ∀ s t, r s t → R s → R t

section Stable

variable {r : σ → σ → Prop} {R R' : σ → Prop}

theorem stable_of {p : Prop} : Stable r fun _ => p := fun _ _ _ h => h

theorem Stable.and (h : Stable r R) (h' : Stable r R') : Stable r fun s => R s ∧ R' s :=
  fun s t hmove hs => ⟨h s t hmove hs.1, h' s t hmove hs.2⟩

theorem Stable.ex {R : β → σ → Prop} (h : ∀ b, Stable r (R b)) : Stable r fun s => ∃ b, R b s :=
  fun s t hmove ⟨b, hb⟩ => ⟨b, h b s t hmove hb⟩

end Stable

/-- The thread keeps the discipline, and all that it relies on. -/
def Mild (D : Discipline σ) (i : ℕ) (m : Thread σ ι α) : Prop :=
  ∀ (R : σ → Prop) s, Stable (D.rely i) R → R s → m.Keeps D i (fun _ u => R u) s

theorem mild_of_each {D : Discipline σ} {i : ℕ} {G : σ → σ → Prop} {m : Thread σ ι α} (h : m.Each G)
    (hallows : ∀ s t, D.valid s → G s t → D.Allows i s t)
    (hown : ∀ s t, D.valid s → G s t → D.rely i s t) : m.Mild D i :=
  fun _ _ hR hs => h.keeps_inv hallows hR
  (fun s t hvalid hstep => hR s t (hown s t hvalid hstep)) hs

theorem Mild.keeps {D : Discipline σ} {i : ℕ} {R : σ → Prop} {s : σ} {m : Thread σ ι α}
    (hm : m.Mild D i) (hR : Stable (D.rely i) R) (hs : R s) : m.Keeps D i (fun _ u => R u) s :=
  hm R s hR hs

/-! ## What threads uphold -/

/-- The thread keeps the discipline, and `R`. -/
def Upholds (D : Discipline σ) (i : ℕ) (R : σ → Prop) (m : Thread σ ι α) : Prop :=
  ∀ s, R s → m.Keeps D i (fun _ u => R u) s

section Upholds

variable {D : Discipline σ} {i : ℕ} {R : σ → Prop}

theorem Mild.upholds {m : Thread σ ι α} (hm : m.Mild D i) (hR : Stable (D.rely i) R) :
    m.Upholds D i R := fun s hs => hm R s hR hs

theorem upholds_pure (a : α) : (Pure.pure a : Thread σ ι α).Upholds D i R := fun _ hs => hs

theorem upholds_bind {m : Thread σ ι α} {k : α → Thread σ ι β} (hm : m.Upholds D i R)
    (hk : ∀ a, (k a).Upholds D i R) : (m >>= k).Upholds D i R :=
  fun s hs => keeps_bind ((hm s hs).weaken fun a u hu => hk a u hu)

theorem upholds_run_bind {m : ExceptT ε (Thread σ ι) α} {k : α → ExceptT ε (Thread σ ι) β}
    (hm : m.run.Upholds D i R) (hk : ∀ a, (k a).run.Upholds D i R) :
    (m >>= k).run.Upholds D i R := by
  refine upholds_bind hm fun r => ?_
  cases r with
  | ok a => exact hk a
  | error e => exact upholds_pure _

end Upholds

/-! ## What fallible threads give -/

/-- The thread keeps the discipline, and its results are as `T` says. -/
def Gives (D : Discipline σ) (i : ℕ) (m : ExceptT ε (Thread σ ι) α) (T : α → σ → Prop) (s : σ) :
    Prop :=
  m.run.Keeps D i (fun r u => ∀ a, r = .ok a → T a u) s

section Gives

variable {D : Discipline σ} {i : ℕ} {s : σ} {T : α → σ → Prop} {m : ExceptT ε (Thread σ ι) α}

theorem Gives.weaken {T' : α → σ → Prop} (h : Gives D i m T s) (himp : ∀ a u, T a u → T' a u) :
    Gives D i m T' s :=
  Keeps.weaken h fun _ u hT a ha => himp a u (hT a ha)

theorem gives_of_keeps {R : σ → Prop} (h : m.run.Keeps D i (fun _ u => R u) s) :
    Gives D i m (fun _ u => R u) s :=
  h.weaken fun _ _ hu _ _ => hu

theorem gives_pure {a : α} (h : T a s) :
    Gives D i (Pure.pure a : ExceptT ε (Thread σ ι) α) T s := by
  intro b hb
  cases hb
  exact h

theorem gives_throw (e : ε) : Gives D i (throw e : ExceptT ε (Thread σ ι) α) T s := by
  intro b hb
  cases hb

theorem gives_result {r : Except ε α} (h : ∀ a, r = .ok a → T a s) :
    Gives D i (result r : ExceptT ε (Thread σ ι) α) T s := h

theorem gives_bind {T' : β → σ → Prop} {k : α → ExceptT ε (Thread σ ι) β}
    (h : Gives D i m (fun a u => Gives D i (k a) T' u) s) : Gives D i (m >>= k) T' s := by
  refine keeps_run_bind (Keeps.weaken h fun r u hr => ?_)
  cases r with
  | ok a => exact hr a rfl
  | error e => exact fun a ha => (by cases ha)

theorem gives_outcome (h : Gives D i m T s) :
    Gives D i (outcome m) (fun r u => ∀ a, r = .ok a → T a u) s := by
  refine keeps_outcome (Keeps.weaken h fun r u hr => ?_)
  intro r' hr'
  cases hr'
  exact hr

/-- What is held around a program is known inside of it. -/
theorem gives_held {T' : α → σ → Prop} {R : σ → Prop} {take give : ExceptT ε (Thread σ ι) Unit}
    (htake : Gives D i take (fun _ u => R u) s) (hm : ∀ t, R t → Gives D i m T t)
    (hgive : ∀ (r : Except ε α) t, (∀ a, r = .ok a → T a t) →
      Gives D i give (fun _ u => ∀ a, r = .ok a → T' a u) t) :
    Gives D i (do take; let r ← outcome m; give; result r) T' s := by
  refine gives_bind (htake.weaken fun _ t ht => ?_)
  refine gives_bind ((gives_outcome (hm t ht)).weaken fun r u hr => ?_)
  exact gives_bind ((hgive r u hr).weaken fun _ v hv => gives_result hv)

/-- A part that only keeps what is known. -/
theorem Mild.gives {R : σ → Prop} (hm : m.run.Mild D i) (hR : Stable (D.rely i) R) (hs : R s) :
    Gives D i m (fun _ u => R u) s := gives_of_keeps (hm.keeps hR hs)

theorem gives_then {T' : β → σ → Prop} {R : σ → Prop} {k : α → ExceptT ε (Thread σ ι) β}
    (hm : m.run.Mild D i) (hR : Stable (D.rely i) R) (hs : R s)
    (hk : ∀ a u, R u → Gives D i (k a) T' u) : Gives D i (m >>= k) T' s :=
  gives_bind ((hm.gives hR hs).weaken fun a u hu => hk a u hu)

/-- What is taken and given back is nothing that anyone relies on. -/
theorem gives_mildly_held {R : σ → Prop} {take give : ExceptT ε (Thread σ ι) Unit}
    (htake : take.run.Mild D i) (hgive : give.run.Mild D i) (hR : Stable (D.rely i) R)
    (hT : ∀ a, Stable (D.rely i) (T a)) (hm : ∀ t, R t → Gives D i m T t) (hs : R s) :
    Gives D i (do take; let r ← outcome m; give; result r) T s :=
  gives_held (htake.gives hR hs) hm fun r _ hr =>
    hgive.gives (R := fun u => ∀ a, r = .ok a → T a u)
      (fun _ _ hmove h a ha => hT a _ _ hmove (h a ha)) hr

end Gives

end Thread

/-! ## What is so of the number of a thread -/

namespace Pool

variable {σ ι κ α : Type} {program : ℕ → κ → Thread σ ι α} {p : Pool σ ι κ α}
  {P : ℕ → κ → σ → σ → Prop} {N : ℕ → σ → Prop} {R : ℕ → κ → σ → Prop}

/-- `N` holds of the numbers that are not in use, and `R` of those that are. -/
def Numbered (N : ℕ → σ → Prop) (R : ℕ → κ → σ → Prop) (p : Pool σ ι κ α) : Prop :=
  ∀ i, match p.threads i with
    | none => N i p.shared
    | some (k, _) => R i k p.shared

theorem numbered_start {s : σ} (h : ∀ i, N i s) : Numbered N R (start s : Pool σ ι κ α) := h

theorem numbered_step (hcall : ∀ i k s, N i s → R i k s)
    (hown : ∀ i k s t, P i k s t → R i k s → R i k t)
    (hfree : ∀ i j k s t, j ≠ i → P j k s t → N i s → N i t)
    (hothers : ∀ i k j l s t, j ≠ i → P j l s t → R i k s → R i k t) (heach : p.Each P)
    (hp : Numbered N R p) (move : Move κ ι) : Numbered N R (p.step program move) := by
  rw [step]
  cases h : p.next program move with
  | none => exact hp
  | some p' =>
      intro j
      have hj := hp j
      cases move with
      | call i k =>
          obtain ⟨hnone, rfl⟩ := next_call h
          simp only [Option.getD_some]
          rcases eq_or_ne j i with rfl | hne
          · simp only [set, Function.update_self]
            rw [hnone] at hj
            exact hcall j k _ hj
          · simpa only [set, Function.update_of_ne hne] using hj
      | step i c =>
          obtain ⟨k, β, op, rest, b, s, hthread, hop, rfl⟩ := next_step h
          have hstep : P i k p.shared s := (heach i k _ hthread).1 c _ b s hop
          simp only [Option.getD_some]
          rcases eq_or_ne j i with rfl | hne
          · simp only [set, Function.update_self]
            rw [hthread] at hj
            exact hown j k _ _ hstep hj
          · simp only [set, Function.update_of_ne hne]
            cases hthreads : p.threads j with
            | none =>
                rw [hthreads] at hj
                exact hfree j i k _ _ hne.symm hstep hj
            | some thread =>
                rw [hthreads] at hj
                exact hothers j thread.1 i k _ _ hne.symm hstep hj

theorem numbered_after (hprogram : ∀ i k, (program i k).Each (P i k))
    (hcall : ∀ i k s, N i s → R i k s) (hown : ∀ i k s t, P i k s t → R i k s → R i k t)
    (hfree : ∀ i j k s t, j ≠ i → P j k s t → N i s → N i t)
    (hothers : ∀ i k j l s t, j ≠ i → P j l s t → R i k s → R i k t) (heach : p.Each P)
    (hp : Numbered N R p) (moves : List (Move κ ι)) : Numbered N R (p.after program moves) := by
  induction moves generalizing p with
  | nil => exact hp
  | cons move moves ih =>
      exact ih (each_step hprogram heach move).1
        (numbered_step hcall hown hfree hothers heach hp move)

end Pool
