import Mathlib.Data.List.Induction

/-!
# Runs of a step function

A transition system is given by a partial step function `next : σ → α → Option σ`:
`next s a` is the state the action `a` leads to, and `none` says that `a` cannot be
taken in `s`.  An interleaving of several parties is a list of actions, each naming
the party that moves, so a statement about every interleaving is a statement about
every list.

`run next s as` follows a list of actions.  Where every action can be taken in every state, a
run is a fold, and three rules carry the arguments about whole runs: `foldl_invariant` for a
property that every step keeps, `foldl_invariant_of` when the steps also meet a side condition,
and `foldl_rel` for a reflexive and transitive relation between the two ends of a run.
-/

namespace Transition

variable {σ α : Type*} {next : σ → α → Option σ}

/-- The state a list of actions leads to, if every action can be taken. -/
def run (next : σ → α → Option σ) : σ → List α → Option σ
  | s, [] => some s
  | s, a :: as => (next s a).bind (run next · as)

theorem run_cons {s t : σ} {a : α} {as : List α} :
    run next s (a :: as) = some t ↔ ∃ u, next s a = some u ∧ run next u as = some t := by
  simp [run, Option.bind_eq_some_iff]

theorem run_append {s t : σ} {as bs : List α} :
    run next s (as ++ bs) = some t ↔ ∃ u, run next s as = some u ∧ run next u bs = some t := by
  induction as generalizing s with
  | nil => simp [run]
  | cons a as ih =>
      rw [List.cons_append, run_cons]
      constructor
      · rintro ⟨v, hv, h⟩
        obtain ⟨u, hu, ht⟩ := ih.mp h
        exact ⟨u, run_cons.mpr ⟨v, hv, hu⟩, ht⟩
      · rintro ⟨u, hu, ht⟩
        obtain ⟨v, hv, h⟩ := run_cons.mp hu
        exact ⟨v, hv, ih.mpr ⟨u, h, ht⟩⟩

theorem run_single {s t : σ} {a : α} : run next s [a] = some t ↔ next s a = some t := by
  simp [run]

/-- Two runs one after the other are a run. -/
theorem run_trans {s t u : σ} {as bs : List α} (h : run next s as = some t)
    (h' : run next t bs = some u) : run next s (as ++ bs) = some u :=
  run_append.mpr ⟨t, h, h'⟩

/-! ## Total steps

When every action can be taken in every state, a run is a fold. -/

variable {step : σ → α → σ}

/-- What every step keeps, every fold keeps. -/
theorem foldl_invariant {I : σ → Prop} (hstep : ∀ s a, I s → I (step s a)) (as : List α)
    {s : σ} (hs : I s) : I (as.foldl step s) := by
  induction as generalizing s with
  | nil => exact hs
  | cons a as ih => exact ih (hstep s a hs)

/-- Every step of the fold meets `ok` in the state it is taken from. -/
def Throughout (step : σ → α → σ) (ok : σ → α → Prop) : σ → List α → Prop
  | _, [] => True
  | s, a :: as => ok s a ∧ Throughout step ok (step s a) as

instance Throughout.decidable {ok : σ → α → Prop} [∀ s a, Decidable (ok s a)] :
    ∀ (s : σ) (as : List α), Decidable (Throughout step ok s as)
  | _, [] => .isTrue trivial
  | s, a :: as =>
      have : Decidable (Throughout step ok (step s a) as) := Throughout.decidable (step s a) as
      inferInstanceAs (Decidable (ok s a ∧ Throughout step ok (step s a) as))

/-- The invariant rule for folds whose steps all meet a side condition. -/
theorem foldl_invariant_of {I : σ → Prop} {ok : σ → α → Prop}
    (hstep : ∀ s a, I s → ok s a → I (step s a)) {as : List α} {s : σ}
    (hok : Throughout step ok s as) (hs : I s) : I (as.foldl step s) := by
  induction as generalizing s with
  | nil => exact hs
  | cons a as ih => exact ih hok.2 (hstep s a hs hok.1)

/-- A reflexive and transitive relation that relates the ends of every step, under an
invariant, relates the ends of every fold. -/
theorem foldl_rel {I : σ → Prop} {R : σ → σ → Prop} (hrefl : ∀ s, R s s)
    (htrans : ∀ s t u, R s t → R t u → R s u) (hinv : ∀ s a, I s → I (step s a))
    (hstep : ∀ s a, I s → R s (step s a)) (as : List α) {s : σ} (hs : I s) :
    R s (as.foldl step s) := by
  induction as generalizing s with
  | nil => exact hrefl s
  | cons a as ih => exact htrans _ _ _ (hstep s a hs) (ih (hinv s a hs))

/-! ## Runs that keep a log

The state holds a log that every step leaves alone or extends by one event.  Then every
event of the log was appended by some step of the run. -/

variable {ε : Type*}

/-- A step appends at most one event. -/
def Logs (step : σ → α → σ) (log : σ → List ε) : Prop :=
  ∀ s a, log (step s a) = log s ∨ ∃ e, log (step s a) = log s ++ [e]

/-- A log only grows. -/
theorem Logs.prefix_foldl {log : σ → List ε} (h : Logs step log) (as : List α) (s : σ) :
    log s <+: log (as.foldl step s) := by
  induction as generalizing s with
  | nil => exact List.prefix_rfl
  | cons a as ih =>
      refine List.IsPrefix.trans ?_ (ih (step s a))
      rcases h s a with heq | ⟨e, heq⟩
      · exact ⟨[], by rw [List.append_nil, heq]⟩
      · exact ⟨[e], heq.symm⟩

/-- The run up to an event of the log, the step that appended it, and the rest. -/
theorem Logs.split {log : σ → List ε} (h : Logs step log) {s : σ} (hs : log s = []) {as : List α}
    {before after : List ε} {e : ε} (has : log (as.foldl step s) = before ++ e :: after) :
    ∃ as₁ a as₂, as = as₁ ++ a :: as₂ ∧ log (as₁.foldl step s) = before ∧
      log (step (as₁.foldl step s) a) = before ++ [e] := by
  induction as using List.reverseRecOn generalizing after with
  | nil =>
      rw [List.foldl_nil, hs] at has
      cases before <;> cases has
  | append_singleton as a ih =>
      rw [List.foldl_append, List.foldl_cons, List.foldl_nil] at has
      rcases h (as.foldl step s) a with heq | ⟨e', heq⟩
      · obtain ⟨as₁, a₁, as₂, rfl, hbefore, hstep⟩ := ih (heq.symm.trans has)
        exact ⟨as₁, a₁, as₂ ++ [a], by simp, hbefore, hstep⟩
      · rcases List.eq_nil_or_concat after with rfl | ⟨after', e'', rfl⟩
        · obtain ⟨hlog, he⟩ := List.append_inj' (heq.symm.trans has) rfl
          exact ⟨as, a, [], rfl, hlog, by rw [heq, hlog, he]⟩
        · have hrest : log (as.foldl step s) ++ [e'] = (before ++ e :: after') ++ [e''] := by
            rw [← heq, has]
            simp
          obtain ⟨hlog, -⟩ := List.append_inj' hrest rfl
          obtain ⟨as₁, a₁, as₂, rfl, hbefore, hstep⟩ := ih hlog
          exact ⟨as₁, a₁, as₂ ++ [a], by simp, hbefore, hstep⟩

/-- The run between two events of the log. -/
theorem Logs.split_pair {log : σ → List ε} (h : Logs step log) {s : σ} (hs : log s = [])
    {as : List α} {A B C : List ε} {e e' : ε}
    (has : log (as.foldl step s) = A ++ e :: (B ++ e' :: C)) :
    ∃ (as₁ : List α) (a : α) (as₂ : List α) (a' : α),
      log (step (as₁.foldl step s) a) = log (as₁.foldl step s) ++ [e] ∧
      log (as₁.foldl step s) = A ∧
      log (as₂.foldl step (step (as₁.foldl step s) a)) = A ++ e :: B ∧
      log (step (as₂.foldl step (step (as₁.foldl step s) a)) a') =
        log (as₂.foldl step (step (as₁.foldl step s) a)) ++ [e'] := by
  have hsecond : log (as.foldl step s) = (A ++ e :: B) ++ e' :: C := by rw [has]; simp
  obtain ⟨as₂, a', rest, -, hlog₂, hstep₂⟩ := h.split hs hsecond
  obtain ⟨as₁, a, between, rfl, hlog₁, hstep₁⟩ := h.split hs hlog₂
  rw [List.foldl_append, List.foldl_cons] at hlog₂ hstep₂
  exact ⟨as₁, a, between, a', by rw [hstep₁, hlog₁], hlog₁, hlog₂, by rw [hstep₂, hlog₂]⟩

end Transition
