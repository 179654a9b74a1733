import ClipDaemon.Lib.Threads

/-!
# Threads that run alone

`Thread.Runs` is the execution of a thread from its first statement to its last with nothing
in between.  It has one rule for each way to build a thread, and what every statement keeps
(`Thread.Each`) it keeps as a whole.  `Pool.Serves` says that a pool can get to a state by
calls that run one after the other, so an execution alone is one of its interleavings.

`Thread.alone` computes such an execution when the surroundings choose the same throughout.
-/

namespace Thread

variable {σ ι ε α β : Type}

/-- The thread, executed alone from one state, returns a value in another. -/
inductive Runs : Thread σ ι α → σ → α → σ → Prop
  | done (a : α) (s : σ) : Runs (.done a) s a s
  | act {β : Type} {op : ι → σ → Option (β × σ)} {next : β → Thread σ ι α} {s s' t : σ} {c : ι}
      {b : β} {a : α} (hop : op c s = some (b, s')) (hrest : Runs (next b) s' a t) :
      Runs (.act op next) s a t

variable {s t u : σ}

theorem runs_pure (a : α) (s : σ) : Runs (Pure.pure a : Thread σ ι α) s a s := .done a s

theorem runs_atomic {op : ι → σ → Option (α × σ)} (c : ι) {a : α} (h : op c s = some (a, t)) :
    Runs (atomic op) s a t := .act h (.done a t)

theorem runs_modify [Inhabited ι] (f : σ → α × σ) :
    Runs (modify f : Thread σ ι α) s (f s).1 (f s).2 := runs_atomic default rfl

theorem Runs.bind {m : Thread σ ι α} {k : α → Thread σ ι β} {a : α} {b : β} (h : Runs m s a t)
    (hk : Runs (k a) t b u) : Runs (m >>= k) s b u := by
  induction h with
  | done a s => exact hk
  | act hop _ ih => exact .act hop (ih hk)

/-- The second part of a fallible program runs when the first one succeeds. -/
theorem Runs.run_bind {m : ExceptT ε (Thread σ ι) α} {k : α → ExceptT ε (Thread σ ι) β} {a : α}
    {b : Except ε β} (h : Runs m.run s (.ok a) t) (hk : Runs (k a).run t b u) :
    Runs (m >>= k).run s b u :=
  h.bind hk

theorem Runs.lift {m : Thread σ ι α} {a : α} (h : Runs m s a t) :
    Runs (ExceptT.lift m : ExceptT ε (Thread σ ι) α).run s (.ok a) t :=
  h.bind (runs_pure _ t)

/-- What every statement keeps, a run alone keeps. -/
theorem Each.runs {P : σ → σ → Prop} {m : Thread σ ι α} {a : α} (hm : m.Each P) (h : Runs m s a t)
    (hrefl : ∀ s, P s s) (htrans : ∀ s t u, P s t → P t u → P s u) : P s t := by
  induction h with
  | done a s => exact hrefl s
  | act hop _ ih => exact htrans _ _ _ (hm.1 _ _ _ _ hop) (ih (hm.2 _))

/-! ## The same choice throughout -/

/-- What a thread returns, unless it is blocked, and the state it leaves. -/
def alone (c : ι) : Thread σ ι α → σ → Option α × σ
  | .done a, s => (some a, s)
  | .act op next, s =>
      match op c s with
      | none => (none, s)
      | some (b, t) => alone c (next b) t

variable {c : ι}

theorem alone_bind {m : Thread σ ι α} {k : α → Thread σ ι β} {a : α}
    (h : m.alone c s = (some a, t)) : (m >>= k).alone c s = (k a).alone c t := by
  induction m generalizing s with
  | done b =>
      obtain ⟨hb, rfl⟩ := Prod.mk.inj h
      obtain rfl := Option.some.inj hb
      rfl
  | act op next ih =>
      rw [alone] at h
      change alone c (.act op fun b => Thread.bind (next b) k) s = _
      rw [alone]
      split at h
      · cases (Prod.mk.inj h).1
      next b u _ => exact ih b h

/-- The first part succeeds. -/
theorem alone_run_bind {m : ExceptT ε (Thread σ ι) α} {k : α → ExceptT ε (Thread σ ι) β} {a : α}
    (h : m.run.alone c s = (some (.ok a), t)) : (m >>= k).run.alone c s = (k a).run.alone c t :=
  alone_bind h

/-- The first part fails. -/
theorem alone_run_bind_error {m : ExceptT ε (Thread σ ι) α} {k : α → ExceptT ε (Thread σ ι) β}
    {e : ε} (h : m.run.alone c s = (some (.error e), t)) :
    (m >>= k).run.alone c s = (some (.error e), t) :=
  alone_bind h

theorem alone_outcome {m : ExceptT ε (Thread σ ι) α} {r : Except ε α}
    (h : m.run.alone c s = (some r, t)) : (outcome m).run.alone c s = (some (.ok r), t) :=
  alone_bind h

end Thread

namespace Pool

variable {σ ι κ α : Type} {program : ℕ → κ → Thread σ ι α} {p : Pool σ ι κ α}

/-- A thread that has been called can be run to its end. -/
theorem after_of_runs (program : ℕ → κ → Thread σ ι α) {i : ℕ} {k : κ} {m : Thread σ ι α} {s t : σ}
    {a : α} (h : m.Runs s a t) :
    ∀ p : Pool σ ι κ α, p.shared = s → p.threads i = some (k, m) →
      ∃ moves : List (Move κ ι), (p.after program moves).shared = t ∧
        (p.after program moves).Returned i k a ∧
        ∀ j, j ≠ i → (p.after program moves).threads j = p.threads j := by
  induction h with
  | done a s => exact fun p hs hi => ⟨[], hs, hi, fun _ _ => rfl⟩
  | @act β op next s s' t c b a hop hrest ih =>
      intro p hs hi
      have hstep : p.step program (.step i c) = ⟨s', p.set i k (next b)⟩ := by
        rw [step, Pool.next, hi]
        simp only [hs, hop, Option.map_some, Option.getD_some]
      obtain ⟨moves, hshared, hreturned, hothers⟩ :=
        ih (p.step program (.step i c)) (by rw [hstep])
          (by rw [hstep]; exact Function.update_self ..)
      refine ⟨.step i c :: moves, hshared, hreturned, fun j hne => (hothers j hne).trans ?_⟩
      rw [hstep]
      exact Function.update_of_ne hne _ _

/-- A call that runs alone. -/
theorem after_of_call {i : ℕ} {k : κ} {t : σ} {a : α} (hi : p.threads i = none)
    (h : (program i k).Runs p.shared a t) :
    ∃ moves : List (Move κ ι), (p.after program moves).shared = t ∧
      (p.after program moves).Returned i k a ∧
      ∀ j, j ≠ i → (p.after program moves).threads j = p.threads j := by
  have hcall : p.step program (.call i k) = { p with threads := p.set i k (program i k) } := by
    rw [step, Pool.next, hi]
    rfl
  obtain ⟨moves, hshared, hreturned, hothers⟩ :=
    after_of_runs program h (p.step program (.call i k)) (by rw [hcall])
      (by rw [hcall]; exact Function.update_self ..)
  refine ⟨.call i k :: moves, hshared, hreturned, fun j hne => (hothers j hne).trans ?_⟩
  rw [hcall]
  exact Function.update_of_ne hne _ _

/-- The pool can get to the state with the threads from `n` on not called yet. -/
def Serves (program : ℕ → κ → Thread σ ι α) (p : Pool σ ι κ α) (n : ℕ) (s : σ) : Prop :=
  ∃ moves : List (Move κ ι), (p.after program moves).shared = s ∧
    ∀ j, n ≤ j → (p.after program moves).threads j = none

theorem serves_start (s : σ) : Serves program (start s) 0 s := ⟨[], rfl, fun _ _ => rfl⟩

theorem Serves.call {n : ℕ} {s t : σ} {k : κ} {a : α} (h : Serves program p n s)
    (hruns : (program n k).Runs s a t) : Serves program p (n + 1) t := by
  obtain ⟨moves, rfl, hfree⟩ := h
  obtain ⟨moves', hshared, -, hothers⟩ := after_of_call (hfree n (Nat.le_refl n)) hruns
  refine ⟨moves ++ moves', ?_, fun j hj => ?_⟩
  · rw [after_append]
    exact hshared
  · rw [after_append, hothers j (Nat.ne_of_gt hj)]
    exact hfree j (Nat.le_of_succ_le hj)

end Pool
