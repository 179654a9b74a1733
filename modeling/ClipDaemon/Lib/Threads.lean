import ClipDaemon.Lib.Transition

/-!
# Threads over a shared state

A `Thread σ ι α` is a program of *atomic statements* over a shared state `σ`.  A
statement is given a choice `ι` of the surroundings (what an outside call answers, say)
and either is blocked or moves the state and goes on with its result.  A `Pool` runs any
number of threads; every run of it is a list of moves, so a statement about every
interleaving is a statement about every list.

Threads are verified one by one, in two ways.  `Thread.Each P` says that every statement of
a thread, executed in any state, moves the state along `P`; then so does every step of that
thread in every run (`Pool.each_step`).

Where a statement needs what the thread did before, a `Discipline` says which states are
valid, what every step may do to the state, and what each thread relies on between two
statements of its own.  `Thread.Keeps` is the weakest precondition of a thread under a
discipline; it has one rule for each way to build a thread.  `Discipline.run_keeps` puts
the threads together: when each one keeps the discipline, so does every run of the pool.
-/

/-- A program of atomic statements over `σ` that returns `α`. -/
inductive Thread (σ ι α : Type) : Type 1
  /-- Return a value. -/
  | done (a : α)
  /-- Execute one statement, when it is not blocked, and go on with its result. -/
  | act {β : Type} (op : ι → σ → Option (β × σ)) (next : β → Thread σ ι α)

namespace Thread

variable {σ ι ε α β : Type}

/-- Run `m`, then what `k` makes of its result. -/
def bind : Thread σ ι α → (α → Thread σ ι β) → Thread σ ι β
  | .done a, k => k a
  | .act op next, k => .act op fun b => bind (next b) k

instance : Monad (Thread σ ι) where
  pure := .done
  bind := Thread.bind

/-- One statement. -/
def atomic (op : ι → σ → Option (α × σ)) : Thread σ ι α := .act op .done

/-- A statement that nothing blocks and that takes no choice. -/
def modify (f : σ → α × σ) : Thread σ ι α := atomic fun _ s => some (f s)

/-- One statement of a fallible program. -/
def attempt (op : ι → σ → Option (Except ε α × σ)) : ExceptT ε (Thread σ ι) α :=
  ExceptT.mk (atomic op)

/-- A program over a part of the state, told by `pick` what it is to know of a choice. -/
def zoom {τ ι' : Type} (get : τ → σ) (put : τ → σ → τ) (pick : ι' → ι) :
    Thread σ ι α → Thread τ ι' α
  | .done a => .done a
  | .act op next =>
      .act (fun c t => (op (pick c) (get t)).map fun r => (r.1, put t r.2))
        fun b => zoom get put pick (next b)

section Zoom

variable {τ ι' : Type} {get : τ → σ} {put : τ → σ → τ} {pick : ι' → ι}

theorem zoom_bind (m : Thread σ ι α) (k : α → Thread σ ι β) :
    zoom get put pick (m >>= k) = zoom get put pick m >>= fun a => zoom get put pick (k a) := by
  induction m with
  | done a => rfl
  | act op next ih => exact congrArg (Thread.act _) (funext ih)

theorem zoom_modify (f : σ → α × σ) :
    zoom get put pick (modify f : Thread σ ι α) =
      modify fun t => ((f (get t)).1, put t (f (get t)).2) := rfl

end Zoom

end Thread

/-! ## Pools -/

/-- Threads by their numbers, each with the call that it executes. -/
structure Pool (σ ι κ α : Type) where
  shared : σ
  threads : ℕ → Option (κ × Thread σ ι α)

namespace Pool

variable {σ ι κ α : Type}

/-- A pool in which nothing was called yet. -/
def start (s : σ) : Pool σ ι κ α := ⟨s, fun _ => none⟩

/-- One step of a pool. -/
inductive Move (κ ι : Type)
  /-- A new thread executes a call. -/
  | call (i : ℕ) (k : κ)
  /-- A thread executes its next statement. -/
  | step (i : ℕ) (c : ι)

/-- Thread `i` goes on as `m`. -/
def set (p : Pool σ ι κ α) (i : ℕ) (k : κ) (m : Thread σ ι α) : ℕ → Option (κ × Thread σ ι α) :=
  Function.update p.threads i (some (k, m))

/-- A thread after a change is the one changed or one that was there. -/
theorem set_some {p : Pool σ ι κ α} {i j : ℕ} {k k' : κ} {m m' : Thread σ ι α}
    (h : p.set i k m j = some (k', m')) :
    (j = i ∧ k' = k ∧ m' = m) ∨ (j ≠ i ∧ p.threads j = some (k', m')) := by
  rcases eq_or_ne j i with rfl | hne
  · rw [set, Function.update_self] at h
    cases h
    exact .inl ⟨rfl, rfl, rfl⟩
  · rw [set, Function.update_of_ne hne] at h
    exact .inr ⟨hne, h⟩

/-- A thread that was not called is none that changes. -/
theorem set_none {p : Pool σ ι κ α} {i j : ℕ} {k : κ} {m : Thread σ ι α}
    (h : p.set i k m j = none) : j ≠ i ∧ p.threads j = none := by
  rcases eq_or_ne j i with rfl | hne
  · rw [set, Function.update_self] at h
    cases h
  · rw [set, Function.update_of_ne hne] at h
    exact ⟨hne, h⟩

/-- The pool after a move, if the move can be made. -/
def next (program : ℕ → κ → Thread σ ι α) (p : Pool σ ι κ α) : Move κ ι → Option (Pool σ ι κ α)
  | .call i k =>
      match p.threads i with
      | none => some { p with threads := p.set i k (program i k) }
      | some _ => none
  | .step i c =>
      match p.threads i with
      | some (k, .act op rest) =>
          (op c p.shared).map fun r => { shared := r.2, threads := p.set i k (rest r.1) }
      | _ => none

variable {program : ℕ → κ → Thread σ ι α} {p p' : Pool σ ι κ α}

/-- What a call does to the pool. -/
theorem next_call {i : ℕ} {k : κ} (h : p.next program (.call i k) = some p') :
    p.threads i = none ∧ p' = { p with threads := p.set i k (program i k) } := by
  simp only [next] at h
  cases hi : p.threads i with
  | none =>
      rw [hi] at h
      exact ⟨rfl, (Option.some.inj h).symm⟩
  | some t => rw [hi] at h; cases h

/-- What a statement does to the pool. -/
theorem next_step {i : ℕ} {c : ι} (h : p.next program (.step i c) = some p') :
    ∃ (k : κ) (β : Type) (op : ι → σ → Option (β × σ)) (rest : β → Thread σ ι α) (b : β) (s : σ),
      p.threads i = some (k, .act op rest) ∧ op c p.shared = some (b, s) ∧
      p' = { shared := s, threads := p.set i k (rest b) } := by
  simp only [next] at h
  cases hi : p.threads i with
  | none => rw [hi] at h; cases h
  | some t =>
      obtain ⟨k, m⟩ := t
      rw [hi] at h
      cases m with
      | done a => cases h
      | act op rest =>
          obtain ⟨⟨b, s⟩, hop, hp⟩ := Option.map_eq_some_iff.mp h
          exact ⟨k, _, op, rest, b, s, rfl, hop, hp.symm⟩

/-- A move that cannot be made changes nothing. -/
def step (program : ℕ → κ → Thread σ ι α) (p : Pool σ ι κ α) (move : Move κ ι) : Pool σ ι κ α :=
  (p.next program move).getD p

/-- The pool after a list of moves. -/
def after (program : ℕ → κ → Thread σ ι α) (p : Pool σ ι κ α) (moves : List (Move κ ι)) :
    Pool σ ι κ α :=
  moves.foldl (step program) p

theorem after_append (moves moves' : List (Move κ ι)) :
    p.after program (moves ++ moves') = (p.after program moves).after program moves' :=
  List.foldl_append

/-- A thread goes on with the call that it executes. -/
theorem step_call (program : ℕ → κ → Thread σ ι α) (move : Move κ ι) {i : ℕ} {k : κ}
    {m : Thread σ ι α} (h : p.threads i = some (k, m)) :
    ∃ m', (p.step program move).threads i = some (k, m') := by
  rw [step]
  cases hnext : p.next program move with
  | none => exact ⟨m, h⟩
  | some p' =>
      cases move with
      | call j k' =>
          obtain ⟨hfree, rfl⟩ := next_call hnext
          have hne : i ≠ j := by
            rintro rfl
            rw [hfree] at h
            cases h
          exact ⟨m, (Function.update_of_ne hne _ _).trans h⟩
      | step j c =>
          obtain ⟨k', β, op, rest, b, s, hthread, hop, rfl⟩ := next_step hnext
          rcases eq_or_ne i j with rfl | hne
          · rw [h] at hthread
            cases hthread
            exact ⟨rest b, Function.update_self ..⟩
          · exact ⟨m, (Function.update_of_ne hne _ _).trans h⟩

theorem after_snoc (moves : List (Move κ ι)) (move : Move κ ι) :
    p.after program (moves ++ [move]) = (p.after program moves).step program move :=
  after_append moves [move]

/-- `C` holds of the state before every move of a run. -/
def Along (program : ℕ → κ → Thread σ ι α) (C : σ → Prop) (p : Pool σ ι κ α)
    (moves : List (Move κ ι)) : Prop :=
  ∀ before move after, moves = before ++ move :: after → C (p.after program before).shared

/-- What every move keeps from a state with `C`, every run keeps along which `C` holds. -/
theorem Along.invariant {C : σ → Prop} {moves : List (Move κ ι)} (h : Along program C p moves)
    (I : σ → Prop) (hstart : I p.shared)
    (hstep : ∀ before move, C (p.after program before).shared →
      I (p.after program before).shared →
      I ((p.after program before).step program move).shared) :
    I (p.after program moves).shared := by
  induction moves using List.reverseRecOn with
  | nil => exact hstart
  | append_singleton moves move ih =>
      rw [after_snoc]
      have hbefore : Along program C p moves := fun before last after heq =>
        h before last (after ++ [move]) (by rw [heq, List.append_assoc, List.cons_append])
      exact hstep moves move (h moves move [] rfl) (ih hbefore)

/-- Thread `i` has returned `a` from the call `k`. -/
def Returned (p : Pool σ ι κ α) (i : ℕ) (k : κ) (a : α) : Prop := p.threads i = some (k, .done a)

end Pool

/-! ## Logs

A state may hold a log of what the threads did. -/

namespace ThreadLog

variable {ε : Type}

/-- What thread `i` did. -/
def own (i : ℕ) (log : List (ℕ × ε)) : List (ℕ × ε) := log.filter fun entry => entry.1 = i

@[simp] theorem own_append (i : ℕ) (log log' : List (ℕ × ε)) :
    own i (log ++ log') = own i log ++ own i log' := List.filter_append ..

@[simp] theorem own_self (i : ℕ) (effect : ε) : own i [(i, effect)] = [(i, effect)] := by
  simp [own]

theorem mem_own {i : ℕ} {effect : ε} {log : List (ℕ × ε)} (h : (i, effect) ∈ log) :
    (i, effect) ∈ own i log := by
  simp [own, h]

end ThreadLog

/-! ## Statements one by one -/

namespace Thread

variable {σ ι ε α β : Type}

/-- Every statement of the thread moves the state along `P`. -/
def Each (P : σ → σ → Prop) : Thread σ ι α → Prop
  | .done _ => True
  | .act op next => (∀ c s b t, op c s = some (b, t) → P s t) ∧ ∀ b, (next b).Each P

variable {P : σ → σ → Prop}

theorem each_pure (a : α) : (Pure.pure a : Thread σ ι α).Each P := trivial

theorem each_any (m : Thread σ ι α) : m.Each fun _ _ => True := by
  induction m with
  | done a => trivial
  | act op next ih => exact ⟨fun _ _ _ _ _ => trivial, ih⟩

theorem Each.mono {P' : σ → σ → Prop} {m : Thread σ ι α} (h : m.Each P)
    (himp : ∀ s t, P s t → P' s t) : m.Each P' := by
  induction m with
  | done a => trivial
  | act op next ih => exact ⟨fun c s b t hop => himp s t (h.1 c s b t hop), fun b => ih b (h.2 b)⟩

theorem each_atomic {op : ι → σ → Option (α × σ)} (h : ∀ c s b t, op c s = some (b, t) → P s t) :
    (atomic op).Each P := ⟨h, fun _ => trivial⟩

theorem each_modify {f : σ → α × σ} (h : ∀ s, P s (f s).2) :
    (modify f : Thread σ ι α).Each P := by
  refine each_atomic fun c s b t hop => ?_
  have heq : f s = (b, t) := Option.some.inj hop
  have hstep := h s
  rw [heq] at hstep
  exact hstep

theorem each_bind {m : Thread σ ι α} {k : α → Thread σ ι β} (hm : m.Each P)
    (hk : ∀ a, (k a).Each P) : (m >>= k).Each P := by
  induction m with
  | done a => exact hk a
  | act op next ih => exact ⟨hm.1, fun b => ih b (hm.2 b)⟩

theorem each_zoom {τ ι' : Type} {get : τ → σ} {put : τ → σ → τ} {pick : ι' → ι}
    {R : τ → τ → Prop} {m : Thread σ ι α} (hm : m.Each P)
    (h : ∀ s t, P (get s) t → R s (put s t)) : (zoom get put pick m).Each R := by
  induction m with
  | done a => trivial
  | act op next ih =>
      refine ⟨fun c s b t hop => ?_, fun b => ih b (hm.2 b)⟩
      obtain ⟨⟨b', t'⟩, hop', heq⟩ := Option.map_eq_some_iff.mp hop
      cases heq
      exact h s t' (hm.1 _ _ _ _ hop')

theorem each_run_pure (a : α) : (Pure.pure a : ExceptT ε (Thread σ ι) α).run.Each P := trivial

theorem each_run_throw (e : ε) :
    (MonadExcept.throw e : ExceptT ε (Thread σ ι) α).run.Each P := trivial

theorem each_attempt {op : ι → σ → Option (Except ε α × σ)}
    (h : ∀ c s r t, op c s = some (r, t) → P s t) : (attempt op).run.Each P := each_atomic h

theorem each_run_bind {m : ExceptT ε (Thread σ ι) α} {k : α → ExceptT ε (Thread σ ι) β}
    (hm : m.run.Each P) (hk : ∀ a, (k a).run.Each P) : (m >>= k).run.Each P := by
  refine each_bind hm fun r => ?_
  cases r with
  | ok a => exact hk a
  | error e => trivial

end Thread

namespace Pool

variable {σ ι κ α : Type} {program : ℕ → κ → Thread σ ι α} {p : Pool σ ι κ α}
  {P : ℕ → κ → σ → σ → Prop}

/-- Every thread of the pool executes what is left of statements along `P`. -/
def Each (P : ℕ → κ → σ → σ → Prop) (p : Pool σ ι κ α) : Prop :=
  ∀ i k m, p.threads i = some (k, m) → m.Each (P i k)

/-- A step of the pool is no step of the state, or a statement of one thread. -/
theorem each_step (hprogram : ∀ i k, (program i k).Each (P i k)) (hp : p.Each P)
    (move : Move κ ι) :
    (p.step program move).Each P ∧
      ((p.step program move).shared = p.shared ∨
        ∃ i k m c, move = .step i c ∧ p.threads i = some (k, m) ∧
          P i k p.shared (p.step program move).shared) := by
  rw [step]
  cases h : p.next program move with
  | none => exact ⟨hp, .inl rfl⟩
  | some p' =>
      cases move with
      | call i k =>
          obtain ⟨-, rfl⟩ := next_call h
          refine ⟨fun j k' m hm => ?_, .inl rfl⟩
          rcases set_some hm with ⟨rfl, rfl, rfl⟩ | ⟨-, hm⟩
          · exact hprogram j k'
          · exact hp j k' m hm
      | step i c =>
          obtain ⟨k, β, op, rest, b, s, hthread, hop, rfl⟩ := next_step h
          obtain ⟨hstep, hrest⟩ := hp i k _ hthread
          refine ⟨fun j k' m hm => ?_, .inr ⟨i, k, _, c, rfl, hthread, hstep c _ b s hop⟩⟩
          rcases set_some hm with ⟨rfl, rfl, rfl⟩ | ⟨-, hm⟩
          · exact hrest b
          · exact hp j k' m hm

theorem each_start (s : σ) : (start s : Pool σ ι κ α).Each P := by
  intro i k m hm
  cases hm

theorem each_after (hprogram : ∀ i k, (program i k).Each (P i k)) (hp : p.Each P)
    (moves : List (Move κ ι)) : (p.after program moves).Each P := by
  induction moves generalizing p with
  | nil => exact hp
  | cons move moves ih => exact ih (each_step hprogram hp move).1

end Pool

/-! ## Disciplines -/

/-- How the threads of a pool may move the state. -/
structure Discipline (σ : Type) where
  /-- The states a step may leave behind. -/
  valid : σ → Prop
  /-- What every step does to the state. -/
  grows : σ → σ → Prop
  /-- What a thread finds between two of its statements. -/
  rely : ℕ → σ → σ → Prop
  /-- What holds until a thread is called. -/
  fresh : ℕ → σ → Prop
  grows_refl : ∀ s, grows s s
  grows_trans : ∀ {s t u}, grows s t → grows t u → grows s u
  rely_refl : ∀ i s, rely i s s
  rely_trans : ∀ {i s t u}, rely i s t → rely i t u → rely i s u
  fresh_rely : ∀ {i s t}, rely i s t → fresh i s → fresh i t

namespace Discipline

variable {σ : Type}

/-- A step that thread `i` may make. -/
structure Allows (D : Discipline σ) (i : ℕ) (s t : σ) : Prop where
  valid : D.valid t
  grows : D.grows s t
  others : ∀ j, j ≠ i → D.rely j s t

/-- A statement that only reads is allowed. -/
theorem Allows.refl {D : Discipline σ} {i : ℕ} {s : σ} (h : D.valid s) : D.Allows i s s :=
  ⟨h, D.grows_refl s, fun j _ => D.rely_refl j s⟩

end Discipline

namespace Thread

variable {σ ι ε α β : Type}

/-- Thread `i`, started in `s`, keeps the discipline and returns with `Q`. -/
def Keeps (D : Discipline σ) (i : ℕ) : Thread σ ι α → (α → σ → Prop) → σ → Prop
  | .done a, Q, s => Q a s
  | .act op next, Q, s => ∀ t, D.valid t → D.rely i s t → ∀ c b u, op c t = some (b, u) →
      D.Allows i t u ∧ (next b).Keeps D i Q u

variable {D : Discipline σ} {i : ℕ} {s t : σ}

theorem keeps_pure {a : α} {Q : α → σ → Prop} (h : Q a s) :
    (Pure.pure a : Thread σ ι α).Keeps D i Q s := h

theorem keeps_atomic {op : ι → σ → Option (α × σ)} {Q : α → σ → Prop}
    (h : ∀ t, D.valid t → D.rely i s t → ∀ c a u, op c t = some (a, u) →
      D.Allows i t u ∧ Q a u) : (atomic op).Keeps D i Q s := h

theorem keeps_modify {f : σ → α × σ} {Q : α → σ → Prop}
    (h : ∀ t, D.valid t → D.rely i s t → D.Allows i t (f t).2 ∧ Q (f t).1 (f t).2) :
    (modify f : Thread σ ι α).Keeps D i Q s := by
  intro t hvalid hrely c b u hop
  have heq : f t = (b, u) := Option.some.inj hop
  have hstep := h t hvalid hrely
  rw [heq] at hstep
  exact hstep

/-- The second part starts where the first one ended. -/
theorem keeps_bind {m : Thread σ ι α} {k : α → Thread σ ι β} {Q : β → σ → Prop}
    (h : m.Keeps D i (fun a u => (k a).Keeps D i Q u) s) : (m >>= k).Keeps D i Q s := by
  induction m generalizing s with
  | done a => exact h
  | act op next ih =>
      intro t hvalid hrely c b u hop
      obtain ⟨hallows, hnext⟩ := h t hvalid hrely c b u hop
      exact ⟨hallows, ih b hnext⟩

/-- A weaker postcondition. -/
theorem Keeps.weaken {m : Thread σ ι α} {Q Q' : α → σ → Prop} (h : m.Keeps D i Q s)
    (himp : ∀ a u, Q a u → Q' a u) : m.Keeps D i Q' s := by
  induction m generalizing s with
  | done a => exact himp a s h
  | act op next ih =>
      intro t hvalid hrely c b u hop
      obtain ⟨hallows, hnext⟩ := h t hvalid hrely c b u hop
      exact ⟨hallows, ih b hnext⟩

/-- What all steps leave true stays true. -/
theorem Keeps.frame {m : Thread σ ι α} {Q : α → σ → Prop} {R : σ → Prop} (h : m.Keeps D i Q s)
    (hrely : ∀ t u, D.rely i t u → R t → R u) (hgrows : ∀ t u, D.grows t u → R t → R u) (hR : R s) :
    m.Keeps D i (fun a u => Q a u ∧ R u) s := by
  induction m generalizing s with
  | done a => exact ⟨h, hR⟩
  | act op next ih =>
      intro t hvalid hmove c b u hop
      obtain ⟨hallows, hnext⟩ := h t hvalid hmove c b u hop
      exact ⟨hallows, ih b hnext (hgrows t u hallows.grows (hrely s t hmove hR))⟩

/-- The others may move before the thread does. -/
theorem Keeps.of_rely {m : Thread σ ι α} {Q : α → σ → Prop} (h : m.Keeps D i Q s)
    (hrely : D.rely i s t) (hQ : ∀ a, Q a s → Q a t) : m.Keeps D i Q t := by
  cases m with
  | done a => exact hQ a h
  | act op next =>
      exact fun u hvalid hmove => h u hvalid (D.rely_trans hrely hmove)

/-- A thread whose statements move along `P` keeps every discipline that allows `P`. -/
theorem Each.keeps {P : σ → σ → Prop} {m : Thread σ ι α} (h : m.Each P)
    (hallows : ∀ s t, D.valid s → P s t → D.Allows i s t) : m.Keeps D i (fun _ _ => True) s := by
  induction m generalizing s with
  | done a => trivial
  | act op next ih =>
      intro t hvalid _ c b u hop
      exact ⟨hallows t u hvalid (h.1 c t b u hop), ih b (h.2 b)⟩

/-- The same, with a property that the thread relies on and that its own statements keep. -/
theorem Each.keeps_inv {P : σ → σ → Prop} {R : σ → Prop} {m : Thread σ ι α} (h : m.Each P)
    (hallows : ∀ s t, D.valid s → P s t → D.Allows i s t)
    (hrely : ∀ s t, D.rely i s t → R s → R t) (hown : ∀ s t, D.valid s → P s t → R s → R t)
    (hR : R s) : m.Keeps D i (fun _ u => R u) s := by
  induction m generalizing s with
  | done a => exact hR
  | act op next ih =>
      intro t hvalid hmove c b u hop
      have hstep : P t u := h.1 c t b u hop
      exact ⟨hallows t u hvalid hstep, ih b (h.2 b) (hown t u hvalid hstep (hrely s t hmove hR))⟩

/-! ### Fallible threads -/

theorem keeps_run_pure {a : α} {Q : Except ε α → σ → Prop} (h : Q (.ok a) s) :
    (Pure.pure a : ExceptT ε (Thread σ ι) α).run.Keeps D i Q s := h

theorem keeps_run_throw {e : ε} {Q : Except ε α → σ → Prop} (h : Q (.error e) s) :
    (MonadExcept.throw e : ExceptT ε (Thread σ ι) α).run.Keeps D i Q s := h

/-- The result of a fallible program, which then does not fail. -/
def outcome (m : ExceptT ε (Thread σ ι) α) : ExceptT ε (Thread σ ι) (Except ε α) :=
  ExceptT.mk (m.run >>= fun r => pure (.ok r))

/-- A result that is known already. -/
def result (r : Except ε α) : ExceptT ε (Thread σ ι) α := ExceptT.mk (pure r)

theorem keeps_outcome {m : ExceptT ε (Thread σ ι) α} {Q : Except ε (Except ε α) → σ → Prop}
    (h : m.run.Keeps D i (fun r u => Q (.ok r) u) s) : (outcome m).run.Keeps D i Q s :=
  keeps_bind h

theorem keeps_result {r : Except ε α} {Q : Except ε α → σ → Prop} (h : Q r s) :
    (result r : ExceptT ε (Thread σ ι) α).run.Keeps D i Q s := h

theorem keeps_attempt {op : ι → σ → Option (Except ε α × σ)} {Q : Except ε α → σ → Prop}
    (h : ∀ t, D.valid t → D.rely i s t → ∀ c r u, op c t = some (r, u) →
      D.Allows i t u ∧ Q r u) : (attempt op).run.Keeps D i Q s := h

/-- A failure of the first part is a failure of both. -/
theorem keeps_run_bind {m : ExceptT ε (Thread σ ι) α} {k : α → ExceptT ε (Thread σ ι) β}
    {Q : Except ε β → σ → Prop}
    (h : m.run.Keeps D i (fun r u =>
      match r with
      | .ok a => (k a).run.Keeps D i Q u
      | .error e => Q (.error e) u) s) : (m >>= k).run.Keeps D i Q s := by
  refine keeps_bind (Keeps.weaken h ?_)
  intro r u hr
  cases r with
  | ok a => exact hr
  | error e => exact hr

end Thread

/-! ## Pools of threads that keep a discipline -/

namespace Discipline

variable {σ ι κ α : Type} {program : ℕ → κ → Thread σ ι α} {Q : ℕ → κ → α → σ → Prop}

/-- Every thread of the pool keeps the discipline from now on. -/
structure Keeps (D : Discipline σ) (Q : ℕ → κ → α → σ → Prop) (p : Pool σ ι κ α) : Prop where
  valid : D.valid p.shared
  fresh : ∀ i, p.threads i = none → D.fresh i p.shared
  threads : ∀ i k m, p.threads i = some (k, m) → m.Keeps D i (Q i k) p.shared

variable {D : Discipline σ} {p p' : Pool σ ι κ α}

theorem keeps_start {s : σ} (h : D.valid s) (hfresh : ∀ i, D.fresh i s) :
    D.Keeps Q (Pool.start s : Pool σ ι κ α) where
  valid := h
  fresh i _ := hfresh i
  threads := by
    intro i k m hm
    cases hm

/-- The thread that moves keeps the discipline by its own proof, the others because they
rely on the step. -/
theorem keeps_next {move : Pool.Move κ ι}
    (hprogram : ∀ i k s, move = .call i k → D.valid s → D.fresh i s →
      (program i k).Keeps D i (Q i k) s)
    (hstable : ∀ i k a s t, D.valid s → D.valid t → D.rely i s t → Q i k a s → Q i k a t)
    (h : p.next program move = some p') (hp : D.Keeps Q p) :
    D.Keeps Q p' ∧ D.grows p.shared p'.shared := by
  cases move with
  | call i k =>
      obtain ⟨hfree, rfl⟩ := Pool.next_call h
      refine ⟨⟨hp.valid, fun j hj => ?_, ?_⟩, D.grows_refl _⟩
      · exact hp.fresh j (Pool.set_none hj).2
      intro j k' m hm
      rcases Pool.set_some hm with ⟨rfl, rfl, rfl⟩ | ⟨-, hm⟩
      · exact hprogram j k' _ rfl hp.valid (hp.fresh j hfree)
      · exact hp.threads j k' m hm
  | step i c =>
      obtain ⟨k, β, op, rest, b, s, hthread, hop, rfl⟩ := Pool.next_step h
      obtain ⟨hallows, hrest⟩ :=
        hp.threads i k _ hthread p.shared hp.valid (D.rely_refl i _) c b s hop
      refine ⟨⟨hallows.valid, fun j hj => ?_, ?_⟩, hallows.grows⟩
      · obtain ⟨hne, hj⟩ := Pool.set_none hj
        exact D.fresh_rely (hallows.others j hne) (hp.fresh j hj)
      intro j k' m hm
      rcases Pool.set_some hm with ⟨rfl, rfl, rfl⟩ | ⟨hne, hm⟩
      · exact hrest
      · have hrely : D.rely j p.shared s := hallows.others j hne
        exact (hp.threads j k' m hm).of_rely hrely fun a =>
          hstable j k' a _ _ hp.valid hallows.valid hrely

theorem keeps_step {move : Pool.Move κ ι}
    (hprogram : ∀ i k s, move = .call i k → D.valid s → D.fresh i s →
      (program i k).Keeps D i (Q i k) s)
    (hstable : ∀ i k a s t, D.valid s → D.valid t → D.rely i s t → Q i k a s → Q i k a t)
    (hp : D.Keeps Q p) :
    D.Keeps Q (p.step program move) ∧ D.grows p.shared (p.step program move).shared := by
  rw [Pool.step]
  cases h : p.next program move with
  | none => exact ⟨hp, D.grows_refl _⟩
  | some p' => exact keeps_next hprogram hstable h hp

/-- Every run keeps the discipline when the programs of its calls do. -/
theorem run_keeps_of {moves : List (Pool.Move κ ι)}
    (hprogram : ∀ i k s, .call i k ∈ moves → D.valid s → D.fresh i s →
      (program i k).Keeps D i (Q i k) s)
    (hstable : ∀ i k a s t, D.valid s → D.valid t → D.rely i s t → Q i k a s → Q i k a t)
    (hp : D.Keeps Q p) :
    D.Keeps Q (p.after program moves) ∧ D.grows p.shared (p.after program moves).shared := by
  induction moves generalizing p with
  | nil => exact ⟨hp, D.grows_refl _⟩
  | cons move moves ih =>
      obtain ⟨hkeeps, hgrows⟩ := keeps_step
        (fun i k s hcall => hprogram i k s (hcall ▸ List.mem_cons_self)) hstable hp
      obtain ⟨hkeeps', hgrows'⟩ := ih (fun i k s hcall => hprogram i k s (.tail _ hcall)) hkeeps
      exact ⟨hkeeps', D.grows_trans hgrows hgrows'⟩

/-- Every run of the pool keeps the discipline. -/
theorem run_keeps (hprogram : ∀ i k s, D.valid s → D.fresh i s → (program i k).Keeps D i (Q i k) s)
    (hstable : ∀ i k a s t, D.valid s → D.valid t → D.rely i s t → Q i k a s → Q i k a t)
    (moves : List (Pool.Move κ ι)) (hp : D.Keeps Q p) :
    D.Keeps Q (p.after program moves) ∧ D.grows p.shared (p.after program moves).shared :=
  run_keeps_of (fun i k s _ => hprogram i k s) hstable hp

/-- The surroundings of the pool move the state as every thread relies on. -/
theorem Keeps.surroundings {s : σ} (hp : D.Keeps Q p) (hvalid : D.valid s)
    (hrely : ∀ i, D.rely i p.shared s)
    (hstable : ∀ i k a s t, D.valid s → D.valid t → D.rely i s t → Q i k a s → Q i k a t) :
    D.Keeps Q { p with shared := s } where
  valid := hvalid
  fresh i hi := D.fresh_rely (hrely i) (hp.fresh i hi)
  threads i k m hm := (hp.threads i k m hm).of_rely (hrely i) fun a =>
    hstable i k a _ _ hp.valid hvalid (hrely i)

/-- `D'` knows more about the states than `D`, and every step keeps what it knows. -/
structure Refines (D' D : Discipline σ) : Prop where
  valid : ∀ s, D'.valid s → D.valid s
  rely : ∀ i s t, D'.rely i s t → D.rely i s t
  allows : ∀ i s t, D'.valid s → D.Allows i s t → D'.Allows i s t

/-- A thread that keeps a discipline keeps every refinement of it. -/
theorem Refines.keeps {D' : Discipline σ} (h : D'.Refines D) {i : ℕ} {m : Thread σ ι α}
    {R : α → σ → Prop} {s : σ} (hm : m.Keeps D i R s) : m.Keeps D' i R s := by
  induction m generalizing s with
  | done a => exact hm
  | act op next ih =>
      intro t hvalid hrely c b u hop
      obtain ⟨hallows, hnext⟩ := hm t (h.valid t hvalid) (h.rely i s t hrely) c b u hop
      exact ⟨h.allows i t u hvalid hallows, ih b hnext⟩

/-- A run goes on under a refinement that holds by now, with other postconditions for the
calls made from now on. -/
theorem Keeps.refine {D' : Discipline σ} (h : D'.Refines D) {Q' : ℕ → κ → α → σ → Prop}
    (hp : D.Keeps Q p) (hs : D'.valid p.shared)
    (hfresh : ∀ i, D.fresh i p.shared → D'.fresh i p.shared)
    (hQ : ∀ i k a s, p.threads i ≠ none → Q i k a s → Q' i k a s) : D'.Keeps Q' p where
  valid := hs
  fresh i hi := hfresh i (hp.fresh i hi)
  threads i k m hm :=
    h.keeps ((hp.threads i k m hm).weaken fun a u =>
      hQ i k a u (by rw [hm]; exact Option.some_ne_none _))

end Discipline
