import Mathlib.Logic.Relation

/-!
# Programs of fallible statements

A `Prog σ ε α` is a program over a shared state `σ`: a tree of *statements*, each of
which reads and updates the state or fails with an error, and each followed by what
the program does with its result.  Programs are written in `do` notation.

The same program has three meanings.

* `Prog.eval` runs it alone and without outside failures.
* `Prog.exec` runs it alone under a *failure schedule*: the schedule may make any
  statement fail before it takes effect, whatever the statement would have done.
* `Prog.Interleaved R` runs it among other parties: between any two statements the
  state may move along the relation `R` any number of times.

`Prog.exec_ok` says that a program that succeeds under a failure schedule computes
what it computes alone.  So a program whose failure undoes its effects needs to be
understood through `Prog.eval` only.
-/

/-- A program of statements over `σ` that fails with `ε` or returns `α`. -/
inductive Prog (σ ε α : Type) : Type 1
  /-- Return a value. -/
  | pure (a : α)
  /-- Fail. -/
  | throw (e : ε)
  /-- Execute one statement and go on with its result. -/
  | stmt {β : Type} (op : σ → Except ε (β × σ)) (next : β → Prog σ ε α)

namespace Prog

variable {σ ε α β γ : Type}

/-- Run `m`, then what `k` makes of its result. -/
def bind : Prog σ ε α → (α → Prog σ ε β) → Prog σ ε β
  | .pure a, k => k a
  | .throw e, _ => .throw e
  | .stmt op next, k => .stmt op fun b => bind (next b) k

instance : Monad (Prog σ ε) where
  pure := .pure
  bind := Prog.bind

instance : MonadExceptOf ε (Prog σ ε) where
  throw := .throw
  tryCatch m _ := m

/-- A result that is known already. -/
def ofExcept : Except ε α → Prog σ ε α
  | .ok a => .pure a
  | .error e => .throw e

/-- One statement. -/
def action (op : σ → Except ε (α × σ)) : Prog σ ε α := .stmt op .pure

/-- A statement that updates the state. -/
def update (f : σ → Except ε σ) : Prog σ ε Unit :=
  .stmt (fun s => (f s).map fun s' => ((), s')) .pure

/-- A statement that reads the state. -/
def query (f : σ → Except ε α) : Prog σ ε α :=
  .stmt (fun s => (f s).map fun a => (a, s)) .pure

/-- The program with its result as a value: it does not fail. -/
def attempt : Prog σ ε α → Prog σ ε (Except ε α)
  | .pure a => .pure (.ok a)
  | .throw e => .pure (.error e)
  | .stmt (β := β) op next =>
      .stmt (β := Except ε β)
        (fun s =>
          match op s with
          | .ok (b, s') => .ok (.ok b, s')
          | .error e => .ok (.error e, s))
        fun
          | .ok b => attempt (next b)
          | .error e => .pure (.error e)

/-! ## The program alone -/

/-- The result of the program alone, with no outside failure. -/
def eval : Prog σ ε α → σ → Except ε (α × σ)
  | .pure a, s => .ok (a, s)
  | .throw e, _ => .error e
  | .stmt op next, s =>
      match op s with
      | .ok (b, s') => (next b).eval s'
      | .error e => .error e

@[simp] theorem eval_pure (a : α) (s : σ) : (Pure.pure a : Prog σ ε α).eval s = .ok (a, s) := rfl

@[simp] theorem eval_throw (e : ε) (s : σ) :
    (MonadExcept.throw e : Prog σ ε α).eval s = .error e := rfl

@[simp] theorem eval_update (f : σ → Except ε σ) (s : σ) :
    (update f : Prog σ ε Unit).eval s = (f s).map fun s' => ((), s') := by
  simp only [update, eval]
  cases f s <;> rfl

@[simp] theorem eval_query (f : σ → Except ε α) (s : σ) :
    (query f : Prog σ ε α).eval s = (f s).map fun a => (a, s) := by
  simp only [query, eval]
  cases f s <;> rfl

theorem eval_bind' (m : Prog σ ε α) (k : α → Prog σ ε β) (s : σ) :
    (m.bind k).eval s =
      match m.eval s with
      | .ok (a, s') => (k a).eval s'
      | .error e => .error e := by
  induction m generalizing s with
  | pure a => rfl
  | throw e => rfl
  | stmt op next ih =>
      simp only [bind, eval]
      cases op s with
      | error e => rfl
      | ok p => exact ih p.1 p.2

@[simp] theorem eval_bind (m : Prog σ ε α) (k : α → Prog σ ε β) (s : σ) :
    (m >>= k).eval s =
      match m.eval s with
      | .ok (a, s') => (k a).eval s'
      | .error e => .error e :=
  eval_bind' m k s

/-- A sequence succeeds through a result of its first part. -/
theorem eval_bind_ok {m : Prog σ ε α} {k : α → Prog σ ε β} {s : σ} {r : β × σ} :
    (m >>= k).eval s = .ok r ↔ ∃ a s', m.eval s = .ok (a, s') ∧ (k a).eval s' = .ok r := by
  rw [eval_bind]
  cases m.eval s with
  | error e => simp
  | ok p =>
      constructor
      · exact fun h => ⟨p.1, p.2, rfl, h⟩
      · rintro ⟨a, s', hp, h⟩
        cases hp
        exact h

theorem eval_update_ok {f : σ → Except ε σ} {s : σ} {r : Unit × σ} :
    (update f : Prog σ ε Unit).eval s = .ok r ↔ f s = .ok r.2 := by
  rw [eval_update]
  cases f s with
  | error e => simp [Except.map]
  | ok s' => cases r; simp [Except.map]

/-! ## The program under a failure schedule -/

/-- Run under a failure schedule: an entry `some e` makes its statement fail with `e`.
Statements past the end of the schedule are not disturbed.  The state is returned also
on failure, as the statements before the failed one left it. -/
def exec : Prog σ ε α → List (Option ε) → σ → Except ε α × σ
  | .pure a, _, s => (.ok a, s)
  | .throw e, _, s => (.error e, s)
  | .stmt op next, faults, s =>
      match faults.head?.join with
      | some e => (.error e, s)
      | none =>
          match op s with
          | .ok (b, s') => (next b).exec faults.tail s'
          | .error e => (.error e, s)

/-- A program that succeeds under a failure schedule computes what it computes alone. -/
theorem exec_ok {m : Prog σ ε α} {faults : List (Option ε)} {s s' : σ} {a : α}
    (h : m.exec faults s = (.ok a, s')) : m.eval s = .ok (a, s') := by
  induction m generalizing faults s with
  | pure b => simp only [exec, Prod.mk.injEq, Except.ok.injEq] at h; simp [eval, h.1, h.2]
  | throw e => simp [exec] at h
  | stmt op next ih =>
      simp only [exec] at h
      split at h
      · simp at h
      · rw [eval]
        split at h
        next b u hop => exact ih b h
        next e hop => simp at h

/-- With no failure left in the schedule the program runs as it does alone. -/
theorem exec_nil (m : Prog σ ε α) (s : σ) :
    (m.exec [] s).1 = (m.eval s).map Prod.fst ∧
      ∀ a s', m.eval s = .ok (a, s') → m.exec [] s = (.ok a, s') := by
  induction m generalizing s with
  | pure a => simp [exec, eval, Except.map]
  | throw e => simp [exec, eval, Except.map]
  | stmt op next ih =>
      simp only [exec, eval, List.head?_nil, Option.join_none, List.tail_nil]
      cases hop : op s with
      | error e => simp [Except.map]
      | ok p => exact ih p.1 p.2

theorem exec_query (f : σ → Except ε α) (s : σ) :
    (query f : Prog σ ε α).exec [] s = (f s, s) := by
  simp only [query, exec, List.head?_nil, Option.join_none]
  cases f s <;> rfl

/-- Without a failure schedule, a sequence executes its parts one after the other. -/
theorem exec_bind (m : Prog σ ε α) (k : α → Prog σ ε β) (s : σ) :
    (m >>= k).exec [] s =
      match m.exec [] s with
      | (.ok a, s') => (k a).exec [] s'
      | (.error e, s') => (.error e, s') := by
  induction m generalizing s with
  | pure a => rfl
  | throw e => rfl
  | stmt op next ih =>
      show (Prog.stmt op fun b => (next b).bind k).exec [] s = _
      simp only [exec, List.head?_nil, Option.join_none, List.tail_nil]
      cases op s with
      | error e => rfl
      | ok p => exact ih p.1 p.2

theorem exec_attempt (m : Prog σ ε α) (s : σ) :
    m.attempt.exec [] s = (.ok (m.exec [] s).1, (m.exec [] s).2) := by
  induction m generalizing s with
  | pure a => rfl
  | throw e => rfl
  | stmt op next ih =>
      simp only [attempt, exec, List.head?_nil, Option.join_none, List.tail_nil]
      cases op s with
      | error e => rfl
      | ok p => exact ih p.1 p.2

/-! ## The program among other parties -/

/-- `m.Interleaved R s r s'`: started in `s`, the program can end in `s'` with the result
`r`, when other parties move the state along `R` before each of its statements and after
the last one. -/
inductive Interleaved (R : σ → σ → Prop) : Prog σ ε α → σ → Except ε α → σ → Prop
  | pure {a : α} {s s' : σ} : Relation.ReflTransGen R s s' →
      Interleaved R (.pure a) s (.ok a) s'
  | throw {e : ε} {s s' : σ} : Relation.ReflTransGen R s s' →
      Interleaved R (.throw e) s (.error e) s'
  | stmt {β : Type} {op : σ → Except ε (β × σ)} {next : β → Prog σ ε α} {s t u s' : σ} {b : β}
      {r : Except ε α} : Relation.ReflTransGen R s t → op t = .ok (b, u) →
      Interleaved R (next b) u r s' → Interleaved R (.stmt op next) s r s'
  | fail {β : Type} {op : σ → Except ε (β × σ)} {next : β → Prog σ ε α} {s t s' : σ} {e : ε} :
      Relation.ReflTransGen R s t → op t = .error e → Relation.ReflTransGen R t s' →
      Interleaved R (.stmt op next) s (.error e) s'

/-- A sequence ends as its first part failed, or as its second part did after it. -/
theorem Interleaved.of_bind {R : σ → σ → Prop} {m : Prog σ ε α} {k : α → Prog σ ε β} {s s' : σ}
    {r : Except ε β} (h : (m.bind k).Interleaved R s r s') :
    (∃ a u, m.Interleaved R s (.ok a) u ∧ (k a).Interleaved R u r s') ∨
      ∃ e, r = .error e ∧ m.Interleaved R s (.error e) s' := by
  induction m generalizing s with
  | pure a => exact .inl ⟨a, s, .pure .refl, h⟩
  | throw e =>
      cases h with
      | throw hmove => exact .inr ⟨e, rfl, .throw hmove⟩
  | stmt op next ih =>
      cases h with
      | stmt hmove hop hrest =>
          rcases ih _ hrest with ⟨a, u, hm, hk⟩ | ⟨e, he, hm⟩
          · exact .inl ⟨a, u, .stmt hmove hop hm, hk⟩
          · exact .inr ⟨e, he, .stmt hmove hop hm⟩
      | fail hmove hop hmove' => exact .inr ⟨_, rfl, .fail hmove hop hmove'⟩

/-- A program that succeeds alone can do so among others that stand still. -/
theorem Interleaved.of_eval {R : σ → σ → Prop} {m : Prog σ ε α} {s s' : σ} {a : α}
    (h : m.eval s = .ok (a, s')) : m.Interleaved R s (.ok a) s' := by
  induction m generalizing s with
  | pure b =>
      cases h
      exact .pure .refl
  | throw e => cases h
  | stmt op next ih =>
      rw [eval] at h
      cases hop : op s with
      | error e => rw [hop] at h; cases h
      | ok p =>
          rw [hop] at h
          exact .stmt .refl hop (ih p.1 h)

/-! ## Reasoning about interleaved programs

`m.Ensures R s Φ` is the weakest precondition of `m` among other parties.  There is one
rule for each way to build a program. -/

/-- However the other parties move, `m` started in `s` ends with `Φ`. -/
def Ensures (R : σ → σ → Prop) (m : Prog σ ε α) (s : σ) (Φ : Except ε α → σ → Prop) : Prop :=
  ∀ r s', m.Interleaved R s r s' → Φ r s'

variable {R : σ → σ → Prop} {s : σ}

theorem ensures_pure {a : α} {Φ : Except ε α → σ → Prop}
    (h : ∀ t, Relation.ReflTransGen R s t → Φ (.ok a) t) :
    (Pure.pure a : Prog σ ε α).Ensures R s Φ := by
  intro r s' hr
  cases hr with
  | pure hmove => exact h _ hmove

theorem ensures_throw {e : ε} {Φ : Except ε α → σ → Prop}
    (h : ∀ t, Relation.ReflTransGen R s t → Φ (.error e) t) :
    (MonadExcept.throw e : Prog σ ε α).Ensures R s Φ := by
  intro r s' hr
  cases hr with
  | throw hmove => exact h _ hmove

theorem ensures_ofExcept {result : Except ε α} {Φ : Except ε α → σ → Prop}
    (h : ∀ t, Relation.ReflTransGen R s t → Φ result t) :
    (ofExcept result : Prog σ ε α).Ensures R s Φ := by
  cases result with
  | ok a => exact ensures_pure h
  | error e => exact ensures_throw h

/-- One statement is executed in a state that the others have moved to. -/
theorem ensures_action {op : σ → Except ε (α × σ)} {Φ : Except ε α → σ → Prop}
    (hok : ∀ t a t' u, Relation.ReflTransGen R s t → op t = .ok (a, t') →
      Relation.ReflTransGen R t' u → Φ (.ok a) u)
    (herror : ∀ t e u, Relation.ReflTransGen R s t → op t = .error e →
      Relation.ReflTransGen R t u → Φ (.error e) u) : (action op).Ensures R s Φ := by
  intro r s' hr
  cases hr with
  | stmt hmove hop hrest =>
      cases hrest with
      | pure hmove' => exact hok _ _ _ _ hmove hop hmove'
  | fail hmove hop hmove' => exact herror _ _ _ hmove hop hmove'

theorem ensures_query {f : σ → Except ε α} {Φ : Except ε α → σ → Prop}
    (hok : ∀ t a u, Relation.ReflTransGen R s t → f t = .ok a → Relation.ReflTransGen R t u →
      Φ (.ok a) u)
    (herror : ∀ t e u, Relation.ReflTransGen R s t → f t = .error e →
      Relation.ReflTransGen R t u → Φ (.error e) u) : (query f).Ensures R s Φ := by
  refine ensures_action (fun t a t' u hmove hop hmove' => ?_) fun t e u hmove hop => ?_
  · cases hf : f t with
    | error e => rw [hf] at hop; cases hop
    | ok b =>
        rw [hf] at hop
        cases hop
        exact hok t _ u hmove hf hmove'
  · cases hf : f t with
    | error e' =>
        rw [hf] at hop
        cases hop
        exact herror t _ u hmove hf
    | ok b => rw [hf] at hop; cases hop

/-- The second part starts where the first one ended. -/
theorem ensures_bind {m : Prog σ ε α} {k : α → Prog σ ε β} {Φ : Except ε β → σ → Prop}
    (h : m.Ensures R s fun r u =>
      match r with
      | .ok a => (k a).Ensures R u Φ
      | .error e => Φ (.error e) u) : (m >>= k).Ensures R s Φ := by
  intro r s' hr
  rcases hr.of_bind with ⟨a, u, hm, hk⟩ | ⟨e, rfl, hm⟩
  · exact h (.ok a) u hm r s' hk
  · exact h (.error e) s' hm

/-- The result of the program, as a value. -/
theorem ensures_attempt {m : Prog σ ε α} {Φ : Except ε (Except ε α) → σ → Prop}
    (h : m.Ensures R s fun r u => Φ (.ok r) u) : m.attempt.Ensures R s Φ := by
  induction m generalizing s with
  | pure a => exact ensures_pure fun t hmove => h _ t (.pure hmove)
  | throw e => exact ensures_pure fun t hmove => h _ t (.throw hmove)
  | stmt op next ih =>
      intro r s' hr
      rw [attempt] at hr
      cases hr with
      | stmt hmove hop hrest =>
          next t u b =>
            cases hstmt : op t with
            | ok p =>
                simp only [hstmt] at hop
                cases hop
                exact ih p.1 (fun r' s'' hr' => h r' s'' (.stmt hmove hstmt hr')) r s' hrest
            | error e =>
                simp only [hstmt] at hop
                cases hop
                cases hrest with
                | pure hmove' => exact h _ _ (.fail hmove hstmt hmove')
      | fail hmove hop hmove' =>
          next t e =>
            cases hstmt : op t with
            | ok p => simp only [hstmt] at hop; cases hop
            | error e' => simp only [hstmt] at hop; cases hop

/-- A first part of which nothing is needed. -/
theorem ensures_bind_any {m : Prog σ ε α} {k : α → Prog σ ε β} {Φ : Except ε β → σ → Prop}
    (hk : ∀ a u, (k a).Ensures R u Φ) (herror : ∀ e u, Φ (.error e) u) :
    (m >>= k).Ensures R s Φ := by
  refine ensures_bind fun r u _ => ?_
  cases r with
  | ok a => exact hk a u
  | error e => exact herror e u

/-- Other parties that do less. -/
theorem Ensures.restrict {R' : σ → σ → Prop} {m : Prog σ ε α} {Φ : Except ε α → σ → Prop}
    (h : m.Ensures R s Φ) (himp : ∀ t u, R' t u → R t u) : m.Ensures R' s Φ := by
  have hmoves : ∀ {t u : σ}, Relation.ReflTransGen R' t u → Relation.ReflTransGen R t u :=
    fun hmove => Relation.ReflTransGen.mono himp _ _ hmove
  intro r u hr
  refine h r u ?_
  induction hr with
  | pure hmove => exact .pure (hmoves hmove)
  | throw hmove => exact .throw (hmoves hmove)
  | stmt hmove hop _ ih =>
      exact .stmt (hmoves hmove) hop (ih fun r u hr => h r u (.stmt (hmoves hmove) hop hr))
  | fail hmove hop hmove' => exact .fail (hmoves hmove) hop (hmoves hmove')

/-! ### A program on its way

The rules for a machine that executes the statements one by one. -/

theorem Ensures.move {m : Prog σ ε α} {Φ : Except ε α → σ → Prop} {t : σ} (h : m.Ensures R s Φ)
    (hmove : Relation.ReflTransGen R s t) : m.Ensures R t Φ := by
  intro r u hr
  cases hr with
  | pure hmove' => exact h _ u (.pure (hmove.trans hmove'))
  | throw hmove' => exact h _ u (.throw (hmove.trans hmove'))
  | stmt hmove' hop hrest => exact h _ u (.stmt (hmove.trans hmove') hop hrest)
  | fail hmove' hop hmove'' => exact h _ u (.fail (hmove.trans hmove') hop hmove'')

theorem Ensures.next {op : σ → Except ε (β × σ)} {next : β → Prog σ ε α}
    {Φ : Except ε α → σ → Prop} {b : β} {t : σ} (h : (Prog.stmt op next).Ensures R s Φ)
    (hop : op s = .ok (b, t)) : (next b).Ensures R t Φ :=
  fun r u hr => h r u (.stmt .refl hop hr)

theorem Ensures.done {a : α} {Φ : Except ε α → σ → Prop} (h : (Prog.pure a).Ensures R s Φ) :
    Φ (.ok a) s :=
  h _ s (.pure .refl)

/-! ## Statements one by one -/

/-- Every statement of the program moves the state along `P`. -/
def Each (P : σ → σ → Prop) : Prog σ ε α → Prop
  | .pure _ => True
  | .throw _ => True
  | .stmt op next => (∀ s b t, op s = .ok (b, t) → P s t) ∧ ∀ b, (next b).Each P

section Each

variable {P : σ → σ → Prop}

theorem each_pure (a : α) : (Pure.pure a : Prog σ ε α).Each P := trivial

theorem each_throw (e : ε) : (MonadExcept.throw e : Prog σ ε α).Each P := trivial

theorem each_ofExcept (result : Except ε α) : (ofExcept result : Prog σ ε α).Each P := by
  cases result <;> trivial

theorem each_action {op : σ → Except ε (α × σ)} (h : ∀ s a t, op s = .ok (a, t) → P s t) :
    (action op).Each P :=
  ⟨h, fun _ => trivial⟩

theorem each_query (hrefl : ∀ s, P s s) (f : σ → Except ε α) : (query f).Each P := by
  refine each_action fun s a t hop => ?_
  cases hf : f s with
  | error e => rw [hf] at hop; cases hop
  | ok b =>
      rw [hf] at hop
      cases hop
      exact hrefl s

theorem each_bind {m : Prog σ ε α} {k : α → Prog σ ε β} (hm : m.Each P) (hk : ∀ a, (k a).Each P) :
    (m >>= k).Each P := by
  induction m with
  | pure a => exact hk a
  | throw e => trivial
  | stmt op next ih => exact ⟨hm.1, fun b => ih b (hm.2 b)⟩

theorem each_forM {l : List β} {f : β → Prog σ ε Unit} (h : ∀ b ∈ l, (f b).Each P) :
    (l.forM f).Each P := by
  induction l with
  | nil => exact each_pure ()
  | cons b l ih =>
      rw [List.forM_eq_forM, List.forM_cons]
      exact each_bind (h b (List.mem_cons_self ..)) fun _ => ih fun b' hb' =>
        h b' (List.mem_cons_of_mem b hb')

/-- A program alone moves the state along a preorder that its statements follow. -/
theorem Each.eval {m : Prog σ ε α} {s s' : σ} {a : α} (h : m.Each P) (hrefl : ∀ s, P s s)
    (htrans : ∀ s t u, P s t → P t u → P s u) (hm : m.eval s = .ok (a, s')) : P s s' := by
  induction m generalizing s with
  | pure a =>
      cases hm
      exact hrefl _
  | throw e => cases hm
  | stmt op next ih =>
      rw [Prog.eval] at hm
      cases hop : op s with
      | error e =>
          rw [hop] at hm
          cases hm
      | ok r =>
          rw [hop] at hm
          exact htrans s r.2 s' (h.1 s r.1 r.2 hop) (ih r.1 (h.2 r.1) hm)

theorem each_attempt (hrefl : ∀ s, P s s) {m : Prog σ ε α} (hm : m.Each P) : m.attempt.Each P := by
  induction m with
  | pure a => trivial
  | throw e => trivial
  | stmt op next ih =>
      rw [attempt]
      constructor
      · intro s b t hop
        cases hstmt : op s with
        | error e =>
            simp only [hstmt] at hop
            cases hop
            exact hrefl s
        | ok p =>
            simp only [hstmt] at hop
            cases hop
            exact hm.1 s p.1 p.2 hstmt
      · intro b
        cases b with
        | ok b => exact ih b (hm.2 b)
        | error e => trivial

end Each

end Prog
