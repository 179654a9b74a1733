import ClipDaemon.Api.Receipts
import ClipDaemon.History.Lifecycle

/-!
# The statements of the requests

The requests of the API are put together from a few statements: steps of the backend, the
refresh of a record, the drop of old records, the read of a record and, for the requests that
start operations, a reservation, its release and a registration.  What holds of each of them
holds of every statement of a request.
-/

namespace ClipDaemon.Jobs

/-- What holds of the statements that neither reserve nor register. -/
structure Reads (i : Nat) (P : Jobs → Jobs → Prop) : Prop where
  refl : ∀ s, P s s
  backend : ∀ s b, Operations.Keeps s.backend b → P s { s with backend := b }
  refresh : ∀ s id, P s (s.refresh i id)
  prune : ∀ s, P s s.prune
  read : ∀ s id owner, P s (s.readRecord i id owner).2

/-- What holds of all statements. -/
structure Statements (i : Nat) (P : Jobs → Jobs → Prop) : Prop extends Reads i P where
  reserved : ∀ s owner book, s.book.reserve i owner s.now = (.ok (), book) →
    P s (record i (.reserved owner) { s with book := book })
  release : ∀ s, P s { s with book := s.book.release i }
  track : ∀ s first owner victim t, s.track i first owner victim = some t → P s t

/-- Two things that hold of each statement in a state of a kind. -/
theorem Reads.both {i : Nat} {I : Jobs → Prop} {P Q : Jobs → Jobs → Prop}
    (h : Reads i fun s t => I s → P s t) (h' : Reads i fun s t => I s → Q s t) :
    Reads i fun s t => I s → P s t ∧ Q s t where
  refl s hs := ⟨h.refl s hs, h'.refl s hs⟩
  backend s b hkeeps hs := ⟨h.backend s b hkeeps hs, h'.backend s b hkeeps hs⟩
  refresh s id hs := ⟨h.refresh s id hs, h'.refresh s id hs⟩
  prune s hs := ⟨h.prune s hs, h'.prune s hs⟩
  read s id owner hs := ⟨h.read s id owner hs, h'.read s id owner hs⟩

section Reads

variable {i : Nat} {P : Jobs → Jobs → Prop} {id : Uuid}

/-- The statements that are not about operations look at the state at most. -/
theorem Reads.elsewhere (h : Reads i P) : elsewhere.run.Each P := by
  refine Thread.each_attempt fun chance s r t hop => ?_
  cases chance with
  | fails error => cases hop; exact h.refl s
  | abandon => cases hop; exact h.refl s
  | _ => cases hop; exact h.refl s

theorem Reads.onBackend {α : Type} {m : Operations.Work α} (h : Reads i P)
    (hm : m.Each Operations.Keeps) : (onBackend i m).Each P :=
  Thread.each_zoom hm fun s b hkeeps => h.backend s b hkeeps

theorem Reads.refreshOperation (h : Reads i P) : (refreshOperation i id).Each P :=
  Thread.each_modify fun s => h.refresh s id

theorem Reads.refreshAll (h : Reads i P) (ids : List Uuid) : (refreshAll i ids).Each P := by
  induction ids with
  | nil => exact Thread.each_pure _
  | cons id ids ih => exact Thread.each_bind h.refreshOperation fun _ => ih

theorem Reads.records (h : Reads i P) (p : Record → Bool) : (records p).Each P := by
  refine Thread.each_atomic fun chance s ids t hop => ?_
  cases chance with
  | order order =>
      simp only at hop
      split at hop
      · cases hop
        exact h.refl s
      · cases hop
  | _ => cases hop

theorem Reads.refreshOperations (h : Reads i P) : (refreshOperations i).Each P := by
  refine Thread.each_bind (h.records _) fun ids => ?_
  refine Thread.each_bind (h.refreshAll ids) fun _ => ?_
  exact Thread.each_modify h.prune

theorem Reads.operationStatus {owner : Owner} (h : Reads i P) :
    (operationStatus i id owner).Each P :=
  Thread.each_bind h.refreshOperation fun _ => Thread.each_modify fun s => h.read s id owner

theorem Reads.owned {owner : Owner} (h : Reads i P) : (owned id owner).Each P :=
  Thread.each_modify h.refl

theorem Reads.cancel {owner : Owner} (h : Reads i P) : (cancel i id owner).Each P := by
  refine Thread.each_bind h.refreshOperations fun _ => ?_
  refine Thread.each_bind h.owned fun found => ?_
  cases found with
  | true =>
      refine Thread.each_bind (h.onBackend (Operations.each_cancel id)) fun _ => ?_
      exact Thread.each_bind h.refreshOperation fun _ => Thread.each_pure _
  | false => exact Thread.each_pure _

theorem Reads.cancelAll (h : Reads i P) (ids : List Uuid) : (cancelAll i ids).Each P := by
  induction ids with
  | nil => exact Thread.each_pure _
  | cons id ids ih =>
      refine Thread.each_bind (h.onBackend (Operations.each_cancel id)) fun _ => ?_
      exact Thread.each_bind h.refreshOperation fun _ => ih

theorem Reads.releaseOwner {owner : String} (h : Reads i P) : (releaseOwner i owner).Each P :=
  Thread.each_bind (h.records _) fun ids =>
    Thread.each_bind (h.cancelAll ids) fun _ => Thread.each_pure _

theorem Reads.launch (h : Reads i P) (action message : String) (files : List String) :
    (launch i action message files).run.Each P := by
  refine Thread.each_run_bind (Thread.each_bind
    (h.onBackend (Operations.each_launch action message files)) fun _ =>
      Thread.each_pure _) fun _ => ?_
  exact Thread.each_pure _

theorem Reads.entryAction (h : Reads i P) (params : Value) : (entryAction i params).run.Each P := by
  refine Thread.each_run_bind h.elsewhere fun _ => ?_
  cases ActionParams.ofValue params with
  | none => exact Thread.each_run_throw _
  | some params =>
      refine Thread.each_run_bind h.elsewhere fun _ => ?_
      split
      · exact Thread.each_run_bind (h.launch _ _ _) fun _ => Thread.each_run_pure _
      · exact Thread.each_run_pure _

theorem Reads.interactiveScreenshot (h : Reads i P) : (interactiveScreenshot i).run.Each P := by
  refine Thread.each_run_bind h.elsewhere fun _ => ?_
  refine Thread.each_run_bind (Thread.each_bind (h.onBackend (Thread.each_modify fun s =>
    (Operations.moves_refl s).keeps)) fun _ => Thread.each_pure _) fun running => ?_
  cases running with
  | true => exact Thread.each_run_throw _
  | false => exact Thread.each_run_bind (h.launch _ _ _) fun _ => Thread.each_run_pure _

theorem Reads.dispatchMethod (h : Reads i P) (method : String) (params : Value) :
    (dispatchMethod i method params).run.Each P := by
  rw [Jobs.dispatchMethod]
  split
  · exact h.interactiveScreenshot
  · split
    · exact h.entryAction params
    · exact Thread.each_run_bind h.elsewhere fun _ => Thread.each_run_pure _

end Reads

section Statements

variable {i : Nat} {P : Jobs → Jobs → Prop} {owner : Owner}

theorem Statements.trackOperation (h : Statements i P) (operation : OperationResult) :
    (trackOperation i operation owner).Each P := by
  refine Thread.each_atomic fun chance s _ t hop => ?_
  cases chance with
  | victim victim =>
      obtain ⟨_, htrack, heq⟩ := Option.map_eq_some_iff.mp hop
      cases heq
      exact h.track s operation owner victim _ htrack
  | _ => cases hop

theorem Statements.dispatchReserved (h : Statements i P) (method : String) (params : Value) :
    (dispatchReserved i method params owner).run.Each P := by
  refine Thread.each_run_bind (h.dispatchMethod method params) fun data => ?_
  refine Thread.each_run_bind h.elsewhere fun _ => ?_
  cases data with
  | none => exact Thread.each_run_pure _
  | some operation =>
      refine Thread.each_run_bind (Thread.each_bind (h.trackOperation operation) fun _ =>
        Thread.each_pure _) fun _ => ?_
      refine Thread.each_run_bind (Thread.each_bind h.operationStatus fun _ => Thread.each_pure _)
        fun status => ?_
      exact Thread.each_run_bind (Thread.each_pure _) fun _ => Thread.each_run_pure _

/-- A full book is pruned. -/
theorem Statements.reserve (h : Statements i P) : (reserve i owner).Each P := by
  refine Thread.each_modify fun s => ?_
  have hgranted := h.reserved s owner
  have hfull : ∀ error book, s.book.reserve i owner s.now = (.error error, book) →
      book = s.book.prune s.now := by
    intro error book hreserve
    simp only [Book.reserve] at hreserve
    split at hreserve
    · cases hreserve
      rfl
    · cases hreserve
  cases hreserve : s.book.reserve i owner s.now with
  | mk result book =>
      cases result with
      | ok _ => exact hgranted book hreserve
      | error error =>
          cases hfull error book hreserve
          exact h.prune s

theorem Statements.dispatch (h : Statements i P) (method : String) (params : Value) :
    (dispatch i method params owner).Each P := by
  refine Thread.each_bind h.refreshOperations fun _ => ?_
  split
  · refine Thread.each_bind h.reserve fun result => ?_
    cases result with
    | error _ => exact Thread.each_pure _
    | ok _ =>
        refine Thread.each_bind (h.dispatchReserved method params) fun _ => ?_
        exact Thread.each_bind (Thread.each_modify h.release) fun _ => Thread.each_pure _
  · exact Thread.each_bind (h.dispatchReserved method params) fun _ => Thread.each_pure _

end Statements

/-- The requests that dispatch no method. -/
theorem Reads.program {i : Nat} {P : Jobs → Jobs → Prop} (h : Reads i P) (call : Call)
    (hcall : ∀ method params owner, call ≠ .dispatch method params owner) :
    (program i call).Each P := by
  cases call with
  | dispatch method params owner => exact absurd rfl (hcall method params owner)
  | status id owner =>
      exact Thread.each_bind h.refreshOperations fun _ =>
        Thread.each_bind h.operationStatus fun _ => Thread.each_pure _
  | cancel id owner => exact h.cancel
  | releaseOwner owner => exact h.releaseOwner
  | observed id => exact Thread.each_bind h.refreshOperation fun _ => Thread.each_pure _
  | lagged => exact Thread.each_bind h.refreshOperations fun _ => Thread.each_pure _
  | poll => exact Thread.each_bind (h.onBackend Operations.each_poll) fun _ => Thread.each_pure _
  | stop => exact Thread.each_bind (h.onBackend Operations.each_stop) fun _ => Thread.each_pure _
  | elapse time =>
      have hmoves :
          (Jobs.onBackend i (Thread.modify fun s => ((), { s with now := s.now + time }))).Each P :=
        h.onBackend (Thread.each_modify fun s => (Operations.moves_elapse time s).keeps)
      exact Thread.each_bind hmoves fun _ => Thread.each_pure _

theorem Statements.program {i : Nat} {P : Jobs → Jobs → Prop} (h : Statements i P) (call : Call) :
    (program i call).Each P := by
  cases call with
  | dispatch method params owner => exact h.dispatch method params
  | _ => exact h.toReads.program _ (by intro _ _ _ h; cases h)

end ClipDaemon.Jobs
