import ClipDaemon.Store.Insertion
import ClipDaemon.Store.Tokens

/-!
# Deleting many entries

A bulk delete counts the rows its targets join with, first by id and revision, then by id.
Ids are unique, so a target joins with one row or with none, however often it is repeated,
and the counts are the number of targets exactly when every target finds its row.

`Store.removeMany_exact` says when a bulk delete succeeds, what it leaves, and which error
it gives otherwise.
-/

namespace ClipDaemon

open Eviction SideTable

/-! ## Specification -/

/-- A call of the store when nothing fails: the checks, then the operation. -/
def Request.call (P : Platform) (env : Env) (request : Request) (db : Database) :
    BackendResult Reply × Database :=
  match request.validate with
  | .error error => (.error error, db)
  | .ok () => db.execute .none (request.job P env)

/-- The targets a call may have. -/
structure Sized (targets : List EntryTarget) : Prop where
  count : targets.length ≤ 10000
  ids : ∀ target ∈ targets, byteLen target.opaqueId ≤ 128

/-- The entries `ids` are gone with everything that belongs to them, and nothing else
changed but the catalog revision. -/
structure Removed (ids : List String) (t t' : Tables) : Prop where
  entries : t'.entries = (t.entries.filter fun e => e.id ∉ ids).map (EntryRow.unlink ids)
  payloads : t'.payloads = t.payloads.filter fun p => p.entryId ∉ ids
  searchContent : t'.searchContent = t.searchContent.filter fun s => s.entryId ∉ ids
  entryArtifacts : t'.entryArtifacts = t.entryArtifacts.filter fun a => a.entryId ∉ ids
  revision : t'.storeMeta.revision = t.storeMeta.revision + 1
  sequence : t'.storeMeta.sequence = t.storeMeta.sequence
  effectivePolicy : t'.effectivePolicy = t.effectivePolicy
  artifacts : t'.artifacts = t.artifacts
  inlineEchoes : t'.inlineEchoes = t.inlineEchoes

/-- The error of a bulk delete that is refused. -/
structure Refuses (targets : List EntryTarget) (t : Tables) (error : BackendError) : Prop where
  invalid : ¬Sized targets → error.kind = .invalidData
  missing : Sized targets → (∃ target ∈ targets, t.hasEntry target.opaqueId = false) →
    error = .notFound "Clipboard entry does not exist"
  stale : Sized targets → (∀ target ∈ targets, t.hasEntry target.opaqueId = true) →
    (∃ target ∈ targets, ¬t.Carries target.opaqueId target.expectedRevision.toNat) →
    error = .stale "Clipboard entry revision changed"
  /-- The catalog revision has reached its bound. -/
  counter : Sized targets →
    (∀ target ∈ targets, t.Carries target.opaqueId target.expectedRevision.toNat) →
    error = constraintFailed "CHECK"

/-! ## Checks of the targets -/

theorem forM_validateId_ok {targets : List EntryTarget} :
    (targets.forM fun target => validateId target.opaqueId) = .ok () ↔
      ∀ target ∈ targets, byteLen target.opaqueId ≤ 128 := by
  induction targets with
  | nil => simp [List.forM_eq_forM, pure, Except.pure]
  | cons target targets ih =>
      rw [List.forM_eq_forM] at ih ⊢
      rw [List.forM_cons, List.forall_mem_cons, ← ih, validateId]
      split
      next h => simp [bind, Except.bind, Nat.not_le.mpr h]
      next h => simp [bind, Except.bind, Nat.not_lt.mp h]

theorem kind_forM_validateId {targets : List EntryTarget} {error : BackendError}
    (h : (targets.forM fun target => validateId target.opaqueId) = .error error) :
    error.kind = .invalidData := by
  induction targets with
  | nil => cases h
  | cons target targets ih =>
      rw [List.forM_eq_forM, List.forM_cons, validateId] at h
      split at h
      · cases h
        rfl
      · exact ih h

theorem validate_removeMany_ok {targets : List EntryTarget} :
    (Request.removeMany targets).validate = .ok () ↔ Sized targets := by
  rw [Request.validate]
  split
  next h => exact ⟨fun hno => (by cases hno), fun hsized => absurd hsized.count (by omega)⟩
  next h =>
    rw [forM_validateId_ok]
    exact ⟨fun hids => ⟨by omega, hids⟩, fun hsized => hsized.ids⟩

theorem kind_validate_removeMany {targets : List EntryTarget} {error : BackendError}
    (h : (Request.removeMany targets).validate = .error error) : error.kind = .invalidData := by
  rw [Request.validate] at h
  split at h
  · cases h
    rfl
  · exact kind_forM_validateId h

/-! ## Joins -/

section Joins

variable {P : Platform} {t : Tables} {targets : List EntryTarget}

/-- A join with the ids finds as many rows as there are targets when each finds one. -/
theorem countJoin_eq_iff (h : Stamped t) {p : EntryTarget → EntryRow → Bool}
    (hp : ∀ target e, p target e = true → e.id = target.opaqueId) :
    Database.countJoin p targets t = targets.length ↔
      ∀ target ∈ targets, ∃ e ∈ t.entries, p target e = true := by
  have hle : ∀ target : EntryTarget, (t.entries.filter (p target)).length ≤ 1 := fun target =>
    length_filter_owner_le_one h.ids (k := target.opaqueId) fun e _ => hp target e
  rw [Database.countJoin, sum_eq_length_iff fun target _ => hle target]
  refine forall₂_congr fun target _ => ?_
  constructor
  · intro hone
    obtain ⟨e, he⟩ := List.exists_mem_of_length_pos (by rw [hone]; exact Nat.one_pos)
    exact ⟨e, List.mem_filter.mp he⟩
  · rintro ⟨e, he, hmatch⟩
    have hpos := List.length_pos_of_mem (List.mem_filter.mpr ⟨he, hmatch⟩)
    exact Nat.le_antisymm (hle target) hpos

/-- The rows with the ids and the revisions. -/
theorem valid_iff (h : WellFormed P t) :
    Database.countJoin (fun target e => e.id = target.opaqueId &&
        (e.revision : Int) = asI64 target.expectedRevision.toNat) targets t = targets.length ↔
      ∀ target ∈ targets, t.Carries target.opaqueId target.expectedRevision.toNat := by
  rw [countJoin_eq_iff h.stamped fun target e hmatch => by
    simp only [Bool.and_eq_true, decide_eq_true_eq] at hmatch
    exact hmatch.1]
  refine forall₂_congr fun target _ => exists_congr fun e => and_congr_right fun he => ?_
  simp only [Bool.and_eq_true, decide_eq_true_eq]
  refine and_congr_right fun _ => ⟨asI64_eq, fun hrevision => ?_⟩
  rw [← hrevision]
  exact revision_eq_asI64 h.stamped h.inRange he

/-- The rows with the ids. -/
theorem present_iff (h : Stamped t) :
    Database.countJoin (fun target e => e.id = target.opaqueId) targets t = targets.length ↔
      ∀ target ∈ targets, t.hasEntry target.opaqueId = true := by
  rw [countJoin_eq_iff h fun target e hmatch => by simpa using hmatch]
  simp only [decide_eq_true_eq, hasEntry_iff]

end Joins

/-! ## The operation -/

section Operation

variable {P : Platform} {env : Env} {t : Tables} {targets : List EntryTarget}

/-- What is deleted is what the targets name. -/
theorem removed_of_present (hpresent : ∀ target ∈ targets, t.hasEntry target.opaqueId = true) :
    Removed (targets.map (·.opaqueId)) t
      (t.deleteEntries (t.entryIds fun e => e.id ∈ targets.map (·.opaqueId))).bumped := by
  have hids : ∀ id, id ∈ (t.entryIds fun e => e.id ∈ targets.map (·.opaqueId)) ↔
      id ∈ targets.map (·.opaqueId) := by
    intro id
    simp only [Tables.entryIds, List.mem_map, List.mem_filter, decide_eq_true_eq]
    constructor
    · rintro ⟨e, ⟨-, hmem⟩, rfl⟩
      exact hmem
    · rintro ⟨target, htarget, rfl⟩
      obtain ⟨e, he, hid⟩ := hasEntry_iff.mp (hpresent target htarget)
      exact ⟨e, ⟨he, target, htarget, hid.symm⟩, hid⟩
  have hkept : ∀ {ρ : Type} (key : ρ → String) (rows : List ρ),
      deleteKeys key (t.entryIds fun e => e.id ∈ targets.map (·.opaqueId)) rows =
        rows.filter fun r => key r ∉ targets.map (·.opaqueId) := fun key rows =>
    List.filter_congr fun r _ => decide_eq_decide.mpr (not_congr (hids (key r)))
  have hunlink : EntryRow.unlink (t.entryIds fun e => e.id ∈ targets.map (·.opaqueId)) =
      EntryRow.unlink (targets.map (·.opaqueId)) := by
    funext e
    simp only [EntryRow.unlink, hids]
  refine ⟨?_, hkept _ _, hkept _ _, hkept _ _, rfl, rfl, rfl, rfl, rfl⟩
  change (deleteKeys _ _ t.entries).map _ = _
  rw [hkept, hunlink]

/-- What a bulk delete computes. -/
theorem eval_removeMany (targets : List EntryTarget) (t : Tables) :
    (Database.removeMany targets).eval t =
      if Database.countJoin (fun target e => e.id = target.opaqueId &&
          (e.revision : Int) = asI64 target.expectedRevision.toNat) targets t ≠ targets.length then
        if Database.countJoin
          (fun target e => e.id = target.opaqueId) targets t ≠ targets.length then
          .error (.notFound "Clipboard entry does not exist")
        else .error (.stale "Clipboard entry revision changed")
      else if t.storeMeta.revision + 1 < MAX_REVISION then
        .ok ((), (t.deleteEntries (t.entryIds fun e => e.id ∈ targets.map (·.opaqueId))).bumped)
      else .error (constraintFailed "CHECK") := by
  rw [Database.removeMany, Prog.eval_bind, eval_rows]
  dsimp only
  split
  · rw [Prog.eval_bind, eval_rows]
    dsimp only
    split <;> rfl
  · rw [Prog.eval_bind, Database.eval_deleteWhere]
    dsimp only
    generalize hids : (t.entryIds fun e => e.id ∈ targets.map (·.opaqueId)) = ids
    have hrevision : (t.deleteEntries ids).storeMeta.revision = t.storeMeta.revision := rfl
    split
    next hroom =>
      exact Prog.eval_bind_ok.mpr ⟨_, _, Database.bump_ok.mpr ⟨hroom, rfl⟩, rfl⟩
    next hfull =>
      have hcheck : (t.deleteEntries ids).incrementRevision =
          .error (constraintFailed "CHECK") := by
        rw [Tables.incrementRevision, hrevision, if_neg hfull]
      rw [Prog.eval_bind, Database.bump, Prog.eval_bind, eval_exec, hcheck]
      rfl

/-- A call with targets deletes all of them or changes nothing. -/
theorem call_removeMany (h : WellFormed P t) (hne : targets ≠ []) (hsized : Sized targets) :
    let r := (Request.removeMany targets).call P env (Database.recovered t)
    (t.storeMeta.revision + 1 < MAX_REVISION ∧
      (∀ target ∈ targets, t.Carries target.opaqueId target.expectedRevision.toNat) ∧
      ∃ t', r = (.ok .unit, Database.recovered t') ∧ Removed (targets.map (·.opaqueId)) t t') ∨
    (¬(t.storeMeta.revision + 1 < MAX_REVISION ∧
        ∀ target ∈ targets, t.Carries target.opaqueId target.expectedRevision.toNat) ∧
      ∃ error, r = (.error error, Database.recovered t) ∧ Refuses targets t error) := by
  intro r
  have hthere : (∀ target ∈ targets, t.Carries target.opaqueId target.expectedRevision.toNat) →
      ∀ target ∈ targets, t.hasEntry target.opaqueId = true := fun hcarries target htarget => by
    obtain ⟨e, he, hid, -⟩ := hcarries target htarget
    exact hasEntry_iff.mpr ⟨e, he, hid⟩
  have hcall : r = (Database.recovered t).execute .none
      ((Request.removeMany targets).job P env) := by
    simp only [r, Request.call, validate_removeMany_ok.mpr hsized]
  have hr := hcall.trans (Database.execute_none _ _)
  have hjob : ((Request.removeMany targets).job P env).eval t =
      ((Database.removeMany targets).eval t).map fun r => (.unit, r.2) := by
    rw [Request.job, if_neg hne, Request.unit, Job.eval, Prog.eval_bind]
    cases (Database.removeMany targets).eval t <;> rfl
  rw [hjob, eval_removeMany, ite_not, ite_not] at hr
  by_cases hcarries : ∀ target ∈ targets, t.Carries target.opaqueId target.expectedRevision.toNat
  · have hall := hthere hcarries
    rw [if_pos ((valid_iff h).mpr hcarries)] at hr
    by_cases hroom : t.storeMeta.revision + 1 < MAX_REVISION
    · rw [if_pos hroom] at hr
      exact .inl ⟨hroom, hcarries, _, hr, removed_of_present hall⟩
    · rw [if_neg hroom] at hr
      refine .inr ⟨fun hboth => hroom hboth.1, _, hr, fun hno => absurd hsized hno, ?_, ?_,
        fun _ _ => rfl⟩
      · rintro - ⟨target, htarget, hgone⟩
        rw [hall target htarget] at hgone
        cases hgone
      · rintro - - ⟨target, htarget, hgone⟩
        exact absurd (hcarries target htarget) hgone
  · rw [if_neg fun hvalid => hcarries ((valid_iff h).mp hvalid)] at hr
    refine .inr ⟨fun hboth => hcarries hboth.2, ?_⟩
    by_cases hall : ∀ target ∈ targets, t.hasEntry target.opaqueId = true
    · rw [if_pos ((present_iff h.stamped).mpr hall)] at hr
      refine ⟨_, hr, fun hno => absurd hsized hno, ?_, fun _ _ _ => rfl,
        fun _ hcarried => absurd hcarried hcarries⟩
      rintro - ⟨target, htarget, hgone⟩
      rw [hall target htarget] at hgone
      cases hgone
    · rw [if_neg fun hpresent => hall ((present_iff h.stamped).mp hpresent)] at hr
      exact ⟨_, hr, fun hno => absurd hsized hno, fun _ _ => rfl,
        fun _ hthere => absurd hthere hall, fun _ hcarried => absurd hcarried hcarries⟩

end Operation

/-- In every committed state, a call with targets succeeds exactly when every one of them is
an entry at its revision, they are of the size allowed, and the counter is below its bound.
It then deletes what the targets name, and otherwise changes nothing. -/
theorem Store.removeMany_exact (P : Platform) (ops : List DatabaseOp) (env : Env)
    (targets : List EntryTarget) (hne : targets ≠ []) :
    let t := (Store.fresh.after P ops).committed
    let r := (Request.removeMany targets).call P env (Database.recovered t)
    ((∃ reply, r.1 = .ok reply) ↔ Sized targets ∧ t.storeMeta.revision + 1 < MAX_REVISION ∧
      ∀ target ∈ targets, t.Carries target.opaqueId target.expectedRevision.toNat) ∧
    (∀ reply, r.1 = .ok reply → ∃ t', r.2 = Database.recovered t' ∧
      Removed (targets.map (·.opaqueId)) t t') ∧
    ∀ error, r.1 = .error error → r.2 = Database.recovered t ∧ Refuses targets t error := by
  intro t r
  have h : WellFormed P t := Store.after_wellFormed P ops
  by_cases hsized : Sized targets
  · obtain ⟨hroom, hcarries, t', hr, hremoved⟩ | ⟨hno, refusal, hr, hrefuses⟩ :=
      call_removeMany h hne hsized
    · change r = _ at hr
      rw [hr]
      exact ⟨⟨fun _ => ⟨hsized, hroom, hcarries⟩, fun _ => ⟨_, rfl⟩⟩,
        fun _ _ => ⟨t', rfl, hremoved⟩, fun _ hno => nomatch hno⟩
    · change r = _ at hr
      rw [hr]
      refine ⟨⟨fun ⟨_, hok⟩ => (nomatch hok), fun hboth => absurd hboth.2 hno⟩,
        fun _ hok => (nomatch hok), fun error herror => ⟨rfl, ?_⟩⟩
      rw [← Except.error.inj herror]
      exact hrefuses
  · cases hvalid : (Request.removeMany targets).validate with
    | ok _ => exact absurd (validate_removeMany_ok.mp hvalid) hsized
    | error refusal =>
        have hr : r = (.error refusal, Database.recovered t) := by
          simp only [r, Request.call, hvalid]
        rw [hr]
        refine ⟨⟨fun ⟨_, hok⟩ => (nomatch hok), fun hboth => absurd hboth.1 hsized⟩,
          fun _ hok => (nomatch hok), fun error herror => ⟨rfl, fun _ => ?_,
            fun hyes => absurd hyes hsized, fun hyes => absurd hyes hsized,
            fun hyes => absurd hyes hsized⟩⟩
        rw [← Except.error.inj herror]
        exact kind_validate_removeMany hvalid

/-- An image is deleted, named twice, and the entry of its file stays. -/
theorem Store.removeMany_exact_twice :
    let t := (Store.fresh.after .png (imageAsFile ++ [captureFile])).committed
    ∃ t', (Request.removeMany [⟨"entry-s", 2⟩, ⟨"entry-s", 2⟩]).call .png ⟨.empty, "0"⟩
        (Database.recovered t) = (.ok .unit, Database.recovered t') ∧
      Removed ["entry-s", "entry-s"] t t' := by
  intro t
  obtain ⟨hsucceeds, hremoved, -⟩ := Store.removeMany_exact .png (imageAsFile ++ [captureFile])
    ⟨.empty, "0"⟩ [⟨"entry-s", 2⟩, ⟨"entry-s", 2⟩] (by decide)
  have hcarries : t.storeMeta.revision = 3 ∧
      ∃ e ∈ t.entries, e.id = "entry-s" ∧ e.revision = 2 := by decide +kernel
  obtain ⟨hrevision, hcarries⟩ := hcarries
  obtain ⟨reply, hreply⟩ := hsucceeds.mpr ⟨⟨by decide, by decide⟩,
    by rw [hrevision]; decide, fun target htarget => by
      obtain rfl : target = ⟨"entry-s", 2⟩ := by simpa using htarget
      exact hcarries⟩
  obtain ⟨t', ht', hremoved⟩ := hremoved reply hreply
  refine ⟨t', Prod.ext ?_ ht', hremoved⟩
  have hunit : ((Request.removeMany [⟨"entry-s", 2⟩, ⟨"entry-s", 2⟩]).call .png ⟨.empty, "0"⟩
      (Database.recovered t)).1 = .ok .unit := by decide +kernel
  exact hunit

/-- The catalog revision is counted to its bound, the last time by a new entry. -/
def countedEntry : List DatabaseOp :=
  .request (.applyPolicy { StorePolicy.default with admission := true }) ⟨.empty, "0"⟩ .none ::
    (List.replicate (MAX_REVISION - 3) (.request .wipe ⟨.empty, "0"⟩ .none) ++
      [.request (.insert "text/plain" (asBytes "hi")) ⟨.empty, "n"⟩ .none])

/-- Targets that are entries at their revisions are refused when they are too many, and at
the bound of the counter. -/
theorem Store.removeMany_refused :
    (let t := (Store.fresh.after .png imageAsFile).committed
     let targets := List.replicate 10001 ⟨"entry-s", 2⟩
     (∀ target ∈ targets, t.Carries target.opaqueId target.expectedRevision.toNat) ∧
       ((Request.removeMany targets).call .png ⟨.empty, "0"⟩ (Database.recovered t)).1 =
         .error (invalidData "Too many delete targets")) ∧
    (let t := (Store.fresh.after .plain countedEntry).committed
     t.Carries "entry-n" 9007199254740990 ∧
       ((Request.removeMany [⟨"entry-n", 9007199254740990⟩]).call .plain ⟨.empty, "0"⟩
         (Database.recovered t)).1 = .error (constraintFailed "CHECK")) := by
  refine ⟨⟨fun target htarget => ?_, ?_⟩, ?_⟩
  · rw [List.eq_of_mem_replicate htarget]
    have hcarries : ∃ e ∈ (Store.fresh.after .png imageAsFile).committed.entries,
        e.id = "entry-s" ∧ e.revision = 2 := by decide +kernel
    exact hcarries
  · rw [Request.call, Request.validate, if_pos (by rw [List.length_replicate]; decide)]
  · have hpolicy :
        (Request.applyPolicy { StorePolicy.default with admission := true }).effect .plain
        ⟨.empty, "0"⟩ Tables.fresh = .ok (.unit, { Tables.fresh with
          effectivePolicy.admission := true, storeMeta.revision := 1 }) := by rfl
    let t : Tables := { Tables.fresh with
      effectivePolicy.admission := true, storeMeta.revision := MAX_REVISION - 2 }
    have hafter : Store.fresh.after .plain countedEntry = Store.step .plain
        ⟨Database.recovered t, true⟩
        (.request (.insert "text/plain" (asBytes "hi")) ⟨.empty, "n"⟩ .none) := by
      have hwipes := Store.after_wipes .plain (MAX_REVISION - 3) (t := { Tables.fresh with
        effectivePolicy.admission := true, storeMeta.revision := 1 }) (by decide) rfl rfl
      rw [Store.after] at hwipes
      rw [countedEntry, Store.after, List.foldl_cons, Store.fresh, Store.step_calm hpolicy,
        List.foldl_append, hwipes]
      rfl
    have hrun : (∃ e ∈ (Store.step .plain ⟨Database.recovered t, true⟩ (.request
          (.insert "text/plain" (asBytes "hi")) ⟨.empty, "n"⟩ .none)).committed.entries,
        e.id = "entry-n" ∧ e.revision = 9007199254740990) ∧
        ((Request.removeMany [⟨"entry-n", 9007199254740990⟩]).call .plain ⟨.empty, "0"⟩
          (Database.recovered (Store.step .plain ⟨Database.recovered t, true⟩ (.request
            (.insert "text/plain" (asBytes "hi")) ⟨.empty, "n"⟩ .none)).committed)).1 =
          .error (constraintFailed "CHECK") := by decide +kernel
    rw [hafter]
    exact hrun

end ClipDaemon
