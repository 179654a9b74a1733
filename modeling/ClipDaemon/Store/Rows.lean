import ClipDaemon.Store.Beside

/-!
# What the constraints promise

Every row that a statement writes passes the `CHECK` clauses of its table, so every committed
row does (`Store.after_checked`).  The sequence number grows only together with the catalog
revision.
-/

namespace ClipDaemon

/-- Every entry passes its `CHECK` clauses. -/
def Tables.Checks (t : Tables) : Prop := ∀ e ∈ t.entries, e.check = true

/-- The relation a statement moves the tables along. -/
def KeepsChecks (t t' : Tables) : Prop := t.Checks → t'.Checks

theorem KeepsChecks.refl (t : Tables) : KeepsChecks t t := id

theorem KeepsChecks.trans (t t' t'' : Tables) (h : KeepsChecks t t') (h' : KeepsChecks t' t'') :
    KeepsChecks t t'' := h' ∘ h

theorem KeepsChecks.of_entries {t t' : Tables} (h : t'.entries = t.entries) : KeepsChecks t t' := by
  intro hchecks e he
  exact hchecks e (h ▸ he)

@[simp] theorem EntryRow.check_unlink (ids : List String) (e : EntryRow) :
    (e.unlink ids).check = e.check := by
  unfold EntryRow.unlink
  split <;> rfl

/-! ## Statements -/

section Statements

variable {t t' : Tables}

theorem checks_deleteEntries (ids : List String) : KeepsChecks t (t.deleteEntries ids) := by
  intro h e he
  obtain ⟨e₀, he₀, -, rfl⟩ := (mem_deleteEntries ids).mp he
  rw [EntryRow.check_unlink]
  exact h e₀ he₀

theorem checks_updateEntries {p : EntryRow → Bool} {set : EntryRow → EntryRow}
    (hok : t.updateEntries p set = .ok t') : KeepsChecks t t' := by
  obtain ⟨hset, rfl⟩ := Database.updateEntries_ok.mp hok
  intro h e he
  obtain ⟨e₀, he₀, rfl⟩ := mem_mapEntries.mp he
  split
  next hp => exact hset e₀ he₀ hp
  next => exact h e₀ he₀

theorem checks_insertEntry {row : EntryRow} (hok : t.insertEntry row = .ok t') :
    KeepsChecks t t' := by
  unfold Tables.insertEntry at hok
  split at hok
  · cases hok
  · split at hok
    next hcheck =>
      cases hok
      intro h e he
      rcases List.mem_append.mp he with he | he
      · exact h e he
      · exact List.mem_singleton.mp he ▸ hcheck
    next => cases hok

theorem checks_linkEcho {source id : String} (hok : t.linkEcho source id = .ok t') :
    KeepsChecks t t' := by
  unfold Tables.linkEcho at hok
  split at hok
  next =>
    cases hok
    intro h e he
    obtain ⟨e₀, he₀, rfl⟩ := List.mem_map.mp he
    have hcheck := h e₀ he₀
    split
    · exact hcheck
    · exact hcheck
  next => cases hok

/-- The statements that leave the entries alone. -/
theorem entries_insertPayload {row : PayloadRow} (hok : t.insertPayload row = .ok t') :
    t'.entries = t.entries := by
  unfold Tables.insertPayload at hok
  split at hok
  · cases hok
  · split at hok
    · cases hok
    · split at hok <;> cases hok
      rfl

theorem entries_insertSearch {row : SearchRow} (hok : t.insertSearch row = .ok t') :
    t'.entries = t.entries := by
  unfold Tables.insertSearch at hok
  split at hok
  · cases hok
  · split at hok <;> cases hok
    rfl

theorem entries_insertEntryArtifact {row : EntryArtifactRow}
    (hok : t.insertEntryArtifact row = .ok t') : t'.entries = t.entries := by
  unfold Tables.insertEntryArtifact at hok
  split at hok
  · cases hok
  · split at hok <;> cases hok
    rfl

end Statements

/-! ## Programs -/

namespace Database

open Prog (each_pure each_throw each_bind each_forM)

variable {P : Platform}

theorem each_exec {f : Tables → BackendResult Tables}
    (h : ∀ t t', f t = .ok t' → KeepsChecks t t') : (exec f).Each KeepsChecks :=
  Prog.each_action fun t _ t' hop => by
    cases hf : f t with
    | error e =>
        rw [hf] at hop
        cases hop
    | ok t'' =>
        rw [hf] at hop
        cases hop
        exact h t _ hf

theorem each_rows {α : Type} (f : Tables → α) : (rows f).Each KeepsChecks :=
  Prog.each_query KeepsChecks.refl _

theorem each_bump : bump.Each KeepsChecks := by
  refine each_bind (each_exec fun t t' h => ?_) fun _ => each_rows _
  obtain ⟨-, rfl⟩ := incrementRevision_ok.mp h
  exact .of_entries rfl

theorem each_sequence : sequence.Each KeepsChecks := by
  refine each_bind (each_exec fun t t' h => ?_) fun _ => each_rows _
  obtain ⟨-, rfl⟩ := incrementSequence_ok.mp h
  exact .of_entries rfl

theorem each_summary (id : String) (expected : Option Nat) :
    (summary id expected).Each KeepsChecks := by
  refine each_bind (each_rows _) fun found => ?_
  cases found with
  | none => exact each_throw _
  | some summary =>
      dsimp only
      split
      · exact each_throw _
      · exact each_pure _

theorem each_deleteWhere (select : Tables → List String) :
    (deleteWhere select).Each KeepsChecks :=
  each_exec fun _ _ h => Except.ok.inj h ▸ checks_deleteEntries _

theorem each_retain (policy : StorePolicy) (protectedEntry : Option String) :
    (retain policy protectedEntry).Each KeepsChecks := by
  refine each_bind (each_deleteWhere _) fun _ => ?_
  refine each_bind (each_forM fun _ _ => each_deleteWhere _) fun _ => ?_
  refine each_bind (each_deleteWhere _) fun _ => ?_
  split
  · exact each_pure _
  · exact each_bind (each_summary _ _) fun _ => each_pure _

theorem each_update (p : EntryRow → Bool) (set : EntryRow → EntryRow) :
    (exec (Tables.updateEntries p set)).Each KeepsChecks :=
  each_exec fun _ _ h => checks_updateEntries h

theorem each_allowedPayload (policy : StorePolicy) (bytes : Bytes) :
    (allowedPayload policy bytes).Each KeepsChecks := by
  unfold allowedPayload
  split
  · exact each_throw _
  · exact each_pure _

theorem each_linkSource (W : World) (id : String) (resolved : ResolvedContent) :
    (linkSource P W id resolved).Each KeepsChecks := by
  unfold linkSource
  split
  · exact each_pure _
  · split
    · exact each_pure _
    · refine each_bind (each_rows _) fun record => ?_
      cases record with
      | none => exact each_pure _
      | some record =>
          dsimp only
          split
          · exact each_pure _
          · refine each_bind (each_rows _) fun count => ?_
            split
            · exact each_exec fun _ _ h => checks_linkEcho h
            · exact each_pure _

theorem each_writeContent (W : World) (id mime : String) (bytes : Bytes)
    (resolved : ResolvedContent) :
    (writeContent P W id mime bytes resolved).Each KeepsChecks := by
  refine each_bind (each_exec fun _ _ h => .of_entries (entries_insertPayload h)) fun _ => ?_
  refine each_bind (each_exec fun _ _ h => .of_entries (entries_insertSearch h)) fun _ => ?_
  refine each_bind (each_forM fun _ _ => each_exec fun _ _ h =>
    .of_entries (entries_insertEntryArtifact h)) fun _ => ?_
  exact each_linkSource W id resolved

theorem each_place (env : Env) (policy : StorePolicy) (mime : String) (bytes : Bytes)
    (candidate : Option String) : (place P env policy mime bytes candidate).Each KeepsChecks := by
  refine each_bind each_bump fun revision => each_bind each_sequence fun recency => ?_
  refine each_bind ?_ fun id => each_bind (each_retain _ _) fun _ => each_summary _ _
  cases candidate with
  | some id => exact each_bind (each_update _ _) fun _ => each_pure _
  | none =>
      dsimp only
      unfold create
      split
      · exact each_throw _
      · refine each_bind (each_exec fun _ _ h => checks_insertEntry h) fun _ => ?_
        exact each_bind (each_writeContent _ _ _ _ _) fun _ => each_pure _

theorem each_insert (env : Env) (mime : String) (bytes : Bytes) :
    (insert P env mime bytes).Each KeepsChecks := by
  refine each_bind (each_rows _) fun policy => ?_
  split
  · exact each_throw _
  · refine each_bind (each_allowedPayload _ _) fun _ => each_bind (each_rows _) fun found => ?_
    cases found with
    | none => exact each_place _ _ _ _ _
    | some id =>
        refine each_bind (each_summary _ _) fun existing => ?_
        split
        · exact each_pure _
        · exact each_place _ _ _ _ _

theorem each_replace (env : Env) (id : String) (expected : Nat) (mime : String) (bytes : Bytes) :
    (replace P env id expected mime bytes).Each KeepsChecks := by
  refine each_bind (each_summary _ _) fun _ => each_bind (each_rows _) fun policy => ?_
  refine each_bind (each_allowedPayload _ _) fun _ => each_bind each_bump fun revision => ?_
  refine each_bind (each_update _ _) fun _ => each_bind (each_update _ _) fun _ => ?_
  refine each_bind (each_exec fun _ _ h => .of_entries (Except.ok.inj h ▸ rfl)) fun _ => ?_
  refine each_bind (each_exec fun _ _ h => .of_entries (Except.ok.inj h ▸ rfl)) fun _ => ?_
  refine each_bind (each_exec fun _ _ h => .of_entries (Except.ok.inj h ▸ rfl)) fun _ => ?_
  exact each_bind (each_writeContent _ _ _ _ _) fun _ =>
    each_bind (each_retain _ _) fun _ => each_summary _ _

theorem each_favorite (id : String) (expected : Nat) (value : Bool) :
    (favorite id expected value).Each KeepsChecks := by
  refine each_bind (each_summary _ _) fun summary => ?_
  split
  · exact each_pure _
  · refine each_bind (each_rows _) fun policy => ?_
    split
    · exact each_throw _
    · exact each_bind each_bump fun _ => each_bind (each_update _ _) fun _ => each_retain _ _

theorem each_applyPolicy (next : StorePolicy) : (applyPolicy next).Each KeepsChecks := by
  refine each_bind (each_rows _) fun policy => ?_
  split
  · exact each_pure _
  · refine each_bind (each_exec fun t t' h => ?_) fun _ =>
      each_bind (each_retain _ _) fun _ => each_bind each_bump fun _ => each_pure _
    unfold Tables.setPolicy at h
    split at h
    · exact .of_entries (Except.ok.inj h ▸ rfl)
    · cases h

end Database

/-! ## Runs -/

/-- Every request keeps the checks. -/
theorem Request.effect_checks {P : Platform} {env : Env} {request : Request} {t t' : Tables}
    {reply : Reply} (h : request.effect P env t = .ok (reply, t')) : KeepsChecks t t' := by
  have hunit {body : Sql Unit} (hbody : body.Each KeepsChecks)
      (h : (unit body).eval t = .ok (reply, t')) : KeepsChecks t t' :=
    hbody.eval KeepsChecks.refl KeepsChecks.trans (unit_ok h).2
  have hentry {body : Sql EntrySummary} (hbody : body.Each KeepsChecks)
      (h : (entry body).eval t = .ok (reply, t')) : KeepsChecks t t' := by
    obtain ⟨summary, -, hrun⟩ := entry_ok h
    exact hbody.eval KeepsChecks.refl KeepsChecks.trans hrun
  cases haside : request.isAside with
  | true => exact .of_entries (effect_isAside haside h).entries
  | false =>
      unfold effect at h
      cases request with
      | applyPolicy next =>
          simp only [job] at h
          split at h
          · exact hunit (Database.each_applyPolicy next) h
          · exact direct_ok h ▸ .refl t
      | insert mime bytes => exact hentry (Database.each_insert env mime bytes) h
      | replace id expected mime bytes =>
          exact hentry (Database.each_replace env id expected mime bytes) h
      | favorite id expected value => exact hunit (Database.each_favorite id expected value) h
      | removeMany targets =>
          simp only [job] at h
          split at h
          · exact direct_ok h ▸ .refl t
          · have ht := (Database.removeMany_ok (unit_ok h).2).2.2
            simp only at ht
            rw [ht]
            exact checks_deleteEntries _
      | wipe =>
          have ht := (Database.wipe_ok (unit_ok h).2).2
          simp only at ht
          rw [ht]
          exact checks_deleteEntries _
      | _ => cases haside

/-- Closing admission leaves the entries alone. -/
theorem entries_transaction_closeAdmission (faults : Faults) (db : Database) :
    (db.transaction faults Database.closeAdmission).2.durable.entries = db.durable.entries := by
  rcases Database.transaction_durable faults Database.closeAdmission db with h | ⟨value, h⟩
  · rw [h]
  · rw [Database.eval_closeAdmission] at h
    exact congrArg (fun r => r.2.entries) (Except.ok.inj h).symm

theorem Store.step_checks (P : Platform) (s : Store) (op : DatabaseOp) :
    KeepsChecks s.committed (s.step P op).committed := by
  cases op with
  | request request env faults =>
      rcases request_durable P s request env faults with h | ⟨reply, h⟩
      · exact .of_entries (congrArg Tables.entries h)
      · exact Request.effect_checks h
  | reopen before after faults =>
      have h := entries_transaction_closeAdmission faults (Database.recovered s.db.durable)
      simp only [step, committed, Database.openExisting]
      split
      · exact .of_entries rfl
      · split
        next heq => rw [heq] at h; exact .of_entries h
        next heq =>
          rw [heq] at h
          split <;> exact .of_entries h
  | shutdown checkpoint faults =>
      have h := entries_transaction_closeAdmission faults s.db
      simp only [step, committed]
      split
      · simp only [Database.shutdown]
        split
        · exact .of_entries rfl
        · split
          next heq => rw [heq] at h; exact .of_entries h
          next heq =>
            rw [heq] at h
            split <;> exact .of_entries h
      · exact .of_entries rfl

/-- Every committed entry passes its checks. -/
theorem Store.after_checked (P : Platform) (ops : List DatabaseOp) :
    (Store.fresh.after P ops).committed.Checks :=
  Transition.foldl_invariant (I := fun s : Store => s.committed.Checks)
    (fun s op h => Store.step_checks P s op h) ops (fun _ he => nomatch he)

/-! ## Counters -/

/-- The sequence number is behind the catalog revision. -/
theorem Change.sequence_le {P : Platform} {t t' : Tables} (hc : Change P t t')
    (h : t.storeMeta.sequence ≤ t.storeMeta.revision) :
    t'.storeMeta.sequence ≤ t'.storeMeta.revision := by
  have hlinked : ∀ (t : Tables) (link : Option String) (id : String),
      (t.linked link id).storeMeta = t.storeMeta := fun _ _ _ => storeMeta_linked _
  cases hc with
  | create env mime bytes =>
      rw [storeMeta_retained, Tables.created, Tables.written, hlinked]
      exact Nat.succ_le_succ h
  | replace env id expected mime bytes =>
      rw [storeMeta_retained, Tables.replaced, Tables.written, hlinked]
      exact Nat.le_succ_of_le h
  | promote => exact Nat.succ_le_succ h
  | policy | favorite | remove | wipe => exact Nat.le_succ_of_le h
  | unchanged | closeAdmission | registerArtifact | forgetArtifact | inlineEchoes => exact h

theorem Store.after_sequence_le (P : Platform) (ops : List DatabaseOp) :
    let t := (Store.fresh.after P ops).committed
    t.storeMeta.sequence ≤ t.storeMeta.revision :=
  Transition.foldl_invariant
    (I := fun s : Store => s.committed.storeMeta.sequence ≤ s.committed.storeMeta.revision)
    (fun s op h => (Store.step_change P s op).sequence_le h) ops le_rfl

/-- What is known of every committed state. -/
structure Reached (P : Platform) (t : Tables) : Prop extends WellFormed P t where
  checks : t.Checks
  sequence_le : t.storeMeta.sequence ≤ t.storeMeta.revision

theorem Store.after_reached (P : Platform) (ops : List DatabaseOp) :
    Reached P (Store.fresh.after P ops).committed :=
  ⟨Store.after_wellFormed P ops, Store.after_checked P ops, Store.after_sequence_le P ops⟩

/-- The sequence number never runs out before the catalog revision does. -/
theorem Reached.sequence_room {P : Platform} {t : Tables} (h : Reached P t)
    (hrevision : t.storeMeta.revision + 1 < MAX_REVISION) : t.storeMeta.sequence + 1 ≤ I64_MAX := by
  have hle := h.sequence_le
  have hmax := MAX_REVISION_le
  omega

end ClipDaemon
