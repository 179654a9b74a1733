import ClipDaemon.Store.Invariant

/-!
# Runs of the database

`Change` lists what an operation can do to the committed tables.  Every operation, with
any arguments and any failures, makes one change (`Store.step_change`), so a property
of all committed states needs one case for each kind of change.

The first such property is the invariant of the tables
(`Store.committed_invariant`).
-/

namespace ClipDaemon

open SideTable Transition

/-! ## Changes -/

/-- What one operation can do to the committed tables. -/
inductive Change (P : Platform) (t : Tables) : Tables → Prop
  | unchanged : Change P t t
  | closeAdmission : Change P t t.closeAdmission
  | policy (next : StorePolicy) (hentries : next.maxEntries ≤ 100000)
      (hfavorites : next.maxFavorites ≤ 10000) (hbytes : next.maxEntryBytes ≤ MAX_ENTRY_BYTES)
      (hrevision : t.storeMeta.revision + 1 < MAX_REVISION) :
      Change P t (({ t with effectivePolicy := next } : Tables).retained next "").bumped
  | promote (mime : String) (bytes : Bytes) (id : String)
      (hduplicate : Database.duplicate P mime bytes t = some id)
      (hrevision : t.storeMeta.revision + 1 < MAX_REVISION)
      (hsequence : t.storeMeta.sequence + 1 ≤ I64_MAX) :
      Change P t ((t.promoted id).retained t.effectivePolicy id)
  | create (env : Env) (mime : String) (bytes : Bytes)
      (hfresh : t.hasEntry ("entry-" ++ env.uuid) = false)
      (hsize : bytes.length ≤ t.effectivePolicy.maxEntryBytes)
      (hrevision : t.storeMeta.revision + 1 < MAX_REVISION)
      (hsequence : t.storeMeta.sequence + 1 ≤ I64_MAX) :
      Change P t ((t.created P env mime bytes).retained t.effectivePolicy ("entry-" ++ env.uuid))
  | replace (env : Env) (id : String) (expected : Nat) (mime : String) (bytes : Bytes)
      (e : EntryRow) (he : Database.findEntry id t = some e) (hexpected : e.revision = expected)
      (hsize : bytes.length ≤ t.effectivePolicy.maxEntryBytes)
      (hrevision : t.storeMeta.revision + 1 < MAX_REVISION) :
      Change P t ((t.replaced P env id expected mime bytes).retained t.effectivePolicy id)
  | favorite (id : String) (expected : Nat) (value : Bool) (e : EntryRow)
      (he : Database.findEntry id t = some e) (hexpected : e.revision = expected)
      (hrevision : t.storeMeta.revision + 1 < MAX_REVISION) :
      Change P t ((t.favorited id expected value).retained t.effectivePolicy id)
  | remove (targets : List EntryTarget) (hrevision : t.storeMeta.revision + 1 < MAX_REVISION) :
      Change P t (t.deleteEntries (t.entryIds fun e => e.id ∈ targets.map (·.opaqueId))).bumped
  | wipe (hrevision : t.storeMeta.revision + 1 < MAX_REVISION) :
      Change P t (t.deleteEntries (t.entryIds fun _ => true)).deleteInlineEchoes.bumped
  | registerArtifact (record : ArtifactRecord) :
      Change P t { t with
        artifacts := t.artifacts.filter (fun a => a.path ≠ record.path) ++ [record] }
  | forgetArtifact (path : FilePath) : Change P t (t.deleteArtifact path)
  | inlineEchoes (records : List InlineEchoRecord) : Change P t { t with inlineEchoes := records }

/-! ## Every request makes a change -/

namespace Request

variable {P : Platform} {env : Env} {t t' : Tables} {reply : Reply}

theorem unit_ok {body : Sql Unit} (h : (unit body).eval t = .ok (reply, t')) :
    reply = .unit ∧ body.eval t = .ok ((), t') := by
  obtain ⟨_, t₁, hbody, h⟩ := Prog.eval_bind_ok.mp h
  rw [Prog.eval_pure] at h
  cases h
  exact ⟨rfl, hbody⟩

theorem entry_ok {body : Sql EntrySummary} (h : (entry body).eval t = .ok (reply, t')) :
    ∃ summary, reply = .entry summary ∧ body.eval t = .ok (summary, t') := by
  obtain ⟨summary, t₁, hbody, h⟩ := Prog.eval_bind_ok.mp h
  rw [Prog.eval_pure] at h
  cases h
  exact ⟨summary, rfl, hbody⟩

theorem direct_ok {body : Sql Reply} (h : (Job.direct body).eval t = .ok (reply, t')) : t' = t := by
  simp only [Job.eval] at h
  cases hbody : body.eval t with
  | error e =>
      rw [hbody] at h
      cases h
  | ok r =>
      rw [hbody] at h
      cases h
      rfl

/-- A successful request makes one change. -/
theorem effect_change {request : Request} (h : request.effect P env t = .ok (reply, t')) :
    Change P t t' := by
  unfold effect at h
  cases request with
  | applyPolicy next =>
      simp only [job] at h
      split at h
      · rcases Database.applyPolicy_ok (unit_ok h).2 with ⟨-, ht⟩ | ⟨h₁, h₂, -, h₄, -, hr, ht⟩
        · simp only at ht
          exact ht ▸ .unchanged
        · simp only at ht
          exact ht ▸ .policy next h₁ h₂ h₄ hr
      · exact direct_ok h ▸ .unchanged
  | insert mime bytes =>
      obtain ⟨summary, -, hbody⟩ := entry_ok h
      obtain ⟨-, hsize, -, hcases⟩ := Database.insert_ok hbody
      rcases hcases with ⟨_, _, -, -, -, ht⟩ | ⟨hr, hs, id, e, -, -, hplaced⟩
      · cases ht
        exact .unchanged
      · rcases hplaced with ⟨hdup, ht⟩ | ⟨-, -, rfl, hfresh, ht⟩
        · simp only at ht
          exact ht ▸ .promote mime bytes id hdup hr hs
        · simp only at ht
          exact ht ▸ .create env mime bytes hfresh hsize hr hs
  | replace id expected mime bytes =>
      obtain ⟨summary, -, hbody⟩ := entry_ok h
      obtain ⟨e, he, hexpected, hsize, -, hr, ht, -⟩ := Database.replace_ok hbody
      simp only at ht
      exact ht ▸ .replace env id expected mime bytes e he hexpected hsize hr
  | favorite id expected value =>
      obtain ⟨e, he, hexpected, hcases⟩ := Database.favorite_ok (unit_ok h).2
      rcases hcases with ⟨-, ht⟩ | ⟨-, hr, ht⟩
      · simp only at ht
        exact ht ▸ .unchanged
      · simp only at ht
        exact ht ▸ .favorite id expected value e he hexpected hr
  | removeMany targets =>
      simp only [job] at h
      split at h
      · exact direct_ok h ▸ .unchanged
      · obtain ⟨-, hr, ht⟩ := Database.removeMany_ok (unit_ok h).2
        simp only at ht
        exact ht ▸ .remove targets hr
  | wipe =>
      obtain ⟨hr, ht⟩ := Database.wipe_ok (unit_ok h).2
      simp only at ht
      exact ht ▸ .wipe hr
  | registerArtifact record =>
      simp only [job] at h
      split at h
      · exact direct_ok h ▸ .unchanged
      · have ht := Database.registerArtifact_ok (unit_ok h).2
        simp only at ht
        exact ht ▸ .registerArtifact record
  | forgetArtifact path =>
      simp only [job] at h
      split at h
      · exact direct_ok h ▸ .unchanged
      · have hbody := (unit_ok h).2
        rw [Database.forgetArtifact, exec_ok] at hbody
        cases hbody
        exact .forgetArtifact _
  | registerInlineEcho record =>
      simp only [job] at h
      split at h
      · have hbody := (unit_ok h).2
        simp only [Database.registerInlineEcho, Prog.eval_bind, eval_exec, Tables.upsertInlineEcho,
          Except.map] at hbody
        cases hbody
        exact .inlineEchoes _
      · exact direct_ok h ▸ .unchanged
  | clearInlineEchoes =>
      have hbody := (unit_ok h).2
      rw [Database.clearInlineEchoes, exec_ok] at hbody
      cases hbody
      exact .inlineEchoes _
  | query _ => exact direct_ok h ▸ .unchanged
  | get _ _ => exact direct_ok h ▸ .unchanged
  | entryRevision _ => exact direct_ok h ▸ .unchanged
  | revision => exact direct_ok h ▸ .unchanged
  | policy => exact direct_ok h ▸ .unchanged
  | artifactGet _ => exact direct_ok h ▸ .unchanged

end Request

/-! ## Every operation makes a change -/

namespace Database

/-- What a transaction leaves committed: nothing new, or what its body computes. -/
theorem transaction_durable {α : Type} (faults : Faults) (body : Sql α) (db : Database) :
    (db.transaction faults body).2.durable = db.durable ∨
      ∃ value, body.eval db.durable = .ok (value, (db.transaction faults body).2.durable) := by
  unfold transaction
  split
  · exact .inl rfl
  · split
    · exact .inl rfl
    · split
      next value written hexec =>
        have heval := Prog.exec_ok hexec
        split
        · split
          · exact .inr ⟨value, heval⟩
          · exact .inl rfl
        · split
          · exact .inr ⟨value, heval⟩
          · exact .inr ⟨value, heval⟩
      · split <;> exact .inl rfl

/-- A transaction that returns a value committed what its body computes. -/
theorem transaction_ok {α : Type} {faults : Faults} {body : Sql α} {db : Database} {value : α}
    (h : (db.transaction faults body).1 = .ok value) :
    body.eval db.durable = .ok (value, (db.transaction faults body).2.durable) ∧
      (db.transaction faults body).2.blocked = db.blocked := by
  unfold transaction at h ⊢
  split at h
  · cases h
  next hblocked =>
    rw [if_neg hblocked]
    split at h
    · cases h
    next hbegins =>
      rw [if_neg hbegins]
      split at h
      next value' written hexec =>
        split at h
        · split at h <;> cases h
        next hcommit =>
          split at h
          · cases h
          next hsidecar =>
            rw [if_neg hsidecar]
            cases h
            exact ⟨Prog.exec_ok hexec, rfl⟩
      · split at h <;> cases h

theorem eval_closeAdmission (t : Tables) : closeAdmission.eval t = .ok ((), t.closeAdmission) := by
  simp [closeAdmission, Except.map]

/-- Closing admission changes nothing else. -/
theorem transaction_closeAdmission (P : Platform) (faults : Faults) (db : Database) :
    Change P db.durable (db.transaction faults closeAdmission).2.durable := by
  rcases transaction_durable faults closeAdmission db with h | ⟨value, h⟩
  · rw [h]
    exact .unchanged
  · rw [eval_closeAdmission, Except.ok.injEq, Prod.mk.injEq] at h
    rw [← h.2]
    exact .closeAdmission

/-- A connection is in no transaction unless the database is fenced. -/
def Settled (db : Database) : Prop := db.blocked = false → db.pending = none

theorem settled_recovered (durable : Tables) : (recovered durable).Settled := fun _ => rfl

theorem settled_transaction {α : Type} (faults : Faults) (body : Sql α) {db : Database}
    (h : db.Settled) : (db.transaction faults body).2.Settled := by
  unfold transaction
  split
  · exact h
  · split
    · exact h
    · split
      · split
        next landed _ => cases landed <;> exact fun hno => Bool.noConfusion hno
        · split
          · exact fun hno => Bool.noConfusion hno
          · exact fun _ => rfl
      · split
        · exact fun hno => Bool.noConfusion hno
        · exact h

/-- Without failures a job does what it computes, and when it fails nothing changes. -/
theorem execute_none (job : Job) (t : Tables) :
    (recovered t).execute .none job = match job.eval t with
      | .ok (reply, t') => (.ok reply, recovered t')
      | .error error => (.error error, recovered t) := by
  cases job with
  | direct body =>
      have hexec := (Prog.exec_nil body t).1
      simp only [execute, recovered, Faults.none, Option.getD_none, hexec, Job.eval]
      cases body.eval t <;> rfl
  | transaction body =>
      obtain ⟨herror, hok⟩ := Prog.exec_nil body t
      simp only [execute, transaction, recovered, Faults.none, Job.eval]
      cases heval : body.eval t with
      | ok r => simp [hok r.1 r.2 heval]
      | error error =>
          rw [heval] at herror
          generalize body.exec [] t = r at herror
          obtain ⟨_, written⟩ := r
          obtain rfl := herror
          simp [Except.map]

end Database

namespace Store

/-- Without failures a request does what its program does. -/
theorem step_calm {P : Platform} {request : Request} {env : Env} {t t' : Tables} {reply : Reply}
    (h : request.effect P env t = .ok (reply, t')) :
    Store.step P ⟨Database.recovered t, true⟩ (.request request env .none) =
      ⟨Database.recovered t', true⟩ := by
  rw [Request.effect] at h
  simp only [step, if_true, Database.execute_none, h]

/-- A request leaves committed what was, or what it computes. -/
theorem request_durable (P : Platform) (s : Store) (request : Request) (env : Env)
    (faults : Faults) :
    (s.step P (.request request env faults)).committed = s.committed ∨ ∃ reply,
      request.effect P env s.committed =
        .ok (reply, (s.step P (.request request env faults)).committed) := by
  simp only [step, committed]
  split
  · cases hjob : request.job P env with
    | direct body => exact .inl rfl
    | transaction body =>
        simp only [Database.execute]
        rcases Database.transaction_durable faults body s.db with h | ⟨reply, h⟩
        · exact .inl h
        · refine .inr ⟨reply, ?_⟩
          rw [Request.effect, hjob]
          exact h
  · exact .inl rfl

/-- Every operation makes one change. -/
theorem step_change (P : Platform) (s : Store) (op : DatabaseOp) :
    Change P s.committed (s.step P op).committed := by
  cases op with
  | request request env faults =>
      rcases request_durable P s request env faults with h | ⟨reply, h⟩
      · rw [h]
        exact .unchanged
      · exact Request.effect_change h
  | reopen before after faults =>
      simp only [step, committed, Database.openExisting]
      split
      · exact .unchanged
      · have h := Database.transaction_closeAdmission P faults (Database.recovered s.db.durable)
        split
        next heq => rw [heq] at h; exact h
        next heq =>
          rw [heq] at h
          split <;> exact h
  | shutdown checkpoint faults =>
      simp only [step, committed]
      split
      · simp only [Database.shutdown]
        split
        · exact .unchanged
        · have h := Database.transaction_closeAdmission P faults s.db
          split
          next heq => rw [heq] at h; exact h
          next heq =>
            rw [heq] at h
            split <;> exact h
      · exact .unchanged

/-- A store that is fenced answers requests, but changes nothing. -/
theorem step_blocked (P : Platform) {s : Store} (h : s.db.blocked = true) {request : Request}
    {env : Env} {faults : Faults} : s.step P (.request request env faults) = s := by
  simp only [step]
  split
  next hopen =>
    have hdb : (s.db.execute faults (request.job P env)).2 = s.db := by
      cases request.job P env with
      | direct body => rfl
      | transaction body => simp only [Database.execute, Database.transaction, h, if_true]
    rw [hdb, ← hopen]
  · rfl

/-- Every operation leaves a settled connection settled. -/
theorem settled_step (P : Platform) {s : Store} (h : s.db.Settled) (op : DatabaseOp) :
    (s.step P op).db.Settled := by
  cases op with
  | request request env faults =>
      simp only [step]
      split
      · cases request.job P env with
        | direct body => exact h
        | transaction body => exact Database.settled_transaction faults body h
      · exact h
  | reopen before after faults =>
      have hclose := Database.settled_transaction faults Database.closeAdmission
        (Database.settled_recovered s.db.durable)
      simp only [step, Database.openExisting]
      split
      · exact Database.settled_recovered _
      · split
        next heq => rw [heq] at hclose; exact hclose
        next heq =>
          rw [heq] at hclose
          split <;> exact hclose
  | shutdown checkpoint faults =>
      have hclose := Database.settled_transaction faults Database.closeAdmission h
      simp only [step, Database.shutdown]
      split
      · split
        · exact h
        · split
          next heq => rw [heq] at hclose; exact hclose
          next heq =>
            rw [heq] at hclose
            split <;> exact hclose
      · exact h

end Store

/-! ## The invariant -/

/-- A change outside the history keeps the invariant. -/
theorem WellFormed.congr {P : Platform} {t t' : Tables} (h : WellFormed P t)
    (hsame : SameHistory t t')
    (hpolicy : t'.effectivePolicy = { t.effectivePolicy with
      admission := t'.effectivePolicy.admission }) : WellFormed P t' where
  toSound := h.toSound.congr hsame <| by
    constructor
    case revision => rw [hsame.storeMeta]; exact h.inRange.revision
    case sequence => rw [hsame.storeMeta]; exact h.inRange.sequence
    case maxEntries => rw [hpolicy]; exact h.inRange.maxEntries
    case maxFavorites => rw [hpolicy]; exact h.inRange.maxFavorites
    case maxEntryBytes => rw [hpolicy]; exact h.inRange.maxEntryBytes
  within := by
    rw [hpolicy, hsame.entries]
    exact ⟨h.within.regular, h.within.favorites, h.within.entryBytes, h.within.totalBytes⟩

/-- A sound state whose protected entry is within the size limit is well formed after
retention. -/
theorem Sound.retained_wellFormed {P : Platform} {t : Tables} {policy : StorePolicy}
    (h : Sound P t) (hpolicy : t.effectivePolicy = policy) (protectedId : String)
    (hp : ∀ e ∈ t.entries, e.id = protectedId → e.byteSize ≤ policy.maxEntryBytes) :
    WellFormed P (t.retained policy protectedId) where
  toSound := h.retained _ _
  within := by
    rw [effectivePolicy_retained, hpolicy]
    exact Within.retained _ protectedId h.stamped hp

theorem WellFormed.bumped {P : Platform} {t : Tables} (h : WellFormed P t)
    (hr : t.storeMeta.revision + 1 < MAX_REVISION) : WellFormed P t.bumped where
  toSound := h.toSound.bumped hr
  within := h.within

/-- Every change keeps the invariant. -/
theorem Change.wellFormed {P : Platform} {t t' : Tables} (hc : Change P t t')
    (h : WellFormed P t) : WellFormed P t' := by
  have hsizes := h.within.entryBytes
  cases hc with
  | unchanged => exact h
  | closeAdmission => exact h.congr ⟨rfl, rfl, rfl, rfl, rfl⟩ rfl
  | policy next hentries hfavorites hbytes hr =>
      have hsound : Sound P { t with effectivePolicy := next } :=
        h.toSound.congr ⟨rfl, rfl, rfl, rfl, rfl⟩
          ⟨h.inRange.revision, h.inRange.sequence, hentries, hfavorites, hbytes⟩
      refine (hsound.retained_wellFormed rfl "" fun e he hid => ?_).bumped hr
      exact absurd hid (h.stamped.named e he)
  | promote mime bytes id _ hr hs =>
      refine (h.toSound.promoted hr hs).retained_wellFormed rfl id fun e he _ => ?_
      refine byteSize_mapEntries (t := t.bumped.sequenced) hsizes ?_ e he
      exact fun _ he => he
  | create env mime bytes hfresh hsize hr hs =>
      refine (h.toSound.created hfresh hr hs).retained_wellFormed ?_ _ fun e he _ => ?_
      · exact effectivePolicy_linked _
      · exact byteSize_created hsizes hsize e he
  | replace env id expected mime bytes e he hexpected hsize hr =>
      obtain ⟨hmem, hid⟩ := Database.findEntry_some he
      refine (h.toSound.replaced hmem hid hexpected hr).retained_wellFormed ?_ id fun e' he' _ => ?_
      · exact effectivePolicy_linked _
      · exact byteSize_replaced hsizes hsize e' he'
  | favorite id expected value e he hexpected hr =>
      refine (h.toSound.favorited hr).retained_wellFormed rfl id fun e' he' _ => ?_
      refine byteSize_mapEntries (t := t.bumped) hsizes ?_ e' he'
      exact fun _ he => he
  | remove targets hr =>
      exact WellFormed.bumped ⟨h.toSound.deleteEntries _, h.within.deleteEntries _⟩ hr
  | wipe hr =>
      have hdeleted : WellFormed P (t.deleteEntries (t.entryIds fun _ => true)) :=
        ⟨h.toSound.deleteEntries _, h.within.deleteEntries _⟩
      exact WellFormed.bumped (hdeleted.congr ⟨rfl, rfl, rfl, rfl, rfl⟩ rfl) hr
  | registerArtifact record => exact h.congr ⟨rfl, rfl, rfl, rfl, rfl⟩ rfl
  | forgetArtifact path => exact h.congr ⟨rfl, rfl, rfl, rfl, rfl⟩ rfl
  | inlineEchoes records => exact h.congr ⟨rfl, rfl, rfl, rfl, rfl⟩ rfl

/-- Every committed state is well formed. -/
theorem Store.after_wellFormed (P : Platform) (ops : List DatabaseOp) :
    WellFormed P (Store.fresh.after P ops).committed :=
  foldl_invariant (I := fun s : Store => WellFormed P s.committed)
    (fun s op h => (Store.step_change P s op).wellFormed h) ops (Tables.fresh_wellFormed P)

theorem Store.after_settled (P : Platform) (ops : List DatabaseOp) :
    (Store.fresh.after P ops).db.Settled :=
  foldl_invariant (I := fun s : Store => s.db.Settled)
    (fun _ op h => Store.settled_step P h op) ops (Database.settled_recovered _)

/-! ## The invariant, row by row -/

/-- What a reader of the tables sees: limits, counters, and for every entry exactly its
side rows. -/
structure StoreInvariant (P : Platform) (t : Tables) : Prop where
  regular : (category false t.entries).length ≤ t.effectivePolicy.maxEntries
  favorites : (category true t.entries).length ≤ t.effectivePolicy.maxFavorites
  entryBytes : ∀ e ∈ t.entries, e.byteSize ≤ t.effectivePolicy.maxEntryBytes
  totalBytes : (t.entries.map (·.byteSize)).sum ≤ t.effectivePolicy.maxTotalBytes
  recencies : (t.entries.map (·.recency)).Nodup
  recency_le : ∀ e ∈ t.entries, e.recency ≤ t.storeMeta.sequence
  revisions : (t.entries.map (·.revision)).Nodup
  revision_le : ∀ e ∈ t.entries, e.revision ≤ t.storeMeta.revision
  /-- One payload with the size and the digest of the entry, and the rows derived from it. -/
  sideRows : ∀ e ∈ t.entries, ∃ bytes,
    t.payloads.filter (fun p => p.entryId = e.id) = [⟨e.id, bytes⟩] ∧
      bytes.length = e.byteSize ∧ P.sha256 bytes = e.digest ∧
      t.searchContent.filter (fun s => s.entryId = e.id) =
        [Database.searchRow P e.id e.mime bytes] ∧
      (t.entryArtifacts.filter fun a => a.entryId = e.id).Perm
        ((artifactPaths P bytes).map fun path => ⟨e.id, path⟩)
  payloadOwners : ∀ p ∈ t.payloads, t.hasEntry p.entryId = true
  searchOwners : ∀ s ∈ t.searchContent, t.hasEntry s.entryId = true
  artifactOwners : ∀ a ∈ t.entryArtifacts, t.hasEntry a.entryId = true
  echoSources : ∀ e ∈ t.entries, ∀ source, e.echoSourceId = some source →
    t.hasEntry source = true

theorem WellFormed.storeInvariant {P : Platform} {t : Tables} (h : WellFormed P t) :
    StoreInvariant P t := by
  obtain ⟨content, hc⟩ := h.contents
  refine {
    regular := h.within.regular, favorites := h.within.favorites
    entryBytes := h.within.entryBytes, totalBytes := h.within.totalBytes
    recencies := h.stamped.recencies, recency_le := h.stamped.recency_le
    revisions := h.stamped.revisions, revision_le := h.stamped.revision_le
    sideRows := fun e he => ⟨content e.id, ?_, hc.size e he, hc.digest e he, ?_, ?_⟩
    payloadOwners := fun p hp => ?_, searchOwners := fun s hs => ?_
    artifactOwners := fun a ha => ?_, echoSources := fun e he source hsource => ?_ }
  · exact List.perm_singleton.mp
      (hc.payloads.filter_key (payloadRows_key content) h.stamped.ids he)
  · exact List.perm_singleton.mp
      (hc.search.filter_key (searchRows_key P content) h.stamped.ids he)
  · exact hc.artifacts.filter_key (artifactRows_key P content) h.stamped.ids he
  · obtain ⟨e, he, -, hid⟩ := hc.payloads.exists_parent (payloadRows_key content) hp
    exact hasEntry_iff.mpr ⟨e, he, hid⟩
  · obtain ⟨e, he, -, hid⟩ := hc.search.exists_parent (searchRows_key P content) hs
    exact hasEntry_iff.mpr ⟨e, he, hid⟩
  · obtain ⟨e, he, -, hid⟩ := hc.artifacts.exists_parent (artifactRows_key P content) ha
    exact hasEntry_iff.mpr ⟨e, he, hid⟩
  · obtain ⟨-, e', he', hid⟩ := h.linked e he source hsource
    exact hasEntry_iff.mpr ⟨e', he', hid⟩

/-- Every committed state of every run from a fresh database satisfies the store
invariant: whatever the operations, their arguments and the failures they meet. -/
theorem Store.committed_invariant (P : Platform) (ops : List DatabaseOp) :
    StoreInvariant P (Store.fresh.after P ops).committed :=
  (Store.after_wellFormed P ops).storeInvariant

end ClipDaemon
