import ClipDaemon.Store.Engine

/-!
# What each operation does to the tables

For every operation one lemma that says what a successful run did.  Each describes the
new tables by a few functions on `Tables`, so that no later proof runs a program again.
-/

namespace ClipDaemon

open Eviction

/-! ## Statements -/

@[simp] theorem eval_exec (f : Tables → BackendResult Tables) (t : Tables) :
    (exec f).eval t = (f t).map fun t' => ((), t') := Prog.eval_update f t

@[simp] theorem eval_rows {α : Type} (f : Tables → α) (t : Tables) :
    (rows f).eval t = .ok (f t, t) := by
  simp [rows, Except.map]

theorem exec_ok {f : Tables → BackendResult Tables} {t t' : Tables} {u : Unit} :
    (exec f).eval t = .ok (u, t') ↔ f t = .ok t' := Prog.eval_update_ok

/-! ## New tables -/

namespace Tables

/-- The next revision. -/
def bumped (t : Tables) : Tables := { t with storeMeta.revision := t.storeMeta.revision + 1 }

/-- The next sequence number. -/
def sequenced (t : Tables) : Tables := { t with storeMeta.sequence := t.storeMeta.sequence + 1 }

/-- The entries with `p` are changed. -/
def mapEntries (p : EntryRow → Bool) (set : EntryRow → EntryRow) (t : Tables) : Tables :=
  { t with entries := t.entries.map fun e => if p e then set e else e }

/-- The tables after retention. -/
def retained (policy : StorePolicy) (protectedId : String) (t : Tables) : Tables :=
  let t₁ := t.deleteEntries (Database.oversized policy.maxEntryBytes protectedId t)
  let t₂ := t₁.deleteEntries (Database.pastCategory false policy.maxEntries protectedId t₁)
  let t₃ := t₂.deleteEntries (Database.pastCategory true policy.maxFavorites protectedId t₂)
  t₃.deleteEntries (Database.pastBudget policy.maxTotalBytes protectedId t₃)

/-- The side rows of a content are added. -/
def withContent (P : Platform) (id mime : String) (bytes : Bytes) (t : Tables) : Tables :=
  { t with
    payloads := t.payloads ++ [⟨id, bytes⟩]
    searchContent := t.searchContent ++ [Database.searchRow P id mime bytes]
    entryArtifacts := t.entryArtifacts ++ (artifactPaths P bytes).map fun path => ⟨id, path⟩ }

/-- The side rows of an entry are deleted. -/
def withoutContent (id : String) (t : Tables) : Tables :=
  ((t.deletePayload id).deleteSearch id).deleteEntryArtifacts id

/-- An entry becomes an echo. -/
def linked (link : Option String) (id : String) (t : Tables) : Tables :=
  match link with
  | none => t
  | some source => t.mapEntries (·.id = id) fun e => { e with echoSourceId := some source }

/-- An identical entry was promoted. -/
def promoted (id : String) (t : Tables) : Tables :=
  t.bumped.sequenced.mapEntries (·.id = id) fun e =>
    { e with revision := t.storeMeta.revision + 1, recency := t.storeMeta.sequence + 1 }

/-- The row of a new entry was added. -/
def withEntry (P : Platform) (env : Env) (mime : String) (bytes : Bytes) (t : Tables) : Tables :=
  { t.bumped.sequenced with
    entries := t.entries ++
      [Database.newEntry P env.world ("entry-" ++ env.uuid) mime bytes (t.storeMeta.revision + 1)
        (t.storeMeta.sequence + 1)] }

/-- The links to an entry are cleared. -/
def clearLinks (id : String) (t : Tables) : Tables :=
  t.mapEntries (·.echoSourceId = some id) fun e => { e with echoSourceId := none }

/-- The row of an entry was rewritten and the links to it cleared. -/
def rewritten (P : Platform) (env : Env) (id : String) (expected : Nat) (mime : String)
    (bytes : Bytes) (t : Tables) : Tables :=
  let content := ResolvedContent.resolve P env.world mime bytes MAX_ENTRY_BYTES
  (t.bumped.mapEntries (fun e => e.id = id && (e.revision : Int) = asI64 expected) fun e =>
    { e with
      revision := t.storeMeta.revision + 1, mime, byteSize := bytes.length
      digest := P.sha256 bytes, preview := boundedPreview bytes INSPECTION_LIMIT
      kind := content.kind, resolvedMime := content.mime, echoSourceId := none }).clearLinks id

/-- A favorite flag was changed. -/
def favorited (id : String) (expected : Nat) (value : Bool) (t : Tables) : Tables :=
  t.bumped.mapEntries (fun e => e.id = id && (e.revision : Int) = asI64 expected) fun e =>
    { e with favorite := value, revision := t.storeMeta.revision + 1 }

end Tables

namespace Database

/-- The entry that `linkSource` makes `id` an echo of. -/
def linkTarget (P : Platform) (W : World) (id : String) (resolved : ResolvedContent) (t : Tables) :
    Option String := do
  let source ← resolved.localImage
  let path ← toStr source.path
  let record ← t.artifacts.find? fun a => a.path = path
  if record.sourceEntryId ≠ id ∧ (t.entryIds fun e => e.id = record.sourceEntryId).length = 1 ∧
      matchesRecord P W source record then
    some record.sourceEntryId
  else none

end Database

namespace Tables

/-- A content is written for the entry `id`. -/
def written (P : Platform) (env : Env) (id mime : String) (bytes : Bytes) (t : Tables) : Tables :=
  (t.withContent P id mime bytes).linked
    (Database.linkTarget P env.world id
      (ResolvedContent.resolve P env.world mime bytes MAX_ENTRY_BYTES) t) id

/-- A new entry was added. -/
def created (P : Platform) (env : Env) (mime : String) (bytes : Bytes) (t : Tables) : Tables :=
  (t.withEntry P env mime bytes).written P env ("entry-" ++ env.uuid) mime bytes

/-- The content of an entry was replaced. -/
def replaced (P : Platform) (env : Env) (id : String) (expected : Nat) (mime : String)
    (bytes : Bytes) (t : Tables) : Tables :=
  ((t.rewritten P env id expected mime bytes).withoutContent id).written P env id mime bytes

end Tables

namespace Database

/-! ## Counters -/

theorem incrementRevision_ok {t t' : Tables} :
    t.incrementRevision = .ok t' ↔ t.storeMeta.revision + 1 < MAX_REVISION ∧ t' = t.bumped := by
  unfold Tables.incrementRevision Tables.bumped
  split
  next h => simp [h, eq_comm]
  next h => simp [h]

theorem incrementSequence_ok {t t' : Tables} :
    t.incrementSequence = .ok t' ↔ t.storeMeta.sequence + 1 ≤ I64_MAX ∧ t' = t.sequenced := by
  unfold Tables.incrementSequence Tables.sequenced
  split
  next h => simp [h, eq_comm]
  next h => simp [h]

theorem bump_ok {t : Tables} {r : Nat × Tables} :
    bump.eval t = .ok r ↔
      t.storeMeta.revision + 1 < MAX_REVISION ∧ r = (t.storeMeta.revision + 1, t.bumped) := by
  simp only [bump, Prog.eval_bind_ok, exec_ok, incrementRevision_ok, revision, eval_rows]
  constructor
  · rintro ⟨-, t', ⟨h, rfl⟩, hr⟩
    exact ⟨h, (Except.ok.inj hr).symm⟩
  · rintro ⟨h, rfl⟩
    exact ⟨(), _, ⟨h, rfl⟩, rfl⟩

theorem sequence_ok {t : Tables} {r : Nat × Tables} :
    sequence.eval t = .ok r ↔
      t.storeMeta.sequence + 1 ≤ I64_MAX ∧ r = (t.storeMeta.sequence + 1, t.sequenced) := by
  simp only [sequence, Prog.eval_bind_ok, exec_ok, incrementSequence_ok, eval_rows]
  constructor
  · rintro ⟨-, t', ⟨h, rfl⟩, hr⟩
    exact ⟨h, (Except.ok.inj hr).symm⟩
  · rintro ⟨h, rfl⟩
    exact ⟨(), _, ⟨h, rfl⟩, rfl⟩

/-! ## Reading one entry -/

theorem findEntry_some {id : String} {t : Tables} {e : EntryRow} (h : findEntry id t = some e) :
    e ∈ t.entries ∧ e.id = id := by
  refine ⟨List.mem_of_find?_eq_some h, ?_⟩
  simpa using List.find?_some h

/-- A summary is read from an entry at the expected revision, and changes nothing. -/
theorem summary_ok {id : String} {expected : Option Nat} {t : Tables} {r : EntrySummary × Tables} :
    (summary id expected).eval t = .ok r ↔
      ∃ e, findEntry id t = some e ∧ (∀ n, expected = some n → n = e.revision) ∧
        r = (decodeSummary t e, t) := by
  simp only [summary, Prog.eval_bind, eval_rows]
  cases findEntry id t with
  | none => simp
  | some e =>
      simp only [Option.map_some, Option.some.injEq, exists_eq_left']
      cases expected with
      | none => simp [eq_comm]
      | some n =>
          by_cases hn : n = e.revision
          · simp [hn, decodeSummary, eq_comm]
          · simp [hn, decodeSummary]

/-! ## Retention -/

@[simp] theorem eval_deleteWhere (select : Tables → List String) (t : Tables) :
    (deleteWhere select).eval t = .ok ((), t.deleteEntries (select t)) := by
  simp [deleteWhere, Except.map]

/-- Retention deletes in four steps; a protected entry is still there afterwards. -/
theorem retain_ok {policy : StorePolicy} {protectedEntry : Option String} {t : Tables}
    {r : Unit × Tables} (h : (retain policy protectedEntry).eval t = .ok r) :
    r.2 = t.retained policy (protectedEntry.getD "") ∧
      (protectedEntry.getD "" ≠ "" → ∃ e, findEntry (protectedEntry.getD "") r.2 = some e) := by
  simp only [retain, Prog.eval_bind, eval_deleteWhere, List.forM_eq_forM, List.forM_cons,
    List.forM_nil, Prog.eval_pure] at h
  split at h
  next hid =>
    rw [Prog.eval_pure] at h
    cases h
    exact ⟨rfl, fun hne => absurd hid hne⟩
  next hid =>
    obtain ⟨s, t', hs, hr⟩ := Prog.eval_bind_ok.mp h
    obtain ⟨e, he, -, hst⟩ := summary_ok.mp hs
    cases hst
    rw [Prog.eval_pure] at hr
    cases hr
    exact ⟨rfl, fun _ => ⟨e, he⟩⟩

theorem updateEntries_ok {p : EntryRow → Bool} {set : EntryRow → EntryRow} {t t' : Tables} :
    t.updateEntries p set = .ok t' ↔
      (∀ e ∈ t.entries, p e = true → (set e).check = true) ∧ t' = t.mapEntries p set := by
  unfold Tables.updateEntries Tables.mapEntries
  have hall : ((t.entries.filter p).all fun e => (set e).check) = true ↔
      ∀ e ∈ t.entries, p e = true → (set e).check = true := by
    simp only [List.all_eq_true, List.mem_filter, and_imp]
  split
  next h => exact ⟨fun ht => ⟨hall.mp h, (Except.ok.inj ht).symm⟩, fun ht => congrArg _ ht.2.symm⟩
  next h => exact ⟨fun ht => (nomatch ht), fun ht => absurd (hall.mpr ht.1) h⟩

theorem applyPolicy_ok {next : StorePolicy} {t : Tables} {r : Unit × Tables}
    (h : (applyPolicy next).eval t = .ok r) :
    (t.effectivePolicy = next ∧ r.2 = t) ∨
      (next.maxEntries ≤ 100000 ∧ next.maxFavorites ≤ 10000 ∧ 1 ≤ next.maxEntryBytes ∧
        next.maxEntryBytes ≤ MAX_ENTRY_BYTES ∧ 0 < next.maxTotalBytes ∧
        t.storeMeta.revision + 1 < MAX_REVISION ∧
        r.2 = (({ t with effectivePolicy := next } : Tables).retained next "").bumped) := by
  simp only [applyPolicy, policy, Prog.eval_bind, eval_rows] at h
  split at h
  next heq =>
    rw [Prog.eval_pure] at h
    cases h
    exact .inl ⟨heq, rfl⟩
  next hne =>
    obtain ⟨_, t₁, hset, h⟩ := Prog.eval_bind_ok.mp h
    obtain ⟨_, t₂, hretain, h⟩ := Prog.eval_bind_ok.mp h
    obtain ⟨_, t₃, hbump, h⟩ := Prog.eval_bind_ok.mp h
    rw [exec_ok] at hset
    unfold Tables.setPolicy at hset
    split at hset
    next hcheck =>
      cases hset
      obtain ⟨hm, hb⟩ := bump_ok.mp hbump
      have ht₂ := (retain_ok hretain).1
      cases hb
      rw [Prog.eval_pure] at h
      cases h
      simp only [Option.getD_none] at ht₂
      subst ht₂
      exact .inr ⟨hcheck.1, hcheck.2.1, hcheck.2.2.1, hcheck.2.2.2.1, hcheck.2.2.2.2, hm, rfl⟩
    next => cases hset

/-! ## Writing content -/

theorem allowedPayload_ok {policy : StorePolicy} {bytes : Bytes} {t : Tables} {r : Unit × Tables}
    (h : (allowedPayload policy bytes).eval t = .ok r) :
    bytes.length ≤ policy.maxEntryBytes ∧ bytes.length ≤ policy.maxTotalBytes ∧ r.2 = t := by
  unfold allowedPayload at h
  split at h
  · rw [Prog.eval_throw] at h
    cases h
  next hlimits =>
    rw [Prog.eval_pure] at h
    cases h
    exact ⟨by omega, by omega, rfl⟩

theorem insertEntryArtifacts_ok {id : String} {paths : List FilePath} {t : Tables}
    {r : Unit × Tables}
    (h : (paths.forM fun path => exec (Tables.insertEntryArtifact ⟨id, path⟩)).eval t = .ok r) :
    r.2 = { t with
      entryArtifacts := t.entryArtifacts ++ paths.map fun path => ⟨id, path⟩ } := by
  induction paths generalizing t with
  | nil =>
      simp only [List.forM_eq_forM, List.forM_nil, Prog.eval_pure] at h
      cases h
      simp
  | cons path paths ih =>
      rw [List.forM_eq_forM, List.forM_cons] at h
      obtain ⟨_, t', hrow, hrest⟩ := Prog.eval_bind_ok.mp h
      rw [exec_ok] at hrow
      unfold Tables.insertEntryArtifact at hrow
      split at hrow
      · cases hrow
      · split at hrow
        · cases hrow
        · cases hrow
          rw [ih hrest]
          simp

theorem linkSource_ok {P : Platform} {W : World} {id : String} {resolved : ResolvedContent}
    {t : Tables} {r : Unit × Tables} (h : (linkSource P W id resolved).eval t = .ok r) :
    r.2 = t.linked (linkTarget P W id resolved t) id := by
  unfold linkSource at h
  unfold linkTarget
  cases hl : resolved.localImage with
  | none =>
      simp only [hl, Prog.eval_pure] at h
      cases h
      rfl
  | some source =>
      simp only [hl] at h
      simp only [Option.bind_eq_bind, Option.bind_some]
      cases hp : toStr source.path with
      | none =>
          simp only [hp, Prog.eval_pure] at h
          cases h
          rfl
      | some path =>
          simp only [hp, artifactGet, Prog.eval_bind, eval_rows] at h
          simp only [Option.bind_some]
          cases hr : t.artifacts.find? fun a => a.path = path with
          | none =>
              simp only [hr, Prog.eval_pure] at h
              cases h
              rfl
          | some record =>
              simp only [hr] at h
              simp only [Option.bind_some]
              split at h
              next hid =>
                rw [Prog.eval_pure] at h
                cases h
                rw [if_neg fun hc => hc.1 hid]
                rfl
              next hid =>
                simp only [Prog.eval_bind, eval_rows] at h
                split at h
                next hc =>
                  rw [if_pos ⟨hid, hc⟩]
                  obtain ⟨_, t'⟩ := r
                  rw [exec_ok] at h
                  unfold Tables.linkEcho at h
                  split at h
                  · cases h
                    simp [Tables.linked, Tables.mapEntries]
                  · cases h
                next hc =>
                  rw [Prog.eval_pure] at h
                  cases h
                  rw [if_neg fun hc' => hc hc'.2]
                  rfl

theorem writeContent_ok {P : Platform} {W : World} {id mime : String} {bytes : Bytes}
    {resolved : ResolvedContent} {t : Tables} {r : Unit × Tables}
    (h : (writeContent P W id mime bytes resolved).eval t = .ok r) :
    r.2 = (t.withContent P id mime bytes).linked (linkTarget P W id resolved t) id := by
  unfold writeContent at h
  obtain ⟨_, t₁, hpayload, h⟩ := Prog.eval_bind_ok.mp h
  obtain ⟨_, t₂, hsearch, h⟩ := Prog.eval_bind_ok.mp h
  obtain ⟨_, t₃, hartifacts, hlink⟩ := Prog.eval_bind_ok.mp h
  rw [exec_ok] at hpayload hsearch
  have ht₁ : t₁ = { t with payloads := t.payloads ++ [⟨id, bytes⟩] } := by
    unfold Tables.insertPayload at hpayload
    split at hpayload
    · cases hpayload
    · split at hpayload
      · cases hpayload
      · split at hpayload
        · exact (Except.ok.inj hpayload).symm
        · cases hpayload
  have ht₂ : t₂ = { t₁ with searchContent := t₁.searchContent ++ [searchRow P id mime bytes] } := by
    unfold Tables.insertSearch at hsearch
    split at hsearch
    · cases hsearch
    · split at hsearch
      · cases hsearch
      · exact (Except.ok.inj hsearch).symm
  have ht₃ : t₃ = t.withContent P id mime bytes := by
    have := insertEntryArtifacts_ok hartifacts
    simp only at this
    rw [this, ht₂, ht₁]
    rfl
  rw [linkSource_ok hlink]
  subst ht₃
  rfl

/-! ## Insert -/

theorem promote_ok {id : String} {revision recency : Nat} {t : Tables} {r : String × Tables}
    (h : (promote id revision recency).eval t = .ok r) :
    r = (id, t.mapEntries (·.id = id) fun e => { e with revision, recency }) := by
  obtain ⟨_, t', hupdate, h⟩ := Prog.eval_bind_ok.mp h
  rw [exec_ok, updateEntries_ok] at hupdate
  rw [Prog.eval_pure] at h
  rw [← Except.ok.inj h, hupdate.2]

theorem create_ok {P : Platform} {env : Env} {policy : StorePolicy} {mime : String} {bytes : Bytes}
    {t : Tables} {r : String × Tables}
    (h : (create P env policy mime bytes (t.storeMeta.revision + 1)
      (t.storeMeta.sequence + 1)).eval t.bumped.sequenced = .ok r) :
    policy.maxEntries ≠ 0 ∧ t.hasEntry ("entry-" ++ env.uuid) = false ∧
      r = ("entry-" ++ env.uuid, t.created P env mime bytes) := by
  unfold create at h
  split at h
  · rw [Prog.eval_throw] at h
    cases h
  next hmax =>
    obtain ⟨_, t₁, hrow, h⟩ := Prog.eval_bind_ok.mp h
    obtain ⟨_, t₂, hcontent, h⟩ := Prog.eval_bind_ok.mp h
    rw [exec_ok] at hrow
    rw [Prog.eval_pure] at h
    have ht₂ := writeContent_ok hcontent
    unfold Tables.insertEntry at hrow
    split at hrow
    · cases hrow
    next hfresh =>
      split at hrow
      · have ht₁ := Except.ok.inj hrow
        have hr := Except.ok.inj h
        subst ht₁ hr
        exact ⟨hmax, Bool.eq_false_of_not_eq_true hfresh, Prod.ext rfl ht₂⟩
      · cases hrow

/-- What the changing part of `insert` leaves: the placed entry, and the rest retained. -/
theorem place_ok {P : Platform} {env : Env} {policy : StorePolicy} {mime : String} {bytes : Bytes}
    {candidate : Option String} {t : Tables} {r : EntrySummary × Tables}
    (h : (place P env policy mime bytes candidate).eval t = .ok r) :
    t.storeMeta.revision + 1 < MAX_REVISION ∧ t.storeMeta.sequence + 1 ≤ I64_MAX ∧
      ∃ id e, findEntry id r.2 = some e ∧ r.1 = decodeSummary r.2 e ∧
        ((candidate = some id ∧ r.2 = (t.promoted id).retained policy id) ∨
          (candidate = none ∧ policy.maxEntries ≠ 0 ∧ id = "entry-" ++ env.uuid ∧
            t.hasEntry id = false ∧ r.2 = (t.created P env mime bytes).retained policy id)) := by
  unfold place at h
  obtain ⟨_, t₁, hbump, h⟩ := Prog.eval_bind_ok.mp h
  obtain ⟨hrevision, hb⟩ := bump_ok.mp hbump
  cases hb
  obtain ⟨_, t₂, hsequence, h⟩ := Prog.eval_bind_ok.mp h
  obtain ⟨hseq, hs⟩ := sequence_ok.mp hsequence
  cases hs
  refine ⟨hrevision, hseq, ?_⟩
  obtain ⟨id, t₃, hplace, h⟩ := Prog.eval_bind_ok.mp h
  obtain ⟨_, t₄, hretain, h⟩ := Prog.eval_bind_ok.mp h
  obtain ⟨e, he, -, hr⟩ := summary_ok.mp h
  cases hr
  have ht₄ := (retain_ok hretain).1
  simp only [Option.getD_some] at ht₄
  refine ⟨id, e, he, rfl, ?_⟩
  cases candidate with
  | some id' =>
      cases promote_ok hplace
      exact .inl ⟨rfl, ht₄⟩
  | none =>
      obtain ⟨hmax, hfresh, hr⟩ := create_ok hplace
      cases hr
      exact .inr ⟨rfl, hmax, rfl, hfresh, ht₄⟩

/-- A successful insert found admission open and the payload within the limits.  It found
the content current already, or promoted an identical entry, or created an entry. -/
theorem insert_ok {P : Platform} {env : Env} {mime : String} {bytes : Bytes} {t : Tables}
    {r : EntrySummary × Tables} (h : (insert P env mime bytes).eval t = .ok r) :
    t.effectivePolicy.admission = true ∧ bytes.length ≤ t.effectivePolicy.maxEntryBytes ∧
      bytes.length ≤ t.effectivePolicy.maxTotalBytes ∧
      ((∃ id e, duplicate P mime bytes t = some id ∧ findEntry id t = some e ∧
          e.recency = maxRecency t ∧ r = (decodeSummary t e, t)) ∨
        (t.storeMeta.revision + 1 < MAX_REVISION ∧ t.storeMeta.sequence + 1 ≤ I64_MAX ∧
          ∃ id e, findEntry id r.2 = some e ∧ r.1 = decodeSummary r.2 e ∧
            ((duplicate P mime bytes t = some id ∧
                r.2 = (t.promoted id).retained t.effectivePolicy id) ∨
              (duplicate P mime bytes t = none ∧ t.effectivePolicy.maxEntries ≠ 0 ∧
                id = "entry-" ++ env.uuid ∧ t.hasEntry id = false ∧
                r.2 = (t.created P env mime bytes).retained t.effectivePolicy id)))) := by
  simp only [insert, policy, Prog.eval_bind, eval_rows] at h
  split at h
  · rw [Prog.eval_throw] at h
    cases h
  next hadmission =>
    obtain ⟨_, t₁, hallowed, h⟩ := Prog.eval_bind_ok.mp h
    obtain ⟨hentry, htotal, ht⟩ := allowedPayload_ok hallowed
    subst ht
    refine ⟨by simpa using hadmission, hentry, htotal, ?_⟩
    simp only [Prog.eval_bind, eval_rows] at h
    cases hdup : duplicate P mime bytes t₁ with
    | none =>
        rw [hdup] at h
        exact .inr (place_ok h)
    | some id =>
        rw [hdup] at h
        obtain ⟨existing, t₂, hsummary, h⟩ := Prog.eval_bind_ok.mp h
        obtain ⟨e, he, -, hst⟩ := summary_ok.mp hsummary
        cases hst
        split at h
        next hcurrent =>
          rw [Prog.eval_pure] at h
          exact .inl ⟨id, e, rfl, he, by simpa [decodeSummary] using hcurrent,
            (Except.ok.inj h).symm⟩
        · exact .inr (place_ok h)

/-! ## Replace, favorite, remove, wipe -/

theorem replace_ok {P : Platform} {env : Env} {id : String} {expected : Nat} {mime : String}
    {bytes : Bytes} {t : Tables} {r : EntrySummary × Tables}
    (h : (replace P env id expected mime bytes).eval t = .ok r) :
    ∃ e, findEntry id t = some e ∧ e.revision = expected ∧
      bytes.length ≤ t.effectivePolicy.maxEntryBytes ∧
      bytes.length ≤ t.effectivePolicy.maxTotalBytes ∧
      t.storeMeta.revision + 1 < MAX_REVISION ∧
      r.2 = (t.replaced P env id expected mime bytes).retained t.effectivePolicy id ∧
      ∃ e', findEntry id r.2 = some e' ∧ r.1 = decodeSummary r.2 e' := by
  unfold replace at h
  obtain ⟨_, t₁, hsummary, h⟩ := Prog.eval_bind_ok.mp h
  obtain ⟨e, he, hexpected, hst⟩ := summary_ok.mp hsummary
  cases hst
  simp only [policy, Prog.eval_bind (rows _), eval_rows] at h
  obtain ⟨_, t₂, hallowed, h⟩ := Prog.eval_bind_ok.mp h
  obtain ⟨hentry, htotal, ht⟩ := allowedPayload_ok hallowed
  subst ht
  obtain ⟨_, t₃, hbump, h⟩ := Prog.eval_bind_ok.mp h
  obtain ⟨hrevision, hb⟩ := bump_ok.mp hbump
  cases hb
  obtain ⟨_, t₄, hrow, h⟩ := Prog.eval_bind_ok.mp h
  obtain ⟨_, t₅, hlinks, h⟩ := Prog.eval_bind_ok.mp h
  rw [exec_ok, updateEntries_ok] at hrow hlinks
  obtain ⟨-, rfl⟩ := hrow
  obtain ⟨-, rfl⟩ := hlinks
  simp only [Prog.eval_bind (exec _), eval_exec, Except.map] at h
  obtain ⟨_, t₆, hcontent, h⟩ := Prog.eval_bind_ok.mp h
  obtain ⟨_, t₇, hretain, h⟩ := Prog.eval_bind_ok.mp h
  obtain ⟨e', he', -, hr⟩ := summary_ok.mp h
  cases hr
  have ht₆ := writeContent_ok hcontent
  have ht₇ := (retain_ok hretain).1
  simp only [Option.getD_some] at ht₆ ht₇
  refine ⟨e, he, (hexpected expected rfl).symm, hentry, htotal, hrevision, ?_, e', he', rfl⟩
  rw [ht₇, ht₆]
  rfl

theorem favorite_ok {id : String} {expected : Nat} {value : Bool} {t : Tables} {r : Unit × Tables}
    (h : (favorite id expected value).eval t = .ok r) :
    ∃ e, findEntry id t = some e ∧ e.revision = expected ∧
      ((e.favorite = value ∧ r.2 = t) ∨
        (e.favorite ≠ value ∧ t.storeMeta.revision + 1 < MAX_REVISION ∧
          r.2 = (t.favorited id expected value).retained t.effectivePolicy id)) := by
  unfold favorite at h
  obtain ⟨_, t₁, hsummary, h⟩ := Prog.eval_bind_ok.mp h
  obtain ⟨e, he, hexpected, hst⟩ := summary_ok.mp hsummary
  cases hst
  refine ⟨e, he, (hexpected expected rfl).symm, ?_⟩
  split at h
  next hsame =>
    rw [Prog.eval_pure] at h
    cases h
    exact .inl ⟨hsame, rfl⟩
  next hchange =>
    simp only [policy, Prog.eval_bind (rows _), eval_rows] at h
    split at h
    · rw [Prog.eval_throw] at h
      cases h
    · obtain ⟨_, t₃, hbump, h⟩ := Prog.eval_bind_ok.mp h
      obtain ⟨hrevision, hb⟩ := bump_ok.mp hbump
      cases hb
      obtain ⟨_, t₄, hrow, hretain⟩ := Prog.eval_bind_ok.mp h
      rw [exec_ok, updateEntries_ok] at hrow
      obtain ⟨-, rfl⟩ := hrow
      exact .inr ⟨hchange, hrevision, (retain_ok hretain).1⟩

theorem removeMany_ok {targets : List EntryTarget} {t : Tables} {r : Unit × Tables}
    (h : (removeMany targets).eval t = .ok r) :
    countJoin (fun target e => e.id = target.opaqueId &&
        (e.revision : Int) = asI64 target.expectedRevision.toNat) targets t = targets.length ∧
      t.storeMeta.revision + 1 < MAX_REVISION ∧
      r.2 = (t.deleteEntries (t.entryIds fun e => e.id ∈ targets.map (·.opaqueId))).bumped := by
  simp only [removeMany, Prog.eval_bind (rows _), eval_rows] at h
  split at h
  next hvalid =>
    simp only [Prog.eval_bind, eval_rows] at h
    split at h
    · rw [Prog.eval_throw] at h
      cases h
    · rw [Prog.eval_throw] at h
      cases h
  next hvalid =>
    simp only [Prog.eval_bind (deleteWhere _), eval_deleteWhere] at h
    obtain ⟨_, t₁, hbump, h⟩ := Prog.eval_bind_ok.mp h
    obtain ⟨hrevision, hb⟩ := bump_ok.mp hbump
    cases hb
    rw [Prog.eval_pure] at h
    cases h
    exact ⟨by simpa using hvalid, hrevision, rfl⟩

theorem wipe_ok {t : Tables} {r : Unit × Tables} (h : wipe.eval t = .ok r) :
    t.storeMeta.revision + 1 < MAX_REVISION ∧
      r.2 = (t.deleteEntries (t.entryIds fun _ => true)).deleteInlineEchoes.bumped := by
  simp only [wipe, Prog.eval_bind (deleteWhere _), eval_deleteWhere, Prog.eval_bind (exec _),
    eval_exec, Except.map] at h
  obtain ⟨_, t₁, hbump, h⟩ := Prog.eval_bind_ok.mp h
  obtain ⟨hrevision, hb⟩ := bump_ok.mp hbump
  cases hb
  rw [Prog.eval_pure] at h
  cases h
  exact ⟨hrevision, rfl⟩

/-! ## Registries -/

theorem registerArtifact_ok {record : ArtifactRecord} {t : Tables} {r : Unit × Tables}
    (h : (registerArtifact record).eval t = .ok r) :
    r.2 = { t with
      artifacts := t.artifacts.filter (fun a => a.path ≠ record.path) ++ [record] } := by
  simp only [registerArtifact, Prog.eval_bind (rows _), eval_rows] at h
  obtain ⟨present, t₁, hpresent, hwrite⟩ := Prog.eval_bind_ok.mp h
  have ht₁ : t₁ = t := by
    split at hpresent
    · rw [eval_rows] at hpresent
      cases hpresent
      rfl
    · rw [Prog.eval_pure] at hpresent
      cases hpresent
      rfl
  subst ht₁
  split at hwrite
  · rw [Prog.eval_throw] at hwrite
    cases hwrite
  · obtain ⟨_, t'⟩ := r
    rw [exec_ok] at hwrite
    cases hwrite
    rfl

/-! ## Query -/

/-- The page a query returns. -/
def pageOf (P : Platform) (query : HistoryQuery) (t : Tables) : HistoryPage :=
  let limit := min query.limit MAX_QUERY_LIMIT
  let offset := if query.offset ≤ I64_MAX then query.offset else I64_MAX
  let matching := selected P (HistoryQuery.needle P query) query.collapseSelfEchoes t
  let current := currentEntry query.collapseSelfEchoes t
  let page := (pageRows limit offset matching).map (decodeSummary t)
  let entries := (page.take limit).map fun e =>
    { e with current := current.any fun c => c.id = e.id }
  { total := matching.length, revision := t.storeMeta.revision, generation := query.generation
    current, entries, hasMore := limit < page.length
    nextOffset :=
      if limit < page.length ∧ 0 < limit ∧ query.offset + entries.length < 2 ^ 64 then
        some (query.offset + entries.length)
      else none }

/-- A query returns its page and changes nothing. -/
theorem eval_query (P : Platform) (q : HistoryQuery) (t : Tables) :
    (query P q).eval t = .ok (pageOf P q t, t) := by
  simp only [query, revision, Prog.eval_bind, eval_rows, Prog.eval_pure, pageOf]

end Database
end ClipDaemon
