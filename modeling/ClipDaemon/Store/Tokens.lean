import ClipDaemon.Store.Runs

/-!
# Revision tokens

Two tokens identify what a client saw: the revision of an entry, and the catalog
revision.  Neither is given twice to different content.

An entry with its payload is an *item*, stamped with the entry's revision.  Every change
advances the snapshot of the items (`Change.advances`): an item that is not newer than
the old catalog revision was there before.  And every change that touches what a query
reads moves the catalog revision (`Change.sealed`).
-/

namespace ClipDaemon

open Versions Transition

/-! ## Items and views -/

/-- What the revision of an entry stands for. -/
structure Item where
  id : String
  revision : Nat
  mime : String
  favorite : Bool
  recency : Nat
  payload : List PayloadRow
deriving DecidableEq

namespace Tables

/-- The payload rows of an entry. -/
def payloadOf (t : Tables) (id : String) : List PayloadRow :=
  t.payloads.filter fun p => p.entryId = id

/-- An entry with its payload. -/
def item (t : Tables) (e : EntryRow) : Item where
  id := e.id
  revision := e.revision
  mime := e.mime
  favorite := e.favorite
  recency := e.recency
  payload := t.payloadOf e.id

/-- The items at a catalog revision. -/
def snapshot (t : Tables) : Snapshot Item := ⟨t.storeMeta.revision, t.entries.map t.item⟩

/-- Everything a query reads but the catalog revision. -/
def view (t : Tables) : List EntryRow × List SearchRow := (t.entries, t.searchContent)

end Tables

theorem advances_of {t t' : Tables} (hclock : t.storeMeta.revision ≤ t'.storeMeta.revision)
    (h : ∀ e' ∈ t'.entries, e'.revision ≤ t.storeMeta.revision →
      ∃ e ∈ t.entries, t.item e = t'.item e') :
    Advances Item.revision t.snapshot t'.snapshot where
  clock_le := hclock
  old i hi hle := by
    obtain ⟨e', he', rfl⟩ := List.mem_map.mp hi
    obtain ⟨e, he, heq⟩ := h e' he' hle
    exact List.mem_map.mpr ⟨e, he, heq⟩

/-! ## Each change advances the items -/

section Steps

variable {P : Platform} {env : Env} {t : Tables} {id mime : String} {bytes : Bytes}

theorem payloadOf_deleteEntries {ids : List String} (h : id ∉ ids) :
    (t.deleteEntries ids).payloadOf id = t.payloadOf id := by
  simp only [Tables.payloadOf, Tables.deleteEntries, Eviction.deleteKeys, List.filter_filter]
  refine List.filter_congr fun p _ => ?_
  by_cases hp : p.entryId = id
  · simp [hp, h]
  · simp [hp]

theorem advances_deleteEntries (ids : List String) :
    Advances Item.revision t.snapshot (t.deleteEntries ids).snapshot := by
  refine advances_of le_rfl fun e' he' _ => ?_
  obtain ⟨e, he, hkept, rfl⟩ := (mem_deleteEntries ids).mp he'
  refine ⟨e, he, ?_⟩
  simp only [Tables.item, EntryRow.unlink_id, EntryRow.unlink_revision, EntryRow.unlink_mime,
    EntryRow.unlink_favorite, EntryRow.unlink_recency, payloadOf_deleteEntries hkept]

theorem advances_retained (policy : StorePolicy) (protectedId : String) :
    Advances Item.revision t.snapshot (t.retained policy protectedId).snapshot :=
  (((advances_deleteEntries _).trans (advances_deleteEntries _)).trans
    (advances_deleteEntries _)).trans (advances_deleteEntries _)

theorem advances_bumped : Advances Item.revision t.snapshot t.bumped.snapshot :=
  advances_of (Nat.le_succ _) fun e he _ => ⟨e, he, rfl⟩

theorem item_linked {link : Option String} {e : EntryRow} (he : e ∈ (t.linked link id).entries) :
    ∃ e₀ ∈ t.entries, t.item e₀ = (t.linked link id).item e := by
  obtain ⟨e₀, he₀, heq, -⟩ := mem_linked he
  refine ⟨e₀, he₀, ?_⟩
  rw [heq]
  simp only [Tables.item, Tables.payloadOf, payloads_linked]

theorem advances_linked (link : Option String) :
    Advances Item.revision t.snapshot (t.linked link id).snapshot :=
  advances_of (by rw [storeMeta_linked]) fun _ he _ => item_linked he

/-- Entries that take the next revision are new items; the others stay. -/
theorem advances_restamp {t' : Tables} {p : EntryRow → Bool} {set : EntryRow → EntryRow}
    (hclock : t'.storeMeta.revision = t.storeMeta.revision + 1)
    (hentries : t'.entries = t.entries.map fun e => if p e then set e else e)
    (hrevision : ∀ e, (set e).revision = t.storeMeta.revision + 1)
    (hpayloads : t'.payloads = t.payloads) : Advances Item.revision t.snapshot t'.snapshot := by
  refine advances_of (by omega) fun e' he' hle => ?_
  obtain ⟨e, he, rfl⟩ := List.mem_map.mp (hentries ▸ he')
  split at hle
  next => rw [hrevision] at hle; omega
  next hp =>
    refine ⟨e, he, ?_⟩
    rw [if_neg hp]
    simp only [Tables.item, Tables.payloadOf, hpayloads]

theorem advances_created (hfresh : t.hasEntry ("entry-" ++ env.uuid) = false) :
    Advances Item.revision t.snapshot (t.created P env mime bytes).snapshot := by
  refine Advances.trans (t := (t.withEntry P env mime bytes).withContent P
    ("entry-" ++ env.uuid) mime bytes |>.snapshot) ?_ (advances_linked _)
  refine advances_of (Nat.le_succ _) fun e he hle => ?_
  rcases List.mem_append.mp he with he | he
  · have hne : e.id ≠ "entry-" ++ env.uuid := by
      intro hid
      rw [hasEntry_iff.mpr ⟨e, he, hid⟩] at hfresh
      cases hfresh
    refine ⟨e, he, ?_⟩
    simp [Tables.item, Tables.payloadOf, Tables.withContent, Tables.withEntry, Tables.sequenced,
      Tables.bumped, hne.symm]
  · rw [List.mem_singleton.mp he] at hle
    simp only [Database.newEntry] at hle
    omega

theorem entries_rewritten {expected : Nat} {e' : EntryRow}
    (he' : e' ∈ (t.rewritten P env id expected mime bytes).entries) :
    ∃ e ∈ t.entries, e'.id = e.id ∧
      ((e.id = id ∧ (e.revision : Int) = asI64 expected ∧
          e'.revision = t.storeMeta.revision + 1) ∨
        (¬(e.id = id ∧ (e.revision : Int) = asI64 expected) ∧
          e' = { e with echoSourceId := e'.echoSourceId })) := by
  obtain ⟨e₁, he₁, heq, -⟩ := mem_clearLinks he'
  obtain ⟨e, he, rfl⟩ := mem_mapEntries.mp he₁
  refine ⟨e, he, ?_⟩
  by_cases hmatch : e.id = id ∧ (e.revision : Int) = asI64 expected
  · rw [if_pos (by simpa using hmatch)] at heq
    rw [heq]
    exact ⟨rfl, .inl ⟨hmatch.1, hmatch.2, rfl⟩⟩
  · rw [if_neg (by simpa using hmatch)] at heq
    exact ⟨by rw [heq], .inr ⟨hmatch, heq⟩⟩

/-- A replacement leaves the payloads of the other entries alone. -/
theorem payloadOf_rewritten {expected : Nat} {i : String} (hne : i ≠ id) :
    (((t.rewritten P env id expected mime bytes).withoutContent id).withContent P id mime
      bytes).payloadOf i =
      t.payloadOf i := by
  simp only [Tables.payloadOf, Tables.withContent, Tables.withoutContent, Tables.deletePayload,
    Tables.deleteSearch, Tables.deleteEntryArtifacts, Tables.rewritten, Tables.clearLinks,
    Tables.mapEntries, Tables.bumped, List.filter_append, List.filter_filter]
  rw [List.filter_cons_of_neg (by simpa using hne.symm), List.filter_nil, List.append_nil]
  refine List.filter_congr fun p _ => ?_
  by_cases hp : p.entryId = i
  · simp [hp, hne]
  · simp [hp]

theorem advances_replaced {expected : Nat} {e₀ : EntryRow} (hs : Stamped t) (hr : InRange t)
    (he₀ : e₀ ∈ t.entries) (hid : e₀.id = id) (hexpected : e₀.revision = expected) :
    Advances Item.revision t.snapshot (t.replaced P env id expected mime bytes).snapshot := by
  refine Advances.trans (t := ((t.rewritten P env id expected mime bytes).withoutContent id
    |>.withContent P id mime bytes).snapshot) ?_ (advances_linked _)
  refine advances_of (Nat.le_succ _) fun e' he' hle => ?_
  obtain ⟨e, he, hsame, ⟨-, -, hrev⟩ | ⟨hno, heq⟩⟩ := entries_rewritten he'
  · rw [hrev] at hle
    omega
  · refine ⟨e, he, ?_⟩
    have hne : e.id ≠ id := by
      intro heid
      have hee := List.inj_on_of_nodup_map hs.ids he he₀ (heid.trans hid.symm)
      subst hee
      exact hno ⟨heid, hexpected ▸ revision_eq_asI64 hs hr he⟩
    rw [heq]
    simp only [Tables.item, payloadOf_rewritten hne]

end Steps

/-- Every change advances the items. -/
theorem Change.advances {P : Platform} {t t' : Tables} (hc : Change P t t') (h : WellFormed P t) :
    Advances Item.revision t.snapshot t'.snapshot := by
  cases hc with
  | unchanged => exact .refl _ _
  | closeAdmission => exact advances_of le_rfl fun e he _ => ⟨e, he, rfl⟩
  | policy next =>
      exact (Advances.trans (advances_of le_rfl fun e he _ => ⟨e, he, rfl⟩)
        (advances_retained _ _)).trans advances_bumped
  | promote mime bytes id _ _ _ =>
      refine Advances.trans ?_ (advances_retained _ _)
      exact advances_restamp (p := fun e => e.id = id) rfl rfl (fun _ => rfl) rfl
  | create env mime bytes hfresh _ _ _ =>
      exact (advances_created hfresh).trans (advances_retained _ _)
  | replace env id expected mime bytes e he hexpected _ _ =>
      obtain ⟨hmem, hid⟩ := Database.findEntry_some he
      exact (advances_replaced h.stamped h.inRange hmem hid hexpected).trans (advances_retained _ _)
  | favorite id expected value e _ _ _ =>
      refine Advances.trans ?_ (advances_retained _ _)
      exact advances_restamp rfl rfl (fun _ => rfl) rfl
  | remove targets _ => exact (advances_deleteEntries _).trans advances_bumped
  | wipe _ =>
      refine (advances_deleteEntries (t := t) (t.entryIds fun _ => true)).trans ?_
      exact advances_of (Nat.le_succ _) fun e he _ => ⟨e, he, rfl⟩
  | registerArtifact _ => exact advances_of le_rfl fun e he _ => ⟨e, he, rfl⟩
  | forgetArtifact _ => exact advances_of le_rfl fun e he _ => ⟨e, he, rfl⟩
  | inlineEchoes _ => exact advances_of le_rfl fun e he _ => ⟨e, he, rfl⟩

/-- Every change leaves the view alone or moves the catalog revision. -/
theorem Change.sealed {P : Platform} {t t' : Tables} (hc : Change P t t') :
    Sealed (·.storeMeta.revision) Tables.view t t' := by
  have hmoved : t'.storeMeta.revision = t.storeMeta.revision + 1 →
      Sealed (fun t : Tables => t.storeMeta.revision) Tables.view t t' :=
    fun heq => ⟨by omega, fun h => by omega⟩
  cases hc with
  | unchanged => exact .refl _ _ _
  | closeAdmission => exact ⟨le_rfl, fun _ => rfl⟩
  | policy next => exact hmoved rfl
  | promote mime bytes id _ _ _ => exact hmoved rfl
  | create env mime bytes _ _ _ _ => exact hmoved (by
      simp only [storeMeta_retained, Tables.created, Tables.written, storeMeta_linked]
      rfl)
  | replace env id expected mime bytes e _ _ _ _ => exact hmoved (by
      simp only [storeMeta_retained, Tables.replaced, Tables.written, storeMeta_linked]
      rfl)
  | favorite id expected value e _ _ _ => exact hmoved rfl
  | remove targets _ => exact hmoved rfl
  | wipe _ => exact hmoved rfl
  | registerArtifact _ => exact ⟨le_rfl, fun _ => rfl⟩
  | forgetArtifact _ => exact ⟨le_rfl, fun _ => rfl⟩
  | inlineEchoes _ => exact ⟨le_rfl, fun _ => rfl⟩

/-! ## What a query reads -/

theorem decodeSummary_congr {t t' : Tables} (h : t.entries = t'.entries) :
    Database.decodeSummary t = Database.decodeSummary t' := by
  cases t
  cases t'
  cases h
  rfl

theorem currentEntry_congr {t t' : Tables} (h : t.entries = t'.entries) (collapse : Bool) :
    Database.currentEntry collapse t = Database.currentEntry collapse t' := by
  cases t
  cases t'
  cases h
  rfl

theorem selected_congr (P : Platform) {t t' : Tables} (h : t.view = t'.view) (needle : String)
    (collapse : Bool) :
    Database.selected P needle collapse t = Database.selected P needle collapse t' := by
  cases t
  cases t'
  cases h
  rfl

/-- A page is computed from the view and the catalog revision. -/
theorem pageOf_congr (P : Platform) (query : HistoryQuery) {t t' : Tables}
    (hview : t.view = t'.view)
    (hrevision : t.storeMeta.revision = t'.storeMeta.revision) :
    Database.pageOf P query t = Database.pageOf P query t' := by
  have hentries : t.entries = t'.entries := congrArg Prod.fst hview
  simp only [Database.pageOf, decodeSummary_congr hentries, currentEntry_congr hentries,
    selected_congr P hview, hrevision]

/-! ## Requests that name a token -/

/-- The request applies to the entry `id` at a revision. -/
def Request.Names (id : String) (revision : Nat) : Request → Prop
  | .replace i expected _ _ => i = id ∧ expected = revision
  | .favorite i expected _ => i = id ∧ expected = revision
  | .removeMany targets =>
      ∃ target ∈ targets, target.opaqueId = id ∧ target.expectedRevision.toNat = revision
  | _ => False

/-- Is there an entry with this id and this revision? -/
def Tables.Carries (t : Tables) (id : String) (revision : Nat) : Prop :=
  ∃ e ∈ t.entries, e.id = id ∧ e.revision = revision

section Named

variable {P : Platform} {env : Env} {t t' : Tables} {reply : Reply} {id : String} {revision : Nat}

theorem asI64_eq {n : Nat} {expected : UInt64} (h : (n : Int) = asI64 expected.toNat) :
    n = expected.toNat := by
  have hlt : expected.toNat < 2 ^ 64 := expected.toNat_lt
  unfold asI64 at h
  split at h <;> omega

/-- Every target of a successful bulk delete was there. -/
theorem carries_of_countJoin {targets : List EntryTarget} (hs : Stamped t)
    (h : Database.countJoin (fun target e => e.id = target.opaqueId &&
      (e.revision : Int) = asI64 target.expectedRevision.toNat) targets t = targets.length) :
    ∀ target ∈ targets, t.Carries target.opaqueId target.expectedRevision.toNat := by
  intro target htarget
  have hone := SideTable.eq_one_of_sum_eq_length (l := targets) (f := fun target : EntryTarget =>
      (t.entries.filter fun e : EntryRow => e.id = target.opaqueId &&
        (e.revision : Int) = asI64 target.expectedRevision.toNat).length)
    (fun target _ => SideTable.length_filter_owner_le_one hs.ids (k := target.opaqueId)
      fun e _ hp => by
        simp only [Bool.and_eq_true, decide_eq_true_eq] at hp
        exact hp.1) h target htarget
  obtain ⟨e, he⟩ := List.exists_mem_of_length_pos (by rw [hone]; exact Nat.one_pos)
  obtain ⟨he, hp⟩ := List.mem_filter.mp he
  simp only [Bool.and_eq_true, decide_eq_true_eq] at hp
  exact ⟨e, he, hp.1, asI64_eq hp.2⟩

/-- A request that names a token succeeds only where the token is carried. -/
theorem Request.carries_of_names {request : Request} (hs : Stamped t)
    (hn : request.Names id revision) (h : request.effect P env t = .ok (reply, t')) :
    t.Carries id revision := by
  unfold effect at h
  cases request with
  | replace i expected mime bytes =>
      obtain ⟨rfl, rfl⟩ := hn
      obtain ⟨summary, -, hbody⟩ := entry_ok h
      obtain ⟨e, he, hexpected, -⟩ := Database.replace_ok hbody
      obtain ⟨hmem, hid⟩ := Database.findEntry_some he
      exact ⟨e, hmem, hid, hexpected⟩
  | favorite i expected value =>
      obtain ⟨rfl, rfl⟩ := hn
      obtain ⟨e, he, hexpected, -⟩ := Database.favorite_ok (unit_ok h).2
      obtain ⟨hmem, hid⟩ := Database.findEntry_some he
      exact ⟨e, hmem, hid, hexpected⟩
  | removeMany targets =>
      obtain ⟨target, htarget, rfl, rfl⟩ := hn
      simp only [job, if_neg (List.ne_nil_of_mem htarget)] at h
      exact carries_of_countJoin hs (Database.removeMany_ok (unit_ok h).2).1 target htarget
  | _ => exact hn.elim

/-- Deleting other entries does not bring a token back. -/
theorem not_carries_retained {policy : StorePolicy} {protectedId : String}
    (h : ¬t.Carries id revision) : ¬(t.retained policy protectedId).Carries id revision := by
  have hdelete : ∀ {t : Tables} (ids : List String), ¬t.Carries id revision →
      ¬(t.deleteEntries ids).Carries id revision := by
    rintro t ids h ⟨e, he, hid, hrev⟩
    obtain ⟨e₀, he₀, -, rfl⟩ := (mem_deleteEntries ids).mp he
    exact h ⟨e₀, he₀, by simpa using hid, by simpa using hrev⟩
  exact hdelete _ (hdelete _ (hdelete _ (hdelete _ h)))

/-- The entry that a replacement names has moved to the next revision. -/
theorem not_carries_replaced {mime : String} {bytes : Bytes} (hs : Stamped t) (hr : InRange t) :
    ¬(t.replaced P env id revision mime bytes).Carries id revision := by
  rintro ⟨e', he', hid, hrev⟩
  obtain ⟨e₁, he₁, heq, -⟩ := mem_linked he'
  rw [heq] at hid hrev
  obtain ⟨e, he, hsame, ⟨-, hexpected, hnew⟩ | ⟨hno, heq₁⟩⟩ := entries_rewritten he₁
  · have hle := hs.revision_le e he
    have hlt := hr.revision
    have hmax := MAX_REVISION_le
    simp only [hnew] at hrev
    rw [← hrev, asI64_of_le (by omega)] at hexpected
    omega
  · rw [heq₁] at hid hrev
    exact hno ⟨hid, hrev ▸ revision_eq_asI64 hs hr he⟩

theorem not_carries_favorited {value : Bool} (hs : Stamped t) (hr : InRange t) :
    ¬(t.favorited id revision value).Carries id revision := by
  rintro ⟨e', he', hid, hrev⟩
  obtain ⟨e, he, rfl⟩ := mem_mapEntries.mp he'
  have hle := hs.revision_le e he
  split at hid
  next hp =>
    rw [if_pos hp] at hrev
    simp only [Bool.and_eq_true, decide_eq_true_eq] at hp
    have hlt := hr.revision
    have hmax := MAX_REVISION_le
    have hnew : t.storeMeta.revision + 1 = revision := hrev
    have hexpected := hp.2
    rw [← hnew, asI64_of_le (by omega)] at hexpected
    omega
  next hp =>
    rw [if_neg hp] at hrev
    exact hp (by simpa using ⟨hid, hrev ▸ revision_eq_asI64 hs hr he⟩)

/-- After a request that names a token and changes something, the token is not carried. -/
theorem Request.not_carries_of_names {request : Request} (hw : WellFormed P t)
    (hn : request.Names id revision) (h : request.effect P env t = .ok (reply, t'))
    (hchanged : t' ≠ t) : ¬t'.Carries id revision := by
  unfold effect at h
  cases request with
  | replace i expected mime bytes =>
      obtain ⟨rfl, rfl⟩ := hn
      obtain ⟨summary, -, hbody⟩ := entry_ok h
      obtain ⟨e, -, -, -, -, -, ht, -⟩ := Database.replace_ok hbody
      simp only at ht
      rw [ht]
      exact not_carries_retained (not_carries_replaced hw.stamped hw.inRange)
  | favorite i expected value =>
      obtain ⟨rfl, rfl⟩ := hn
      obtain ⟨e, -, -, ⟨-, ht⟩ | ⟨-, -, ht⟩⟩ := Database.favorite_ok (unit_ok h).2
      · exact absurd ht hchanged
      · simp only at ht
        rw [ht]
        exact not_carries_retained (not_carries_favorited hw.stamped hw.inRange)
  | removeMany targets =>
      obtain ⟨target, htarget, rfl, rfl⟩ := hn
      simp only [job, if_neg (List.ne_nil_of_mem htarget)] at h
      have ht := (Database.removeMany_ok (unit_ok h).2).2.2
      simp only at ht
      rw [ht]
      rintro ⟨e, he, hid, -⟩
      obtain ⟨e₀, he₀, hkept, rfl⟩ := (mem_deleteEntries _).mp he
      refine hkept (List.mem_map_of_mem (List.mem_filter.mpr ⟨he₀, ?_⟩))
      rw [EntryRow.unlink_id] at hid
      simpa using ⟨target, htarget, hid.symm⟩
  | _ => exact hn.elim

end Named

/-! ## Runs -/

namespace Store

/-- A request that names `id` at `revision`, succeeds, and changes what is committed. -/
def Effective (P : Platform) (id : String) (revision : Nat) (s : Store) : DatabaseOp → Prop
  | .request request env faults =>
      s.isOpen = true ∧ request.Names id revision ∧
        (∃ reply, (s.db.execute faults (request.job P env)).1 = .ok reply) ∧
        (s.step P (.request request env faults)).committed ≠ s.committed
  | _ => False

/-- An effective request computed its effect. -/
theorem Effective.effect {P : Platform} {id : String} {revision : Nat} {s : Store} {op : DatabaseOp}
    (h : Effective P id revision s op) :
    ∃ (request : Request) (env : Env) (reply : Reply), request.Names id revision ∧
      request.effect P env s.committed = .ok (reply, (s.step P op).committed) ∧
      (s.step P op).committed ≠ s.committed := by
  cases op with
  | request request env faults =>
      obtain ⟨hopen, hnames, ⟨reply, hreply⟩, hchanged⟩ := h
      refine ⟨request, env, reply, hnames, ?_, hchanged⟩
      simp only [step, hopen, if_true, committed] at hchanged ⊢
      rw [Request.effect]
      cases hjob : request.job P env with
      | direct body =>
          rw [hjob] at hchanged
          exact absurd rfl hchanged
      | transaction body =>
          rw [hjob] at hreply
          exact (Database.transaction_ok hreply).1
  | reopen _ _ _ => exact h.elim
  | shutdown _ _ => exact h.elim

theorem after_append (P : Platform) (ops₁ ops₂ : List DatabaseOp) (s : Store) :
    s.after P (ops₁ ++ ops₂) = (s.after P ops₁).after P ops₂ := List.foldl_append

/-- Along a run the items advance and the view is sealed by the catalog revision. -/
theorem after_advances (P : Platform) (ops : List DatabaseOp) {s : Store}
    (h : WellFormed P s.committed) :
    Advances Item.revision s.committed.snapshot (s.after P ops).committed.snapshot :=
  foldl_rel (I := fun s : Store => WellFormed P s.committed)
    (R := fun s t => Advances Item.revision s.committed.snapshot t.committed.snapshot)
    (fun _ => .refl _ _) (fun _ _ _ => .trans)
    (fun s op h => (step_change P s op).wellFormed h)
    (fun s op h => (step_change P s op).advances h) ops h

theorem after_sealed (P : Platform) (ops : List DatabaseOp) (s : Store) :
    Sealed (·.storeMeta.revision) Tables.view s.committed (s.after P ops).committed :=
  foldl_rel (I := fun _ : Store => True)
    (R := fun s t => Sealed (·.storeMeta.revision) Tables.view s.committed t.committed)
    (fun _ => .refl _ _ _) (fun _ _ _ => .trans) (fun _ _ _ => trivial)
    (fun s op _ => (step_change P s op).sealed) ops trivial

/-- A token that is not newer than the catalog and is not carried is never carried again. -/
theorem not_carries_after (P : Platform) (ops : List DatabaseOp) {s : Store} {id : String}
    {revision : Nat} (h : WellFormed P s.committed)
    (hle : revision ≤ s.committed.storeMeta.revision) (hno : ¬s.committed.Carries id revision) :
    ¬(s.after P ops).committed.Carries id revision := by
  rintro ⟨e, he, rfl, rfl⟩
  have hold := (after_advances P ops h).old _ (List.mem_map_of_mem he) hle
  obtain ⟨e₀, he₀, heq⟩ := List.mem_map.mp hold
  exact hno ⟨e₀, he₀, congrArg Item.id heq, congrArg Item.revision heq⟩

/-- Revision tokens are never reused for different content.  Take two committed states of
a run.  An entry with one revision in both has the same type, payload, favorite flag and
recency in both.  If the catalog revision is the same, every query returns the same page.
And of all requests that name one entry at one revision, at most one takes effect. -/
theorem tokens_never_reused (P : Platform) (ops₁ ops₂ : List DatabaseOp) :
    let t₁ := (Store.fresh.after P ops₁).committed
    let t₂ := (Store.fresh.after P (ops₁ ++ ops₂)).committed
    (∀ e₁ ∈ t₁.entries, ∀ e₂ ∈ t₂.entries, e₁.id = e₂.id → e₁.revision = e₂.revision →
      e₁.mime = e₂.mime ∧ t₁.payloadOf e₁.id = t₂.payloadOf e₂.id ∧ e₁.favorite = e₂.favorite ∧
        e₁.recency = e₂.recency) ∧
    (t₁.storeMeta.revision = t₂.storeMeta.revision → ∀ query : HistoryQuery,
      ((Database.query P query).eval t₁).map Prod.fst =
        ((Database.query P query).eval t₂).map Prod.fst) ∧
    (∀ id revision op₁ op₂, Effective P id revision (Store.fresh.after P ops₁) op₁ →
      ¬Effective P id revision (Store.fresh.after P (ops₁ ++ op₁ :: ops₂)) op₂) := by
  have hwell := after_wellFormed P ops₁
  refine ⟨?_, ?_, ?_⟩
  · intro e₁ he₁ e₂ he₂ hid hrevision
    have hkeys : ((Store.fresh.after P ops₁).committed.snapshot.items.map Item.id).Nodup := by
      simpa [Tables.snapshot, Tables.item, Function.comp_def] using hwell.stamped.ids
    have hvalid : ∀ i ∈ (Store.fresh.after P ops₁).committed.snapshot.items,
        i.revision ≤ (Store.fresh.after P ops₁).committed.snapshot.clock := by
      simpa [Tables.snapshot, Tables.item] using hwell.stamped.revision_le
    have hadvances := after_advances P ops₂ hwell
    rw [← after_append] at hadvances
    have heq := hadvances.eq_of_stamp hvalid hkeys (List.mem_map_of_mem he₁)
      (List.mem_map_of_mem he₂) hid hrevision
    exact ⟨congrArg Item.mime heq, congrArg Item.payload heq, congrArg Item.favorite heq,
      congrArg Item.recency heq⟩
  · intro hrevision query
    have hsealed := after_sealed P ops₂ (Store.fresh.after P ops₁)
    rw [← after_append] at hsealed
    rw [Database.eval_query, Database.eval_query]
    exact congrArg Except.ok (pageOf_congr P query (hsealed.view_eq hrevision) hrevision)
  · intro id revision op₁ op₂ h₁ h₂
    obtain ⟨request₁, env₁, reply₁, hnames₁, heffect₁, hchanged₁⟩ := h₁.effect
    obtain ⟨request₂, env₂, reply₂, hnames₂, heffect₂, -⟩ := h₂.effect
    rw [after_append] at heffect₂
    -- the first request takes the token away, the second one needs it
    obtain ⟨e, he, rfl, rfl⟩ := Request.carries_of_names hwell.stamped hnames₁ heffect₁
    have hgone := Request.not_carries_of_names hwell hnames₁ heffect₁ hchanged₁
    have hstep := step_change P (Store.fresh.after P ops₁) op₁
    have hle := (hwell.stamped.revision_le e he).trans hstep.sealed.clock_le
    have hlater := not_carries_after P ops₂ (s := (Store.fresh.after P ops₁).step P op₁)
      (hstep.wellFormed hwell) hle hgone
    have hwell₂ := after_wellFormed P (ops₁ ++ op₁ :: ops₂)
    rw [after_append] at hwell₂
    exact hlater (Request.carries_of_names hwell₂.stamped hnames₂ heffect₂)

end Store

end ClipDaemon
