import ClipDaemon.Store.Tokens
import ClipDaemon.Store.Service

/-!
# Echoes and what their sources show

An entry that is exactly one generated image file becomes an echo of the entry that the file
was made from, and a collapsed listing hides it.  That hides nothing as long as the source
still stores the image that the file was compared with.

A run remembers for every entry the identity that its file had when the content was written,
which is the one that was compared for its link.
The registration of a file is not touched when the content of its source is replaced, so a
link can be written to a source that shows something else by then (`stale_link`).
-/

namespace ClipDaemon

open Transition

/-! ## Stored images -/

/-- The identity of an inline image. -/
def inlineIdentity (P : Platform) (bytes : Bytes) : Option String :=
  (P.guessFormat bytes).map fun mime => imageIdentity P mime bytes

/-- The identity of the image that an entry stores. -/
def Tables.image (P : Platform) (t : Tables) (id : String) : Option String :=
  (t.payloadOf id).head?.bind fun p => inlineIdentity P p.bytes

/-- The registration that a content of the entry `id` is linked through. -/
def Database.linkRecord (P : Platform) (W : World) (id : String) (resolved : ResolvedContent)
    (t : Tables) : Option ArtifactRecord := do
  let source ← resolved.localImage
  let path ← toStr source.path
  let record ← t.artifacts.find? fun a => a.path = path
  if record.sourceEntryId ≠ id ∧ (t.entryIds fun e => e.id = record.sourceEntryId).length = 1 ∧
      matchesRecord P W source record then
    some record
  else none

theorem Database.linkTarget_eq (P : Platform) (W : World) (id : String) (resolved : ResolvedContent)
    (t : Tables) : linkTarget P W id resolved t =
    (linkRecord P W id resolved t).map (·.sourceEntryId) := by
  simp only [linkTarget, linkRecord, Option.bind_eq_bind]
  cases resolved.localImage with
  | none => rfl
  | some source =>
      simp only [Option.bind_some]
      cases toStr source.path with
      | none => rfl
      | some path =>
          simp only [Option.bind_some]
          cases t.artifacts.find? fun a => a.path = path with
          | none => rfl
          | some record =>
              simp only [Option.bind_some]
              split <;> rfl

/-! ## Runs -/

/-- The payload is within the limits. -/
def Tables.Allows (t : Tables) (bytes : Bytes) : Prop :=
  bytes.length ≤ t.effectivePolicy.maxEntryBytes ∧ bytes.length ≤ t.effectivePolicy.maxTotalBytes

instance (t : Tables) (bytes : Bytes) : Decidable (t.Allows bytes) :=
  inferInstanceAs (Decidable (_ ∧ _))

/-- The content that a request is to write, with its entry and its type: an insertion writes one
for a new entry, and a replacement over the revision that it names. -/
def Request.content (P : Platform) (env : Env) (t : Tables) :
    Request → Option (String × String × Bytes)
  | .insert mime bytes =>
      if t.effectivePolicy.admission = true ∧ t.effectivePolicy.maxEntries ≠ 0 ∧ t.Allows bytes ∧
          Database.duplicate P mime bytes t = none then
        some ("entry-" ++ env.uuid, mime, bytes)
      else none
  | .replace id expected mime bytes =>
      if (Database.findEntry id t).any (·.revision = expected) = true ∧ t.Allows bytes then
        some (id, mime, bytes)
      else none
  | _ => none

/-- What a step is to write: the entry, the file system, the type and the bytes. -/
def Store.writes (P : Platform) (s : Store) :
    DatabaseOp → Option (String × World × String × Bytes)
  | .request request env faults =>
      if s.isOpen && !s.db.blocked && !faults.begins then
        (request.content P env s.committed).map fun (id, mime, bytes) =>
        (id, env.world, mime, bytes)
      else none
  | _ => none

/-- The link that a step is to write: the entry, and the registration that its file matches. -/
def Store.links (P : Platform) (s : Store) (op : DatabaseOp) : Option (String × ArtifactRecord) :=
  (s.writes P op).bind fun (id, W, mime, bytes) =>
    (Database.linkRecord P W id (ResolvedContent.resolve P W mime bytes MAX_ENTRY_BYTES)
      s.committed).map (id, ·)

/-- The identity of the file that a content is. -/
def fileIdentity (P : Platform) (W : World) (mime : String) (bytes : Bytes) : Option String :=
  (ResolvedContent.resolve P W mime bytes MAX_ENTRY_BYTES).localImage.bind (·.identity P W)

/-- A store, and the identity that the file of each entry had when its content was written. -/
structure Echoes where
  store : Store
  compared : String → Option String

namespace Echoes

/-- An empty store. -/
def fresh : Echoes := ⟨Store.fresh, fun _ => none⟩

/-- A step that leaves the tables as they are has written nothing. -/
def step (P : Platform) (s : Echoes) (op : DatabaseOp) : Echoes where
  store := s.store.step P op
  compared :=
    match s.store.writes P op with
    | some (id, W, mime, bytes) =>
        if (s.store.step P op).committed = s.store.committed then s.compared
        else Function.update s.compared id (fileIdentity P W mime bytes)
    | none => s.compared

/-- The state after these operations. -/
def after (P : Platform) (ops : List DatabaseOp) (s : Echoes) : Echoes := ops.foldl (step P) s

end Echoes

/-- Every echo shows its image through its source, which no link hides. -/
structure Shown (P : Platform) (t : Tables) (compared : String → Option String) : Prop where
  source : ∀ e ∈ t.entries, ∀ id, e.echoSourceId = some id → id ≠ e.id ∧
    ∃ source ∈ t.entries, source.id = id ∧ source.echoSourceId = none ∧
      ∃ identity, compared e.id = some identity ∧ t.image P id = some identity
  /-- A hidden entry is listed as its source. -/
  visible : ∀ e ∈ t.entries, e ∉ Database.selected P "" true t →
    ∃ source ∈ Database.selected P "" true t, e.echoSourceId = some source.id
  /-- The current entry is a listed one. -/
  current : ∀ collapse, t.entries ≠ [] → ∃ e ∈ Database.selected P "" collapse t,
    Database.currentEntry collapse t = some { Database.decodeSummary t e with current := true }

/-- The step is not to link through a registration whose source stores another image by now. -/
def Store.Current (P : Platform) (s : Store) (op : DatabaseOp) : Prop :=
  ∀ id record, s.links P op = some (id, record) →
    s.committed.image P record.sourceEntryId = some record.imageIdentity

instance (P : Platform) (s : Store) (op : DatabaseOp) : Decidable (s.Current P op) :=
  decidable_of_iff ((s.links P op).all fun link =>
      decide (s.committed.image P link.2.sourceEntryId = some link.2.imageIdentity)) (by
    cases h : s.links P op with
    | none => simp [Store.Current, h]
    | some link =>
        simp only [Option.all_some, decide_eq_true_eq, Store.Current, h, Option.some.injEq]
        refine ⟨fun hlink id record heq => ?_, fun hlink => hlink link.1 link.2 rfl⟩
        subst heq
        exact hlink)

/-! ## What steps leave alone -/

/-- Entries keep their links or lose them, and their payloads. -/
structure Kept (t t' : Tables) : Prop where
  entries : ∀ e' ∈ t'.entries, ∃ e ∈ t.entries, e.id = e'.id ∧
    (e'.echoSourceId = none ∨ e'.echoSourceId = e.echoSourceId)
  payloads : ∀ e' ∈ t'.entries, t'.payloadOf e'.id = t.payloadOf e'.id

section Kept

variable {P : Platform} {t t' t'' : Tables}

theorem Kept.of_same (hentries : t'.entries = t.entries) (hpayloads : t'.payloads = t.payloads) :
    Kept t t' where
  entries e' he' := ⟨e', by simpa [hentries] using he', rfl, .inr rfl⟩
  payloads _ _ := by simp [Tables.payloadOf, hpayloads]

theorem Kept.trans (h : Kept t t') (h' : Kept t' t'') : Kept t t'' where
  entries e'' he'' := by
    obtain ⟨e', he', hid', hlink'⟩ := h'.entries e'' he''
    obtain ⟨e, he, hid, hlink⟩ := h.entries e' he'
    refine ⟨e, he, hid.trans hid', ?_⟩
    rcases hlink' with hnone | hsame
    · exact .inl hnone
    · rw [hsame]
      exact hlink
  payloads e'' he'' := by
    obtain ⟨e', he', hid', -⟩ := h'.entries e'' he''
    rw [h'.payloads e'' he'', ← hid', h.payloads e' he']

theorem kept_of_admission (h : SameButAdmission t' t) : Kept t t' := by
  have hsame : t'.closeAdmission = t.closeAdmission := h
  have hentries := congrArg Tables.entries hsame
  have hpayloads := congrArg Tables.payloads hsame
  exact .of_same hentries hpayloads

theorem kept_deleteEntries (ids : List String) : Kept t (t.deleteEntries ids) where
  entries e' he' := by
    obtain ⟨e, he, -, rfl⟩ := (mem_deleteEntries ids).mp he'
    refine ⟨e, he, by simp, ?_⟩
    cases hlink : (e.unlink ids).echoSourceId with
    | none => exact .inl rfl
    | some source => exact .inr (EntryRow.unlink_echoSourceId ids e hlink).1.symm
  payloads e' he' := by
    obtain ⟨e, he, hkept, rfl⟩ := (mem_deleteEntries ids).mp he'
    simp [payloadOf_deleteEntries hkept]

theorem kept_retained (policy : StorePolicy) (protectedId : String) :
    Kept t (t.retained policy protectedId) :=
  (((kept_deleteEntries _).trans (kept_deleteEntries _)).trans (kept_deleteEntries _)).trans
    (kept_deleteEntries _)

theorem kept_mapEntries {p : EntryRow → Bool} {set : EntryRow → EntryRow}
    (h : ∀ e, (set e).id = e.id ∧ (set e).echoSourceId = e.echoSourceId) :
    Kept t (t.mapEntries p set) where
  entries e' he' := by
    obtain ⟨e, he, rfl⟩ := mem_mapEntries.mp he'
    refine ⟨e, he, ?_⟩
    split
    · exact ⟨(h e).1.symm, .inr (h e).2⟩
    · exact ⟨rfl, .inr rfl⟩
  payloads _ _ := rfl

end Kept

/-! ## Links that show their sources -/

/-- The images behind the links: an echo stores none, its source the one compared. -/
def Echoed (P : Platform) (t : Tables) (compared : String → Option String) : Prop :=
  ∀ e ∈ t.entries, ∀ id, e.echoSourceId = some id → t.image P e.id = none ∧
    ∃ identity, compared e.id = some identity ∧ t.image P id = some identity

section Echoed

variable {P : Platform} {t t' : Tables} {compared compared' : String → Option String}

theorem image_congr {id : String} (h : t'.payloadOf id = t.payloadOf id) :
    t'.image P id = t.image P id := by
  rw [Tables.image, h, Tables.image]

theorem Echoed.kept (h : Echoed P t compared) (hk : Kept t t') (hlinked : Linked t') :
    Echoed P t' compared := by
  intro e' he' id hid
  obtain ⟨e, he, heid, hlink⟩ := hk.entries e' he'
  obtain ⟨-, source, hsource, rfl⟩ := hlinked e' he' id hid
  rw [hid] at hlink
  obtain ⟨hnone, identity, hcompared, himage⟩ :=
    h e he source.id (hlink.resolve_left (by simp)).symm
  rw [heid] at hnone hcompared
  exact ⟨(image_congr (hk.payloads e' he')).trans hnone, identity, hcompared,
    (image_congr (hk.payloads source hsource)).trans himage⟩

/-- A content is written for the entry `id`, after what linked to it was unlinked. -/
theorem Echoed.written (h : Echoed P t compared) {id : String} (bytes : Bytes)
    {link : Option String}
    (hold : ∀ e ∈ t'.entries, e.id ≠ id → ∀ source, e.echoSourceId = some source →
      source ≠ id ∧ ∃ e₀ ∈ t.entries, e₀.id = e.id ∧ e₀.echoSourceId = some source)
    (hnew : ∀ e ∈ t'.entries, e.id = id → e.echoSourceId = none)
    (hothers : ∀ i, i ≠ id → t'.payloadOf i = t.payloadOf i)
    (hself : t'.payloadOf id = [⟨id, bytes⟩])
    (hcompared : ∀ i, i ≠ id → compared' i = compared i)
    (hlink : ∀ source, link = some source → source ≠ id ∧ inlineIdentity P bytes = none ∧
      ∃ identity, compared' id = some identity ∧ t.image P source = some identity) :
    Echoed P (t'.linked link id) compared' := by
  have himage : ∀ i, (t'.linked link id).image P i = t'.image P i :=
    fun i => image_congr (by simp only [Tables.payloadOf, payloads_linked])
  intro e he source hsource
  obtain ⟨e₀, he₀, heq, hsame⟩ := mem_linked he
  have hid : e.id = e₀.id := by rw [heq]
  rw [hsource] at hsame
  rcases eq_or_ne e₀.id id with rfl | hne
  · rcases hsame with hsame | ⟨-, hsame⟩
    · rw [hnew e₀ he₀ rfl] at hsame
      cases hsame
    · obtain ⟨hsource', hnone, identity, hidentity, hshown⟩ := hlink source hsame.symm
      refine ⟨?_, identity, by rw [hid]; exact hidentity, ?_⟩
      · rw [himage, hid, Tables.image, hself]
        exact hnone
      · rw [himage, image_congr (hothers source hsource')]
        exact hshown
  · rcases hsame with hsame | ⟨hself', -⟩
    · obtain ⟨hsource', e₁, he₁, hid₁, hlink₁⟩ := hold e₀ he₀ hne source hsame.symm
      obtain ⟨hnone, identity, hidentity, hshown⟩ := h e₁ he₁ source hlink₁
      rw [hid₁] at hnone hidentity
      refine ⟨?_, identity, ?_, ?_⟩
      · rw [himage, hid, image_congr (hothers _ hne)]
        exact hnone
      · rw [hid, hcompared _ hne]
        exact hidentity
      · rw [himage, image_congr (hothers source hsource')]
        exact hshown
    · exact absurd hself' hne

/-- Only a content that is no inline image is linked, and its file is the image registered. -/
theorem linkRecord_some {W : World} {id mime : String} {bytes : Bytes} {record : ArtifactRecord}
    (h : Database.linkRecord P W id (ResolvedContent.resolve P W mime bytes MAX_ENTRY_BYTES) t =
      some record) : record.sourceEntryId ≠ id ∧ inlineIdentity P bytes = none ∧
        fileIdentity P W mime bytes = some record.imageIdentity := by
  simp only [Database.linkRecord, Option.bind_eq_bind, Option.bind_eq_some_iff] at h
  obtain ⟨source, hsource, path, -, record', -, h⟩ := h
  split at h
  next hc =>
    cases h
    have hidentity : source.identity P W = some record.imageIdentity := by
      have hmatches := hc.2.2
      rw [Database.matchesRecord, Bool.and_eq_true] at hmatches
      exact of_decide_eq_true hmatches.2
    refine ⟨hc.1, ?_, by rw [fileIdentity, hsource]; exact hidentity⟩
    cases hguess : P.guessFormat bytes with
    | none => simp [inlineIdentity, hguess]
    | some detected =>
        rw [ResolvedContent.localImage_of_guessFormat hguess] at hsource
        cases hsource
  next => cases h

theorem entryIds_eq (i : String) :
    (t.entryIds fun e => e.id = i) = (t.entries.map (·.id)).filter (· = i) := by
  simp [Tables.entryIds, List.filter_map, Function.comp_def]

/-- A link depends on the registrations and on the ids of the other entries. -/
theorem linkRecord_congr {W : World} {id : String} {resolved : ResolvedContent}
    (hartifacts : t'.artifacts = t.artifacts)
    (hids : ∀ i, i ≠ id → (t'.entries.map (·.id)).filter
      (· = i) = (t.entries.map (·.id)).filter (· = i)) :
    Database.linkRecord P W id resolved t' = Database.linkRecord P W id resolved t := by
  simp only [Database.linkRecord, hartifacts, entryIds_eq]
  congr 1
  funext source
  congr 1
  funext path
  congr 1
  funext record
  rcases eq_or_ne record.sourceEntryId id with heq | hne
  · simp [heq]
  · rw [hids _ hne]

/-- The premise of a link, for a content that is written when the run is current. -/
theorem linked_of_current {W : World} {id mime : String} {bytes : Bytes}
    (hcurrent : ∀ record, Database.linkRecord P W id (ResolvedContent.resolve P W mime bytes
      MAX_ENTRY_BYTES) t = some record → t.image P record.sourceEntryId = some record.imageIdentity)
    {link : Option String} (hlink : link = (Database.linkRecord P W id
      (ResolvedContent.resolve P W mime bytes MAX_ENTRY_BYTES) t).map (·.sourceEntryId)) :
    ∀ source, link = some source → source ≠ id ∧ inlineIdentity P bytes = none ∧
      ∃ identity, Function.update compared id (fileIdentity P W mime bytes) id = some identity ∧
        t.image P source = some identity := by
  intro source hsource
  rw [hlink, Option.map_eq_some_iff] at hsource
  obtain ⟨record, hrecord, rfl⟩ := hsource
  obtain ⟨hne, hnone, hidentity⟩ := linkRecord_some hrecord
  rw [Function.update_self]
  exact ⟨hne, hnone, record.imageIdentity, hidentity, hcurrent record hrecord⟩

theorem Echoed.created (h : Echoed P t compared) (hlinked : Linked t) {env : Env} {mime : String}
    {bytes : Bytes} (hfresh : t.hasEntry ("entry-" ++ env.uuid) = false)
    (hpayload : t.payloadOf ("entry-" ++ env.uuid) = [])
    (hcurrent : ∀ record, Database.linkRecord P env.world ("entry-" ++ env.uuid)
      (ResolvedContent.resolve P env.world mime bytes MAX_ENTRY_BYTES) t = some record →
      t.image P record.sourceEntryId = some record.imageIdentity) :
    Echoed P (t.created P env mime bytes) (Function.update compared ("entry-" ++ env.uuid)
      (fileIdentity P env.world mime bytes)) := by
  have hnew : ∀ e ∈ t.entries, e.id ≠ "entry-" ++ env.uuid := by
    intro e he hid
    rw [hasEntry_iff.mpr ⟨e, he, hid⟩] at hfresh
    cases hfresh
  refine h.written bytes ?_ ?_ ?_ ?_ (fun i hne => Function.update_of_ne hne ..)
    (linked_of_current hcurrent ?_)
  · intro e he hne source hsource
    rcases List.mem_append.mp he with hold | hlast
    · obtain ⟨-, other, hother, rfl⟩ := hlinked e hold source hsource
      exact ⟨hnew other hother, e, hold, rfl, hsource⟩
    · rw [List.mem_singleton.mp hlast] at hne
      exact absurd rfl hne
  · intro e he hid
    rcases List.mem_append.mp he with hold | hlast
    · exact absurd hid (hnew e hold)
    · rw [List.mem_singleton.mp hlast]
      rfl
  · intro i hne
    simp [Tables.payloadOf, Tables.withContent, Tables.withEntry, Tables.sequenced,
      Tables.bumped, hne.symm]
  · simp only [Tables.payloadOf] at hpayload
    simp [Tables.payloadOf, Tables.withContent, Tables.withEntry, Tables.sequenced,
      Tables.bumped, hpayload]
  · rw [Database.linkTarget_eq]
    refine congrArg _ (linkRecord_congr rfl fun i hne => ?_)
    simp [Tables.withEntry, Tables.sequenced, Tables.bumped, Database.newEntry, hne.symm]

/-- The rows after a replacement: the replaced entry has no link, and none names it. -/
theorem links_rewritten {env : Env} {id mime : String} {bytes : Bytes} {expected : Nat}
    {e₀ : EntryRow}
    (hs : Stamped t) (hr : InRange t) (he₀ : e₀ ∈ t.entries) (hid : e₀.id = id)
    (hexpected : e₀.revision = expected) {e : EntryRow}
    (he : e ∈ (t.rewritten P env id expected mime bytes).entries) :
    (e.id = id → e.echoSourceId = none) ∧ ∀ source, e.echoSourceId = some source →
      source ≠ id ∧ ∃ e₁ ∈ t.entries, e₁.id = e.id ∧ e₁.echoSourceId = some source := by
  obtain ⟨e₁, he₁, heq, hlink⟩ := mem_clearLinks he
  obtain ⟨e₂, he₂, rfl⟩ := mem_mapEntries.mp he₁
  rcases eq_or_ne e₂.id id with hself | hne
  · -- the row that is rewritten
    have hsame : e₂ = e₀ := List.inj_on_of_nodup_map hs.ids he₂ he₀ (hself.trans hid.symm)
    have hmatch : (e₂.revision : Int) = asI64 expected := by
      rw [hsame, ← hexpected]
      exact revision_eq_asI64 hs hr he₀
    have hnone : e.echoSourceId = none := by
      rcases hlink with hnone | ⟨hsame', -⟩
      · exact hnone
      · rw [hsame']
        simp [hself, hmatch]
    exact ⟨fun _ => hnone, fun source hsource => by simp [hnone] at hsource⟩
  · have hother : e.id = e₂.id := by
      rw [heq]
      simp [hne]
    simp only [hne, decide_false, Bool.false_and, Bool.false_eq_true, if_false] at hlink
    refine ⟨fun hself => absurd (hother.symm.trans hself) hne, fun source hsource => ?_⟩
    rw [hsource] at hlink
    obtain ⟨hsame, hnot⟩ := hlink.resolve_left (by simp)
    exact ⟨fun h => hnot (by rw [h]), e₂, he₂, hother.symm, hsame.symm⟩

theorem Echoed.replaced (h : Echoed P t compared) {env : Env} {id mime : String} {bytes : Bytes}
    {expected : Nat} {e₀ : EntryRow} (hs : Stamped t) (hr : InRange t) (he₀ : e₀ ∈ t.entries)
    (hid : e₀.id = id) (hexpected : e₀.revision = expected)
    (hcurrent : ∀ record, Database.linkRecord P env.world id
      (ResolvedContent.resolve P env.world mime bytes MAX_ENTRY_BYTES) t = some record →
      t.image P record.sourceEntryId = some record.imageIdentity) :
    Echoed P (t.replaced P env id expected mime bytes)
      (Function.update compared id (fileIdentity P env.world mime bytes)) := by
  refine h.written bytes ?_ ?_ ?_ ?_ (fun i hne => Function.update_of_ne hne ..)
    (linked_of_current hcurrent ?_)
  · exact fun e he _ => (links_rewritten hs hr he₀ hid hexpected he).2
  · exact fun e he => (links_rewritten hs hr he₀ hid hexpected he).1
  · exact fun i hne => payloadOf_rewritten hne
  · simp [Tables.payloadOf, Tables.withContent, Tables.withoutContent, Tables.deletePayload,
      Tables.deleteSearch, Tables.deleteEntryArtifacts]
  · rw [Database.linkTarget_eq]
    refine congrArg _ (linkRecord_congr rfl fun i _ => ?_)
    have hids : (t.rewritten P env id expected mime bytes).entries.map (·.id) = t.entries.map
        (·.id) := by
      simp only [Tables.rewritten, Tables.clearLinks]
      rw [map_mapEntries, map_mapEntries]
      · rfl
      · exact fun _ _ _ => rfl
      · exact fun _ _ _ => rfl
    exact congrArg _ hids

end Echoed

/-! ## Steps -/

section Steps

variable {P : Platform} {t t' : Tables} {env : Env} {reply : Reply}

/-- A request that writes no content keeps the links. -/
theorem Request.effect_kept {request : Request} (h : request.effect P env t = .ok (reply, t'))
    (hinsert : ∀ mime bytes, request ≠ .insert mime bytes)
    (hreplace : ∀ id expected mime bytes, request ≠ .replace id expected mime bytes) :
      Kept t t' := by
  have hread : ∀ {body : Sql Reply}, (Job.direct body).eval t = .ok (reply, t') → Kept t t' := by
    intro body hbody
    exact .of_same (congrArg _ (direct_ok hbody)) (congrArg _ (direct_ok hbody))
  unfold effect at h
  cases request with
  | applyPolicy next =>
      simp only [job] at h
      split at h
      · rcases Database.applyPolicy_ok (unit_ok h).2 with ⟨-, ht⟩ | ⟨-, -, -, -, -, -, ht⟩
        · simp only at ht
          exact .of_same (congrArg _ ht) (congrArg _ ht)
        · simp only at ht
          rw [ht]
          exact (Kept.of_same rfl rfl).trans ((kept_retained _ _).trans (.of_same rfl rfl))
      · exact hread h
  | insert mime bytes => exact absurd rfl (hinsert mime bytes)
  | replace id expected mime bytes => exact absurd rfl (hreplace id expected mime bytes)
  | favorite id expected value =>
      obtain ⟨e, -, -, ⟨-, ht⟩ | ⟨-, -, ht⟩⟩ := Database.favorite_ok (unit_ok h).2
      · simp only at ht
        exact .of_same (congrArg _ ht) (congrArg _ ht)
      · simp only at ht
        rw [ht]
        have hbumped : Kept t t.bumped := .of_same rfl rfl
        have hflag : Kept t.bumped (t.favorited id expected value) :=
          kept_mapEntries fun _ => ⟨rfl, rfl⟩
        exact (hbumped.trans hflag).trans (kept_retained _ _)
  | removeMany targets =>
      simp only [job] at h
      split at h
      · exact hread h
      · obtain ⟨-, -, ht⟩ := Database.removeMany_ok (unit_ok h).2
        simp only at ht
        rw [ht]
        exact (kept_deleteEntries _).trans (.of_same rfl rfl)
  | wipe =>
      obtain ⟨-, ht⟩ := Database.wipe_ok (unit_ok h).2
      simp only at ht
      rw [ht]
      exact (kept_deleteEntries _).trans (.of_same rfl rfl)
  | registerArtifact record =>
      simp only [job] at h
      split at h
      · exact hread h
      · have ht := Database.registerArtifact_ok (unit_ok h).2
        simp only at ht
        rw [ht]
        exact .of_same rfl rfl
  | forgetArtifact path =>
      simp only [job] at h
      split at h
      · exact hread h
      · have hbody := (unit_ok h).2
        rw [Database.forgetArtifact, exec_ok] at hbody
        cases hbody
        exact .of_same rfl rfl
  | registerInlineEcho record =>
      simp only [job] at h
      split at h
      · have hbody := (unit_ok h).2
        simp only [Database.registerInlineEcho, Prog.eval_bind, eval_exec, Tables.upsertInlineEcho,
          Except.map] at hbody
        cases hbody
        exact .of_same rfl rfl
      · exact hread h
  | clearInlineEchoes =>
      have hbody := (unit_ok h).2
      rw [Database.clearInlineEchoes, exec_ok] at hbody
      cases hbody
      exact .of_same rfl rfl
  | query _ => exact hread h
  | get _ _ => exact hread h
  | entryRevision _ => exact hread h
  | revision => exact hread h
  | policy => exact hread h
  | artifactGet _ => exact hread h

/-- An entry that is not there has no payload. -/
theorem payloadOf_of_absent (h : WellFormed P t) {id : String} (hfresh : t.hasEntry id = false) :
    t.payloadOf id = [] := by
  refine List.filter_eq_nil_iff.mpr fun p hp hid => ?_
  have hthere := h.storeInvariant.payloadOwners p hp
  rw [of_decide_eq_true hid, hfresh] at hthere
  cases hthere

end Steps

namespace Echoes

variable {P : Platform}

theorem compared_of_same {s : Echoes} {op : DatabaseOp}
    (hsame : (s.store.step P op).committed = s.store.committed) :
    (s.step P op).compared = s.compared := by
  simp only [step, hsame, if_true]
  split <;> rfl

theorem compared_of_none {s : Echoes} {op : DatabaseOp} (hwrites : s.store.writes P op = none) :
    (s.step P op).compared = s.compared := by
  simp only [step, hwrites]

theorem compared_of_written {s : Echoes} {op : DatabaseOp} {id mime : String} {W : World}
    {bytes : Bytes}
    (hwrites : s.store.writes P op = some (id, W, mime, bytes))
    (hchanged : (s.store.step P op).committed ≠ s.store.committed) :
    (s.step P op).compared = Function.update s.compared id (fileIdentity P W mime bytes) := by
  simp only [step, hwrites, if_neg hchanged]

/-- In a current step the registration of a link that is written is current. -/
theorem current_of_writes {s : Store} {op : DatabaseOp} (h : s.Current P op)
    {id mime : String} {W : World}
    {bytes : Bytes} (hwrites : s.writes P op = some (id, W, mime, bytes)) :
    ∀ record, Database.linkRecord P W id (ResolvedContent.resolve P W mime bytes MAX_ENTRY_BYTES)
      s.committed = some record →
      s.committed.image P record.sourceEntryId = some record.imageIdentity := by
  intro record hrecord
  refine h id record ?_
  simp only [Store.links, hwrites, Option.bind_some, hrecord, Option.map_some]

/-- A step that leaves the links alone. -/
theorem echoed_kept {s : Echoes} {op : DatabaseOp} (h : Echoed P s.store.committed s.compared)
    (hk : Kept s.store.committed (s.store.step P op).committed)
    (hlinked : Linked (s.store.step P op).committed)
    (hcompared : (s.step P op).compared = s.compared) :
    Echoed P (s.step P op).store.committed (s.step P op).compared := by
  rw [hcompared]
  exact h.kept hk hlinked

/-- What changed the tables was a transaction of an open store that is not fenced. -/
theorem writes_of_changed {s : Store} {request : Request} {env : Env} {faults : Faults}
    (hchanged : (s.step P (.request request env faults)).committed ≠ s.committed) :
    s.writes P (.request request env faults) = (request.content P env s.committed).map
      fun (id, mime, bytes) => (id, env.world, mime, bytes) := by
  refine if_pos ?_
  simp only [Store.step, Store.committed] at hchanged
  split at hchanged
  next hopen =>
    cases hjob : request.job P env with
    | direct body => exact absurd (by rw [hjob]; rfl) hchanged
    | transaction body =>
        simp only [hjob, Database.execute, Database.transaction] at hchanged
        split at hchanged
        · exact absurd rfl hchanged
        next hblocked =>
          split at hchanged
          · exact absurd rfl hchanged
          next hbegins =>
            rw [Bool.or_eq_true, not_or] at hbegins
            simp [hopen, hblocked, hbegins.1]
  · exact absurd rfl hchanged

theorem echoed_step {s : Echoes} (hw : WellFormed P s.store.committed)
    (h : Echoed P s.store.committed s.compared) {op : DatabaseOp}
    (hcurrent : s.store.Current P op) :
    Echoed P (s.step P op).store.committed (s.step P op).compared := by
  have hlinked : Linked (s.store.step P op).committed :=
    ((Store.step_change P s.store op).wellFormed hw).linked
  cases op with
  | request request env faults =>
      by_cases hsame : (s.store.step P (.request request env faults)).committed = s.store.committed
      · exact echoed_kept h (by rw [hsame]; exact .of_same rfl rfl) hlinked (compared_of_same hsame)
      have hwrites := writes_of_changed hsame
      obtain ⟨reply, heffect⟩ :=
        (Store.request_durable P s.store request env faults).resolve_left hsame
      cases request with
      | insert mime bytes =>
          obtain ⟨summary, -, hbody⟩ := Request.entry_ok heffect
          obtain ⟨hadmission, hentry, htotal, ⟨_, _, -, -, -, ht⟩ |
            ⟨-, -, id, e, -, -, ⟨hduplicate, ht⟩ | ⟨hduplicate, hcapacity, rfl, hfresh, ht⟩⟩⟩ :=
              Database.insert_ok hbody
          · exact absurd (congrArg Prod.snd ht) hsame
          · -- an identical entry is promoted, and nothing is written
            have hcontent : (Request.insert mime bytes).content P env s.store.committed = none :=
              if_neg fun hnew => by
                rw [hduplicate] at hnew
                cases hnew.2.2.2
            rw [hcontent] at hwrites
            simp only at ht
            have hbumped : Kept s.store.committed s.store.committed.bumped.sequenced :=
              .of_same rfl rfl
            have hplaced : Kept s.store.committed.bumped.sequenced
                (s.store.committed.promoted id) :=
              kept_mapEntries fun _ => ⟨rfl, rfl⟩
            refine echoed_kept h ?_ hlinked (compared_of_none hwrites)
            rw [ht]
            exact (hbumped.trans hplaced).trans (kept_retained _ _)
          · simp only at ht
            have hcontent : (Request.insert mime bytes).content P env s.store.committed =
                some ("entry-" ++ env.uuid, mime, bytes) :=
              if_pos ⟨hadmission, hcapacity, ⟨hentry, htotal⟩, hduplicate⟩
            rw [hcontent] at hwrites
            rw [compared_of_written hwrites hsame]
            refine Echoed.kept (h.created hw.linked hfresh (payloadOf_of_absent hw hfresh)
              (current_of_writes hcurrent hwrites)) ?_ hlinked
            change Kept _ (s.store.step P _).committed
            rw [ht]
            exact kept_retained _ _
      | replace id expected mime bytes =>
          obtain ⟨summary, -, hbody⟩ := Request.entry_ok heffect
          obtain ⟨e, he, hexpected, hentry, htotal, -, ht, -⟩ := Database.replace_ok hbody
          simp only at ht
          obtain ⟨hmem, hid⟩ := Database.findEntry_some he
          have hcontent : (Request.replace id expected mime bytes).content P env s.store.committed =
              some (id, mime, bytes) :=
            if_pos ⟨by rw [he]; exact decide_eq_true hexpected, hentry, htotal⟩
          rw [hcontent] at hwrites
          rw [compared_of_written hwrites hsame]
          refine Echoed.kept (h.replaced hw.stamped hw.inRange hmem hid hexpected
            (current_of_writes hcurrent hwrites)) ?_ hlinked
          change Kept _ (s.store.step P _).committed
          rw [ht]
          exact kept_retained _ _
      | _ =>
          exact echoed_kept h (Request.effect_kept heffect (by intros; intro h; cases h)
            (by intros; intro h; cases h)) hlinked (compared_of_none hwrites)
  | reopen before after faults =>
      exact echoed_kept h (kept_of_admission (Database.openExisting_durable _ _ _ _)) hlinked
        (compared_of_none rfl)
  | shutdown checkpoint faults =>
      refine echoed_kept h ?_ hlinked (compared_of_none rfl)
      simp only [Store.step, Store.committed]
      split
      · exact kept_of_admission (Database.shutdown_durable _ _ _)
      · exact .of_same rfl rfl

/-! ## Runs -/

theorem store_after (ops : List DatabaseOp) (s : Echoes) :
    (s.after P ops).store = s.store.after P ops := by
  induction ops generalizing s with
  | nil => rfl
  | cons op ops ih => exact ih (s.step P op)

theorem after_append (ops ops' : List DatabaseOp) (s : Echoes) :
    s.after P (ops ++ ops') = (s.after P ops).after P ops' := List.foldl_append

/-- The links of every run whose steps are current. -/
theorem echoed_after (ops : List DatabaseOp)
    (hcurrent : ∀ before op rest, ops = before ++ op :: rest →
      (fresh.after P before).store.Current P op) :
    Echoed P (fresh.after P ops).store.committed (fresh.after P ops).compared := by
  induction ops using List.reverseRecOn with
  | nil =>
      intro e he
      cases he
  | append_singleton ops op ih =>
      rw [after_append]
      refine echoed_step ?_ (ih fun before op' rest heq => hcurrent before op' (rest ++ [op]) ?_)
        (hcurrent ops op [] rfl)
      · rw [store_after]
        exact Store.after_wellFormed P ops
      · rw [heq, List.append_assoc, List.cons_append]

end Echoes

/-! ## What a collapsed listing hides -/

section Listing

variable {P : Platform} {t : Tables} {compared : String → Option String}

theorem mem_selected {collapse : Bool} {e : EntryRow} :
    e ∈ Database.selected P "" collapse t ↔
      e ∈ t.entries ∧ (collapse = true → e.echoSourceId = none) := by
  cases collapse <;> simp [Database.selected, Database.notCollapsed]

theorem Echoed.source (h : Echoed P t compared) (hlinked : Linked t) {e : EntryRow}
    (he : e ∈ t.entries)
    {id : String} (hid : e.echoSourceId = some id) : id ≠ e.id ∧
    ∃ source ∈ t.entries, source.id = id ∧ source.echoSourceId = none ∧
      ∃ identity, compared e.id = some identity ∧ t.image P id = some identity := by
  obtain ⟨hne, source, hsource, rfl⟩ := hlinked e he id hid
  obtain ⟨-, identity, hcompared, himage⟩ := h e he source.id hid
  refine ⟨hne, source, hsource, rfl, ?_, identity, hcompared, himage⟩
  cases hlink : source.echoSourceId with
  | none => rfl
  | some id' =>
      -- a linked entry stores no image
      obtain ⟨hnone, -⟩ := h source hsource id' hlink
      rw [himage] at hnone
      cases hnone

theorem findEntry_of_mem (hs : Stamped t) {e : EntryRow} (he : e ∈ t.entries) :
    Database.findEntry e.id t = some e := by
  cases hfind : Database.findEntry e.id t with
  | none =>
      have hnone := List.find?_eq_none.mp hfind e he
      simp at hnone
  | some e' =>
      obtain ⟨he', hid⟩ := Database.findEntry_some hfind
      rw [List.inj_on_of_nodup_map hs.ids he' he hid]

theorem Echoed.shown (h : Echoed P t compared) (hw : WellFormed P t) : Shown P t compared where
  source e he id hid := h.source hw.linked he hid
  visible e he hhidden := by
    have hlink : e.echoSourceId ≠ none := fun hnone =>
      hhidden (mem_selected.mpr ⟨he, fun _ => hnone⟩)
    obtain ⟨id, hid⟩ := Option.ne_none_iff_exists'.mp hlink
    obtain ⟨-, source, hsource, rfl, hnone, -⟩ := h.source hw.linked he hid
    exact ⟨source, mem_selected.mpr ⟨hsource, fun _ => hnone⟩, hid⟩
  current collapse hne := by
    have hsorted : t.entries.insertionSort Database.recencyOrder ≠ [] := by
      intro heq
      have hlength := congrArg List.length heq
      rw [List.length_insertionSort] at hlength
      exact hne (List.length_eq_zero_iff.mp hlength)
    obtain ⟨newest, hnewest⟩ := Option.ne_none_iff_exists'.mp (mt List.head?_eq_none_iff.mp hsorted)
    have hmem : newest ∈ t.entries := (List.mem_insertionSort _).mp (List.mem_of_head? hnewest)
    simp only [Database.currentEntry, hnewest, Option.bind_eq_bind, Option.bind_some,
      Option.pure_def]
    cases collapse with
    | false =>
        refine ⟨newest, mem_selected.mpr ⟨hmem, fun hno => by cases hno⟩, ?_⟩
        simp [findEntry_of_mem hw.stamped hmem]
    | true =>
        cases hlink : newest.echoSourceId with
        | none =>
            refine ⟨newest, mem_selected.mpr ⟨hmem, fun _ => hlink⟩, ?_⟩
            simp [findEntry_of_mem hw.stamped hmem]
        | some id =>
            obtain ⟨-, source, hsource, rfl, hnone, -⟩ := h.source hw.linked hmem hlink
            refine ⟨source, mem_selected.mpr ⟨hsource, fun _ => hnone⟩, ?_⟩
            simp [findEntry_of_mem hw.stamped hsource]

end Listing

/-! ## The law of echoes -/

namespace Png

/-- The first bytes of every PNG. -/
def signature : Bytes := [0x89, 0x50, 0x4E, 0x47, 0x0D, 0x0A, 0x1A, 0x0A]

/-- The format of a file that begins like a PNG. -/
def format (bytes : Bytes) : Option String :=
  if signature.isPrefixOf bytes then some "image/png" else none

theorem format_some {bytes : Bytes} {mime : String} (h : format bytes = some mime) :
    mime = "image/png" := by
  rw [format] at h
  split at h <;> cases h
  rfl

/-- The big-endian number at the offset. -/
def number (offset : Nat) (bytes : Bytes) : Nat :=
  ((bytes.drop offset).take 4).foldl (fun n byte => 256 * n + byte.toNat) 0

/-- What the header says. -/
def dimensions (bytes : Bytes) : Option ImageMetadata :=
  (format bytes).map fun _ => ⟨number 16 bytes, number 20 bytes⟩

end Png

/-- A platform that knows a PNG by its signature and reads `file:` URLs. -/
def Platform.png : Platform where
  unicode := Unicode.ascii
  sha256 bytes := (List.replicate 32 0 ++ bytes).drop bytes.length
  guessFormat := Png.format
  readerFormat := Png.format
  intoDimensions := Png.dimensions
  isJson _ := false
  parseUrl s := if "file:///".toList.isPrefixOf s.toList then some ⟨s⟩ else none
  toFilePath url := some (asBytes (String.ofList (url.serialization.toList.drop 7)))
  lastPathSegment _ := none
  ftsMatch _ _ := false

/-- A PNG of one black pixel. -/
def picture : Bytes :=
  Png.signature ++ [
    0x00, 0x00, 0x00, 0x0D, 0x49, 0x48, 0x44, 0x52, 0x00, 0x00, 0x00, 0x01, 0x00, 0x00, 0x00, 0x01,
    0x08, 0x00, 0x00, 0x00, 0x00, 0x3A, 0x7E, 0x9B, 0x55, 0x00, 0x00, 0x00, 0x0A, 0x49, 0x44, 0x41,
    0x54, 0x78, 0xDA, 0x63, 0x60, 0x00, 0x00, 0x00, 0x02, 0x00, 0x01, 0xE5, 0x27, 0xDE, 0xFC, 0x00,
    0x00, 0x00, 0x00, 0x49, 0x45, 0x4E, 0x44, 0xAE, 0x42, 0x60, 0x82]

/-- The image is in one file. -/
def World.generated : World where
  symlinkMetadata path := if path = asBytes "/p.png" then some ⟨true, 67, 1, 1, 1⟩ else none
  pathExists path := path = asBytes "/p.png"
  openFile path := if path = asBytes "/p.png" then some (67, picture) else none

/-- An image is captured, and copied as a file. -/
def imageAsFile : List DatabaseOp :=
  [.request (.applyPolicy { StorePolicy.default with admission := true }) ⟨.empty, "0"⟩ .none,
    .request (.insert "image/png" picture) ⟨.empty, "s"⟩ .none,
    .request (.registerArtifact ⟨asBytes "/p.png", "entry-s",
      imageIdentity .png "image/png" picture, 0, 1, 1, 1⟩) ⟨.empty, "0"⟩ .none]

/-- The file is captured. -/
def captureFile : DatabaseOp :=
  .request (.insert "text/uri-list" (asBytes "file:///p.png")) ⟨.generated, "e"⟩ .none

/-- The text is saved over the image before. -/
def editSource : DatabaseOp :=
  .request (.replace "entry-s" 2 "text/plain" (asBytes "text")) ⟨.empty, "0"⟩ .none

/-- In every run whose steps link through no stale registration, every echo shows its image
through its source, what is hidden is listed as its source, and the current entry is listed. -/
theorem echoes_show_sources (P : Platform) (ops : List DatabaseOp)
    (hcurrent : ∀ before op rest, ops = before ++ op :: rest →
      (Echoes.fresh.after P before).store.Current P op) :
    Shown P (Echoes.fresh.after P ops).store.committed (Echoes.fresh.after P ops).compared := by
  refine (Echoes.echoed_after ops hcurrent).shown ?_
  rw [Echoes.store_after]
  exact Store.after_wellFormed P ops

/-- The file of an image is captured, and its entry is hidden behind the image. -/
theorem echoes_show_sources_captured :
    Shown .png (Echoes.fresh.after .png (imageAsFile ++ [captureFile])).store.committed
      (Echoes.fresh.after .png (imageAsFile ++ [captureFile])).compared := by
  refine echoes_show_sources .png (imageAsFile ++ [captureFile]) fun before op rest heq => ?_
  have hbefore : before = (imageAsFile ++ [captureFile]).take before.length := by simp [heq]
  have hop : (imageAsFile ++ [captureFile])[before.length]? = some op := by simp [heq]
  have hlength : before.length < 4 := by
    have hlength := congrArg List.length heq
    simp [imageAsFile] at hlength
    omega
  rw [hbefore]
  generalize before.length = n at hop hlength
  have hall : ∀ n < 4, ∀ op ∈ (imageAsFile ++ [captureFile])[n]?,
      (Echoes.fresh.after .png ((imageAsFile ++ [captureFile]).take n)).store.Current .png op := by
    decide +kernel
  exact hall n hlength op hop

/-- The image was edited before its file is captured: the entry of the file is hidden behind a
text. -/
theorem stale_link :
    let s := Echoes.fresh.after .png (imageAsFile ++ [editSource, captureFile])
    ¬Shown .png s.store.committed s.compared := by
  intro s h
  obtain ⟨e, he, hid⟩ : ∃ e ∈ s.store.committed.entries, e.echoSourceId = some "entry-s" := by
    decide +kernel
  obtain ⟨-, source, -, -, -, identity, -, himage⟩ := h.source e he _ hid
  have hnone : s.store.committed.image .png "entry-s" = none := by
    decide +kernel
  rw [hnone] at himage
  cases himage

end ClipDaemon
