import ClipDaemon.Store.Echo
import ClipDaemon.Store.Retention
import ClipDaemon.Store.Rows

/-!
# Inserting what was copied

An insertion finds an entry with the same type and the same bytes, or makes a new one, and
the entry becomes the most recent one.  Edits can make several entries identical; the most
recent of them is found.

`insert_exact` says when an insertion succeeds and what it leaves.  It is refused when the
catalog revision has reached the bound of the schema, and it may clear the link of another
entry: that of an echo whose source retention evicts (`insert_bounded_unlinks`).
-/

namespace ClipDaemon

open Eviction SideTable

/-- A type and a payload are stored in an entry. -/
def Tables.Holds (mime : String) (bytes : Bytes) (t : Tables) : Prop :=
  ∃ e ∈ t.entries, e.mime = mime ∧ t.bytesOf e.id = bytes

/-- They are stored in the current entry. -/
def Tables.HoldsNow (mime : String) (bytes : Bytes) (t : Tables) : Prop :=
  ∃ e ∈ t.entries, e.mime = mime ∧ t.bytesOf e.id = bytes ∧ e.recency = Database.maxRecency t

/-- What the libraries promise about the names and the digests they compute. -/
structure Platform.Named (P : Platform) : Prop where
  sha256 : ∀ bytes, (P.sha256 bytes).length = 32
  guessFormat : ∀ bytes mime, P.guessFormat bytes = some mime → byteLen mime ≤ 255
  readerFormat : ∀ bytes mime, P.readerFormat bytes = some mime → byteLen mime ≤ 255

/-- What an insertion asks for. -/
structure Accepts (env : Env) (mime : String) (bytes : Bytes) (t : Tables) : Prop where
  admission : t.effectivePolicy.admission = true
  entryBytes : bytes.length ≤ t.effectivePolicy.maxEntryBytes
  totalBytes : bytes.length ≤ t.effectivePolicy.maxTotalBytes
  capacity : t.effectivePolicy.maxEntries ≠ 0 ∨ t.Holds mime bytes
  /-- The catalog revision is counted on, unless nothing changes. -/
  revision : t.storeMeta.revision + 1 < MAX_REVISION ∨ t.HoldsNow mime bytes
  /-- The id of a new entry is new. -/
  fresh : t.hasEntry ("entry-" ++ env.uuid) = false ∨ t.Holds mime bytes

/-- A row stays as it is, or loses its link because the source is gone. -/
def EntryRow.StaysIn (t' : Tables) (s e : EntryRow) : Prop :=
  s = e ∨ ∃ source, e.echoSourceId = some source ∧ t'.hasEntry source = false ∧
    s = { e with echoSourceId := none }

/-- What an insertion leaves, where `summary` is what it returns. -/
structure Inserted (mime : String) (bytes : Bytes) (t t' : Tables) (summary : EntrySummary) :
    Prop where
  /-- The entry returned is the most recent one and holds what was inserted. -/
  newest : ∃ s ∈ t'.entries, summary = Database.decodeSummary t' s ∧ s.mime = mime ∧
    t'.bytesOf s.id = bytes ∧ ∀ s' ∈ t'.entries, s'.id ≠ s.id → s'.recency < s.recency
  /-- A content that was stored makes no entry: one that holds it gets new stamps. -/
  known : t.Holds mime bytes → (∀ s ∈ t'.entries, t.hasEntry s.id = true) ∧
    ∃ e ∈ t.entries, ∃ s ∈ t'.entries, s.id = summary.id ∧ e.mime = mime ∧
      t.bytesOf e.id = bytes ∧ s.StaysIn t' { e with revision := s.revision, recency := s.recency }
  current : t.HoldsNow mime bytes → t' = t
  others : ∀ s ∈ t'.entries, s.id ≠ summary.id → ∃ e ∈ t.entries, s.StaysIn t' e ∧
    t'.bytesOf s.id = t.bytesOf e.id
  /-- Entries go by retention only. -/
  gone : t' = t ∨ ∃ placed : Tables, (∀ e ∈ t.entries, placed.hasEntry e.id = true) ∧
    t' = placed.retained t.effectivePolicy summary.id

/-! ## Identical entries -/

section Identical

variable {P : Platform} {t : Tables}

/-- A duplicate has the type and the payload. -/
theorem duplicate_some {mime id : String} {bytes : Bytes}
    (h : Database.duplicate P mime bytes t = some id) :
    ∃ e ∈ t.entries, e.id = id ∧ e.mime = mime ∧ ⟨e.id, bytes⟩ ∈ t.payloads := by
  rw [Database.duplicate] at h
  obtain ⟨e, hhead, hid⟩ := Option.map_eq_some_iff.mp h
  have hmem := List.mem_of_mem_head? hhead
  rw [List.mem_insertionSort, List.mem_filter] at hmem
  obtain ⟨he, hsame⟩ := hmem
  simp only [Bool.and_eq_true, decide_eq_true_eq] at hsame
  exact ⟨e, he, hid, hsame.1.1.2, hsame.2⟩

theorem recency_le_maxRecency {e : EntryRow} (he : e ∈ t.entries) :
    e.recency ≤ Database.maxRecency t := by
  rw [Database.maxRecency]
  generalize t.entries = entries at he
  induction entries with
  | nil => cases he
  | cons e' entries ih =>
      rw [List.map_cons, List.foldr_cons]
      rcases List.mem_cons.mp he with rfl | he
      · exact Nat.le_max_left _ _
      · exact (ih he).trans (Nat.le_max_right _ _)

/-- A stored content has a duplicate, and the current entry is its own. -/
theorem duplicate_of_stored (h : WellFormed P t) {e : EntryRow} (he : e ∈ t.entries) :
    ∃ id, Database.duplicate P e.mime (t.bytesOf e.id) t = some id ∧
      (e.recency = Database.maxRecency t → id = e.id) := by
  obtain ⟨content, hc⟩ := h.contents
  have hbytes := bytesOf_eq hc h.stamped he
  have hpayload : ⟨e.id, t.bytesOf e.id⟩ ∈ t.payloads := by
    have hrows := List.perm_singleton.mp
      (hc.payloads.filter_key (payloadRows_key content) h.stamped.ids he)
    have hmem : (⟨e.id, content e.id⟩ : PayloadRow) ∈ t.payloads.filter fun p =>
        p.entryId = e.id := by
      rw [hrows]
      exact List.mem_singleton_self _
    rw [hbytes]
    exact (List.mem_filter.mp hmem).1
  have : Std.Total fun a b : EntryRow => b.recency ≤ a.recency := ⟨fun a b => Nat.le_total _ _⟩
  have : IsTrans EntryRow fun a b => b.recency ≤ a.recency := ⟨fun _ _ _ h h' => h'.trans h⟩
  simp only [Database.duplicate]
  generalize hsame : (t.entries.filter fun e' => e'.digest = P.sha256 (t.bytesOf e.id) &&
    e'.mime = e.mime && e'.byteSize = (t.bytesOf e.id).length &&
      (⟨e'.id, t.bytesOf e.id⟩ : PayloadRow) ∈ t.payloads) = same
  have hmem : e ∈ same := by
    rw [← hsame, List.mem_filter]
    simp only [hbytes] at hpayload ⊢
    simp [he, hpayload, hc.digest e he, hc.size e he]
  have hsub : ∀ e' ∈ same, e' ∈ t.entries := fun e' he' =>
    (List.mem_filter.mp (hsame ▸ he')).1
  have hsorted := List.pairwise_insertionSort (fun a b : EntryRow => b.recency ≤ a.recency) same
  have hperm := List.perm_insertionSort (fun a b : EntryRow => b.recency ≤ a.recency) same
  cases hlist : same.insertionSort fun a b => b.recency ≤ a.recency with
  | nil =>
      rw [hlist] at hperm
      rw [List.nil_perm.mp hperm] at hmem
      cases hmem
  | cons first rest =>
      rw [hlist] at hsorted hperm
      refine ⟨first.id, rfl, fun hcurrent => ?_⟩
      have hfirst : first ∈ t.entries := hsub first (hperm.mem_iff.mp (List.mem_cons_self ..))
      rcases List.mem_cons.mp (hperm.mem_iff.mpr hmem) with rfl | hrest
      · rfl
      · have hle := List.rel_of_pairwise_cons hsorted hrest
        have hmax := recency_le_maxRecency hfirst
        rw [List.inj_on_of_nodup_map h.stamped.recencies hfirst he (by omega)]

/-- Inserting what is current already changes nothing. -/
theorem insert_current {env : Env} {mime id : String} {bytes : Bytes} {e : EntryRow}
    {r : EntrySummary × Tables} (hduplicate : Database.duplicate P mime bytes t = some id)
    (he : Database.findEntry id t = some e) (hcurrent : e.recency = Database.maxRecency t)
    (h : (Database.insert P env mime bytes).eval t = .ok r) : r.2 = t := by
  simp only [Database.insert, Database.policy, Prog.eval_bind, eval_rows] at h
  split at h
  · rw [Prog.eval_throw] at h
    cases h
  · obtain ⟨_, t₁, hallowed, h⟩ := Prog.eval_bind_ok.mp h
    obtain ⟨-, -, ht⟩ := Database.allowedPayload_ok hallowed
    have ht : t₁ = t := ht
    subst ht
    simp only [Prog.eval_bind, eval_rows] at h
    rw [hduplicate] at h
    obtain ⟨existing, t₂, hsummary, h⟩ := Prog.eval_bind_ok.mp h
    obtain ⟨e', he', -, hst⟩ := Database.summary_ok.mp hsummary
    cases hst
    rw [he] at he'
    cases he'
    rw [if_pos (by simpa [Database.decodeSummary] using hcurrent), Prog.eval_pure] at h
    exact congrArg Prod.snd (Except.ok.inj h).symm

theorem bytesOf_of_mem (h : WellFormed P t) {e : EntryRow} (he : e ∈ t.entries) {bytes : Bytes}
    (hp : (⟨e.id, bytes⟩ : PayloadRow) ∈ t.payloads) : t.bytesOf e.id = bytes := by
  obtain ⟨content, hc⟩ := h.contents
  have hrows := List.perm_singleton.mp
    (hc.payloads.filter_key (payloadRows_key content) h.stamped.ids he)
  have hmem : (⟨e.id, bytes⟩ : PayloadRow) ∈ t.payloads.filter fun p => p.entryId = e.id :=
    List.mem_filter.mpr ⟨hp, by simp⟩
  rw [hrows, List.mem_singleton] at hmem
  rw [bytesOf_eq hc h.stamped he, (PayloadRow.mk.inj hmem).2]

/-- An identical entry is found when there is one. -/
theorem duplicate_iff {mime : String} {bytes : Bytes} (h : WellFormed P t) :
    (Database.duplicate P mime bytes t).isSome ↔ t.Holds mime bytes := by
  constructor
  · intro hfound
    obtain ⟨id, hid⟩ := Option.isSome_iff_exists.mp hfound
    obtain ⟨e, he, -, hmime, hpayload⟩ := duplicate_some hid
    exact ⟨e, he, hmime, bytesOf_of_mem h he hpayload⟩
  · rintro ⟨e, he, rfl, rfl⟩
    obtain ⟨id, hid, -⟩ := duplicate_of_stored h he
    rw [hid]
    rfl

/-- The current entry is found when it is identical. -/
theorem current_iff {mime id : String} {bytes : Bytes} {e : EntryRow} (h : WellFormed P t)
    (hduplicate : Database.duplicate P mime bytes t = some id)
    (he : Database.findEntry id t = some e) :
    e.recency = Database.maxRecency t ↔ t.HoldsNow mime bytes := by
  obtain ⟨hmem, rfl⟩ := Database.findEntry_some he
  obtain ⟨e₀, he₀, hid, hmime, hpayload⟩ := duplicate_some hduplicate
  obtain rfl : e₀ = e := List.inj_on_of_nodup_map h.stamped.ids he₀ hmem hid
  constructor
  · exact fun hcurrent => ⟨e₀, hmem, hmime, bytesOf_of_mem h hmem hpayload, hcurrent⟩
  · rintro ⟨e, hin, rfl, rfl, hcurrent⟩
    obtain ⟨id, hid, howner⟩ := duplicate_of_stored h hin
    rw [hid] at hduplicate
    have hsame : e.id = e₀.id := (howner hcurrent).symm.trans (Option.some.inj hduplicate)
    rw [← List.inj_on_of_nodup_map h.stamped.ids hin hmem hsame]
    exact hcurrent

end Identical

/-! ## The constraints of a new entry -/

section Constraints

variable {P : Platform} {env : Env} {t : Tables} {mime : String} {bytes : Bytes}

theorem sqlLength_le (s : String) : sqlLength s ≤ byteLen s :=
  (List.takeWhile_sublist _).length_le.trans (length_le_byteLen s)

/-- The type a content is listed under is short. -/
theorem byteLen_resolved_mime (hP : P.Named) (W : World) (hmime : byteLen mime ≤ 255)
    (bytes : Bytes) (limit : Nat) :
    byteLen (ResolvedContent.resolve P W mime bytes limit).mime ≤ 255 := by
  have hstored : byteLen (storedMimeOr mime) ≤ 255 := by
    unfold storedMimeOr
    split
    · decide
    · exact hmime
  cases hguess : P.guessFormat bytes with
  | some detected =>
      rw [ResolvedContent.mime_of_guessFormat hguess]
      exact hP.guessFormat bytes detected hguess
  | none =>
      cases hlocal : (ResolvedContent.resolve P W mime bytes limit).localImage with
      | none =>
          rw [ResolvedContent.mime_of_plain hguess hlocal]
          exact hstored
      | some source =>
          obtain ⟨files, hsource, hresolved⟩ : ∃ files,
              localImageSourceFromFiles P W files limit = some source ∧
              (ResolvedContent.resolve P W mime bytes limit).mime = source.mime := by
            unfold ResolvedContent.resolve at hlocal ⊢
            simp only [hguess] at hlocal ⊢
            split at hlocal
            next found hfound =>
              simp only [ResolvedContent.localImage, Option.some.injEq] at hlocal
              subst hlocal
              exact ⟨_, hfound, rfl⟩
            next => cases hlocal
          rw [hresolved]
          unfold localImageSourceFromFiles at hsource
          split at hsource
          next file =>
            simp only [Option.bind_eq_bind, Option.bind_eq_some_iff] at hsource
            obtain ⟨url, -, path, -, metadata, -, hsource⟩ := hsource
            split at hsource
            · cases hsource
            · simp only [Option.bind_eq_some_iff] at hsource
              obtain ⟨⟨_, content⟩, -, format, hformat, _, -, hsource⟩ := hsource
              rw [← Option.some.inj hsource]
              exact hP.readerFormat content format hformat
          next => cases hsource

/-- The row of a new entry passes its checks. -/
theorem check_newEntry (hP : P.Named) (W : World) (id : String) (hmime : byteLen mime ≤ 255)
    (hsize : bytes.length ≤ MAX_ENTRY_BYTES) (revision recency : Nat) :
    (Database.newEntry P W id mime bytes (revision + 1) (recency + 1)).check = true := by
  have hresolved := byteLen_resolved_mime hP W hmime bytes MAX_ENTRY_BYTES
  have hmimeLength := (sqlLength_le mime).trans hmime
  have hresolvedLength := (sqlLength_le _).trans hresolved
  simp [EntryRow.check, Database.newEntry, hmimeLength, hresolvedLength, hsize, hP.sha256 bytes]

/-- Rows for some paths of an entry can be added when it has none. -/
theorem insertEntryArtifacts_succeeds {id : String} {paths : List FilePath} (hnodup : paths.Nodup)
    (hentry : t.hasEntry id = true)
    (hfree : ∀ path ∈ paths, (⟨id, path⟩ : EntryArtifactRow) ∉ t.entryArtifacts) :
    ∃ r, (paths.forM fun path => exec (Tables.insertEntryArtifact ⟨id, path⟩)).eval t = .ok r := by
  induction paths generalizing t with
  | nil => exact ⟨_, rfl⟩
  | cons path paths ih =>
      have hfirst : t.insertEntryArtifact ⟨id, path⟩ =
          .ok { t with entryArtifacts := t.entryArtifacts ++ [⟨id, path⟩] } := by
        simp [Tables.insertEntryArtifact, hentry, hfree path (List.mem_cons_self ..)]
      obtain ⟨hpath, hnodup⟩ := List.nodup_cons.mp hnodup
      rw [List.forM_eq_forM, List.forM_cons, Prog.eval_bind, eval_exec, hfirst]
      refine ih (t := { t with entryArtifacts := t.entryArtifacts ++ [⟨id, path⟩] }) hnodup hentry
        fun path' hpath' => ?_
      have hne : path' ≠ path := fun heq => hpath (heq ▸ hpath')
      simp [hfree path' (List.mem_cons_of_mem _ hpath'), hne]

theorem linkSource_succeeds (W : World) (id : String) (resolved : ResolvedContent) :
    ∃ r, (Database.linkSource P W id resolved).eval t = .ok r := by
  unfold Database.linkSource
  cases resolved.localImage with
  | none => exact ⟨_, rfl⟩
  | some source =>
      dsimp only
      cases toStr source.path with
      | none => exact ⟨_, rfl⟩
      | some path =>
          simp only [Database.artifactGet, Prog.eval_bind, eval_rows]
          cases t.artifacts.find? fun a => a.path = path with
          | none => exact ⟨_, rfl⟩
          | some record =>
              dsimp only
              split
              · exact ⟨_, rfl⟩
              · simp only [Prog.eval_bind, eval_rows]
                split
                next hcount =>
                  -- the source was counted, so the foreign key is there
                  obtain ⟨id', hid'⟩ := List.exists_mem_of_length_pos (by omega :
                    0 < (t.entryIds fun e => e.id = record.sourceEntryId).length)
                  obtain ⟨e, he, -⟩ := List.mem_map.mp hid'
                  obtain ⟨he, hid⟩ := List.mem_filter.mp he
                  have hsource : t.hasEntry record.sourceEntryId = true :=
                    hasEntry_iff.mpr ⟨e, he, by simpa using hid⟩
                  rw [eval_exec, Tables.linkEcho, if_pos hsource]
                  exact ⟨_, rfl⟩
                next => exact ⟨_, rfl⟩

theorem insertSearch_succeeds {row : SearchRow} (hentry : t.hasEntry row.entryId = true)
    (hfree : ∀ s ∈ t.searchContent, s.entryId ≠ row.entryId) :
    t.insertSearch row = .ok { t with searchContent := t.searchContent ++ [row] } := by
  simpa [Tables.insertSearch, hentry] using hfree

/-- The content of an entry without side rows can be written. -/
theorem writeContent_succeeds (W : World) (id : String) (resolved : ResolvedContent)
    (hentry : t.hasEntry id = true) (hsize : bytes.length ≤ MAX_ENTRY_BYTES)
    (hpayloads : ∀ p ∈ t.payloads, p.entryId ≠ id) (hsearch : ∀ s ∈ t.searchContent, s.entryId ≠ id)
    (hartifacts : ∀ a ∈ t.entryArtifacts, a.entryId ≠ id) :
    ∃ r, (Database.writeContent P W id mime bytes resolved).eval t = .ok r := by
  have hpayload : t.insertPayload ⟨id, bytes⟩ =
      .ok { t with payloads := t.payloads ++ [⟨id, bytes⟩] } := by
    simpa [Tables.insertPayload, hentry, hsize] using hpayloads
  have hrow : ({ t with payloads := t.payloads ++ [⟨id, bytes⟩] } : Tables).insertSearch
      (Database.searchRow P id mime bytes) = .ok { t with
        payloads := t.payloads ++ [⟨id, bytes⟩]
        searchContent := t.searchContent ++ [Database.searchRow P id mime bytes] } :=
    insertSearch_succeeds hentry hsearch
  obtain ⟨⟨_, t'⟩, hr⟩ := insertEntryArtifacts_succeeds (t := { t with
      payloads := t.payloads ++ [⟨id, bytes⟩]
      searchContent := t.searchContent ++ [Database.searchRow P id mime bytes] })
    (artifactPaths_nodup P bytes) hentry (fun path _ hmem => hartifacts _ hmem rfl)
  rw [Database.writeContent, Prog.eval_bind, eval_exec, hpayload]
  simp only [Except.map]
  rw [Prog.eval_bind, eval_exec, hrow]
  simp only [Except.map]
  rw [Prog.eval_bind, hr]
  exact linkSource_succeeds W id resolved

end Constraints

/-! ## Success -/

theorem validate_insert_ok {mime : String} {bytes : Bytes}
    (h : (Request.insert mime bytes).validate = .ok ()) :
    byteLen mime ≤ 255 ∧ bytes.length ≤ MAX_ENTRY_BYTES := by
  simp only [Request.validate, validateInput] at h
  split at h
  · cases h
  next hlimits => omega

section Succeeds

variable {P : Platform} {env : Env} {t : Tables} {mime : String} {bytes : Bytes}

theorem bump_succeeds (hrevision : t.storeMeta.revision + 1 < MAX_REVISION) :
    Database.bump.eval t = .ok (t.storeMeta.revision + 1, t.bumped) :=
  Database.bump_ok.mpr ⟨hrevision, rfl⟩

theorem sequence_succeeds (hsequence : t.storeMeta.sequence + 1 ≤ I64_MAX) :
    Database.sequence.eval t = .ok (t.storeMeta.sequence + 1, t.sequenced) :=
  Database.sequence_ok.mpr ⟨hsequence, rfl⟩

/-- Retention keeps an entry that has a place and fits, and its summary can be read. -/
theorem retain_succeeds {policy : StorePolicy} {e : EntryRow} (hkeys : Keyed t) (he : e ∈ t.entries)
    (hcapacity : 1 ≤ policy.capacity e.favorite) (hsize : e.byteSize ≤ policy.maxTotalBytes) :
    (Database.retain policy (some e.id)).eval t = .ok ((), t.retained policy e.id) ∧
      ∃ r, (Database.summary e.id none).eval (t.retained policy e.id) = .ok r := by
  have hin := (hasEntry_retained hkeys he rfl).mpr ⟨hcapacity, hsize⟩
  refine ⟨Database.retain_ok_iff.mpr ⟨rfl, .inr hin⟩, ?_⟩
  rw [← Database.findEntry_isSome] at hin
  obtain ⟨e', he'⟩ := Option.isSome_iff_exists.mp hin
  rw [Database.eval_summary_none, he']
  exact ⟨_, rfl⟩

/-- An entry that is stored has a place in its category and fits. -/
theorem Within.place {policy : StorePolicy} (h : Within policy t.entries) {e : EntryRow}
    (he : e ∈ t.entries) :
    1 ≤ policy.capacity e.favorite ∧ e.byteSize ≤ policy.maxTotalBytes := by
  constructor
  · have hmem : e ∈ category e.favorite t.entries := List.mem_filter.mpr ⟨he, by simp⟩
    have hpos := List.length_pos_of_mem hmem
    cases hf : e.favorite with
    | false => rw [hf] at hpos; exact hpos.trans_le h.regular
    | true => rw [hf] at hpos; exact hpos.trans_le h.favorites
  · exact (List.single_le_sum (by simp) _ (List.mem_map_of_mem he)).trans h.totalBytes

/-- Links change nothing else. -/
theorem sameRow_linked (link : Option String) (id : String) (t : Tables) {e : EntryRow}
    (he : e ∈ t.entries) : ∃ s ∈ (t.linked link id).entries, s.SameRow e := by
  cases link with
  | none => exact ⟨e, he, .refl e⟩
  | some source =>
      by_cases hid : e.id = id
      · exact ⟨_, mem_mapEntries.mpr ⟨e, he, (if_pos (by simpa using hid)).symm⟩, rfl⟩
      · exact ⟨e, mem_mapEntries.mpr ⟨e, he, (if_neg (by simpa using hid)).symm⟩, .refl e⟩

/-- The new entry is there. -/
theorem mem_created (P : Platform) (env : Env) (mime : String) (bytes : Bytes) (t : Tables) :
    ∃ e ∈ (t.created P env mime bytes).entries, e.SameRow (Database.newEntry P env.world
      ("entry-" ++ env.uuid) mime bytes (t.storeMeta.revision + 1) (t.storeMeta.sequence + 1)) :=
  sameRow_linked _ _ _ (List.mem_append_right _ (List.mem_singleton_self _))

/-- The changing part of an insertion succeeds when the placed entry has a place and fits. -/
theorem place_succeeds {policy : StorePolicy} {candidate : Option String} {t' : Tables}
    {e : EntryRow} (hrevision : t.storeMeta.revision + 1 < MAX_REVISION)
    (hsequence : t.storeMeta.sequence + 1 ≤ I64_MAX)
    (hplaced : (match candidate with
      | some id => Database.promote id (t.storeMeta.revision + 1) (t.storeMeta.sequence + 1)
      | none => Database.create P env policy mime bytes (t.storeMeta.revision + 1)
          (t.storeMeta.sequence + 1)).eval t.bumped.sequenced = .ok (e.id, t'))
    (hkeys : Keyed t') (he : e ∈ t'.entries) (hcapacity : 1 ≤ policy.capacity e.favorite)
    (hsize : e.byteSize ≤ policy.maxTotalBytes) :
    ∃ r, (Database.place P env policy mime bytes candidate).eval t = .ok r := by
  obtain ⟨hretain, r, hsummary⟩ := retain_succeeds hkeys he hcapacity hsize
  refine ⟨r, Prog.eval_bind_ok.mpr ⟨_, _, bump_succeeds hrevision, ?_⟩⟩
  refine Prog.eval_bind_ok.mpr ⟨_, _, sequence_succeeds (t := t.bumped) hsequence, ?_⟩
  refine Prog.eval_bind_ok.mpr ⟨_, _, hplaced, ?_⟩
  exact Prog.eval_bind_ok.mpr ⟨_, _, hretain, hsummary⟩

/-- An identical entry can be promoted. -/
theorem place_promote_succeeds (h : Reached P t) {e : EntryRow} (he : e ∈ t.entries)
    (hrevision : t.storeMeta.revision + 1 < MAX_REVISION) :
    ∃ r, (Database.place P env t.effectivePolicy mime bytes (some e.id)).eval t = .ok r := by
  have hsequence := h.sequence_room hrevision
  have hpromote : (Database.promote e.id (t.storeMeta.revision + 1)
      (t.storeMeta.sequence + 1)).eval t.bumped.sequenced = .ok (e.id, t.promoted e.id) := by
    have hupdate : t.bumped.sequenced.updateEntries (·.id = e.id) (fun e' => { e' with
        revision := t.storeMeta.revision + 1, recency := t.storeMeta.sequence + 1 }) =
          .ok (t.promoted e.id) := by
      refine Database.updateEntries_ok.mpr ⟨fun e' he' _ => ?_, rfl⟩
      have hcheck := h.checks e' he'
      simp only [EntryRow.check, Bool.and_eq_true, decide_eq_true_eq] at hcheck ⊢
      simp [hcheck]
    rw [Database.promote, Prog.eval_bind, eval_exec, hupdate]
    rfl
  obtain ⟨e', he', hid, hfavorite, hbytes⟩ : ∃ e' ∈ (t.promoted e.id).entries, e'.id = e.id ∧
      e'.favorite = e.favorite ∧ e'.byteSize = e.byteSize :=
    ⟨{ e with revision := t.storeMeta.revision + 1, recency := t.storeMeta.sequence + 1 },
      mem_mapEntries.mpr ⟨e, he, by simp⟩, rfl, rfl, rfl⟩
  obtain ⟨hcapacity, hsize⟩ := h.within.place he
  exact place_succeeds hrevision hsequence (hid.symm ▸ hpromote)
    (.of_stamped (h.toSound.promoted hrevision hsequence).stamped) he' (hfavorite ▸ hcapacity)
    (hbytes ▸ hsize)

/-- A new entry can be made. -/
theorem place_create_succeeds (hP : P.Named) (h : Reached P t)
    (hrevision : t.storeMeta.revision + 1 < MAX_REVISION)
    (hfresh : t.hasEntry ("entry-" ++ env.uuid) = false)
    (hcapacity : t.effectivePolicy.maxEntries ≠ 0) (hmime : byteLen mime ≤ 255)
    (hsize : bytes.length ≤ MAX_ENTRY_BYTES)
    (htotal : bytes.length ≤ t.effectivePolicy.maxTotalBytes) :
    ∃ r, (Database.place P env t.effectivePolicy mime bytes none).eval t = .ok r := by
  have hsequence := h.sequence_room hrevision
  have hrow : t.bumped.sequenced.insertEntry (Database.newEntry P env.world
      ("entry-" ++ env.uuid) mime bytes (t.storeMeta.revision + 1) (t.storeMeta.sequence + 1)) =
        .ok (t.withEntry P env mime bytes) := by
    have hcheck := check_newEntry hP env.world ("entry-" ++ env.uuid) hmime hsize
      t.storeMeta.revision t.storeMeta.sequence
    have hfresh' : t.bumped.sequenced.hasEntry ("entry-" ++ env.uuid) = false := hfresh
    rw [Tables.insertEntry, if_neg (by simp [Database.newEntry, hfresh']), if_pos hcheck]
    rfl
  have hentry : (t.withEntry P env mime bytes).hasEntry ("entry-" ++ env.uuid) = true :=
    hasEntry_iff.mpr ⟨_, List.mem_append_right _ (List.mem_singleton_self _), rfl⟩
  have habsent : ∀ id, t.hasEntry id = true → id ≠ "entry-" ++ env.uuid := by
    rintro _ hid rfl
    rw [hfresh] at hid
    cases hid
  have howners := h.toWellFormed.storeInvariant
  obtain ⟨⟨_, t'⟩, hcontent⟩ := writeContent_succeeds (P := P) (t := t.withEntry P env mime bytes)
    env.world ("entry-" ++ env.uuid)
    (ResolvedContent.resolve P env.world mime bytes MAX_ENTRY_BYTES) hentry hsize
    (fun p hp => habsent _ (howners.payloadOwners p hp))
    (fun s hs => habsent _ (howners.searchOwners s hs))
    (fun a ha => habsent _ (howners.artifactOwners a ha))
  have hcreate : (Database.create P env t.effectivePolicy mime bytes (t.storeMeta.revision + 1)
      (t.storeMeta.sequence + 1)).eval t.bumped.sequenced = .ok ("entry-" ++ env.uuid, t') := by
    rw [Database.create, if_neg hcapacity]
    refine Prog.eval_bind_ok.mpr ⟨(), t.withEntry P env mime bytes, ?_, ?_⟩
    · rw [eval_exec, hrow]
      rfl
    · exact Prog.eval_bind_ok.mpr ⟨_, _, hcontent, rfl⟩
  obtain ⟨-, -, hcreated⟩ := Database.create_ok hcreate
  obtain rfl : t' = t.created P env mime bytes := (Prod.mk.inj hcreated).2
  obtain ⟨e, he, hsame⟩ := mem_created P env mime bytes t
  have hid : e.id = "entry-" ++ env.uuid := hsame.id_eq
  have hplace : 1 ≤ t.effectivePolicy.capacity e.favorite := by
    rw [hsame.favorite_eq]
    exact Nat.one_le_iff_ne_zero.mpr hcapacity
  exact place_succeeds hrevision hsequence (hid.symm ▸ hcreate)
    (.of_stamped (h.toSound.created hfresh hrevision hsequence).stamped) he hplace
    (hsame.byteSize_eq ▸ htotal)

/-- An insertion succeeds exactly when the store accepts it. -/
theorem insert_succeeds_iff (hP : P.Named) (h : Reached P t)
    (hvalid : (Request.insert mime bytes).validate = .ok ()) :
    (∃ r, (Database.insert P env mime bytes).eval t = .ok r) ↔ Accepts env mime bytes t := by
  obtain ⟨hmime, hbytes⟩ := validate_insert_ok hvalid
  constructor
  · rintro ⟨r, hinsert⟩
    obtain ⟨hadmission, hentry, htotal, hcases⟩ := Database.insert_ok hinsert
    refine ⟨hadmission, hentry, htotal, ?_, ?_, ?_⟩ <;>
      rcases hcases with ⟨id, e, hduplicate, hfind, hcurrent, -⟩ |
        ⟨hrevision, -, id, e, -, -, ⟨hduplicate, -⟩ | ⟨-, hcapacity, rfl, hfresh, -⟩⟩
    · exact .inr ((duplicate_iff h.toWellFormed).mp (by rw [hduplicate]; rfl))
    · exact .inr ((duplicate_iff h.toWellFormed).mp (by rw [hduplicate]; rfl))
    · exact .inl hcapacity
    · exact .inr ((current_iff h.toWellFormed hduplicate hfind).mp hcurrent)
    · exact .inl hrevision
    · exact .inl hrevision
    · exact .inr ((duplicate_iff h.toWellFormed).mp (by rw [hduplicate]; rfl))
    · exact .inr ((duplicate_iff h.toWellFormed).mp (by rw [hduplicate]; rfl))
    · exact .inl hfresh
  · intro haccepts
    have hallowed : (Database.allowedPayload t.effectivePolicy bytes).eval t = .ok ((), t) := by
      rw [Database.allowedPayload, if_neg (by
        have := haccepts.entryBytes
        have := haccepts.totalBytes
        omega)]
      rfl
    simp only [Database.insert, Database.policy, Prog.eval_bind, eval_rows, haccepts.admission,
      Bool.not_true, Bool.false_eq_true, if_false, hallowed]
    cases hduplicate : Database.duplicate P mime bytes t with
    | none =>
        have hnone : ¬ t.Holds mime bytes := fun hholds => by
          have hsome := (duplicate_iff (P := P) h.toWellFormed).mpr hholds
          rw [hduplicate] at hsome
          cases hsome
        have hnow : ¬ t.HoldsNow mime bytes := by
          rintro ⟨e, he, hmime, hbytes, -⟩
          exact hnone ⟨e, he, hmime, hbytes⟩
        exact place_create_succeeds hP h (haccepts.revision.resolve_right hnow)
          (haccepts.fresh.resolve_right hnone) (haccepts.capacity.resolve_right hnone) hmime hbytes
          haccepts.totalBytes
    | some id =>
        obtain ⟨e, he, rfl, -⟩ := duplicate_some hduplicate
        have hfind := findEntry_of_mem h.stamped he
        have hsummary : (Database.summary e.id none).eval t = .ok (Database.decodeSummary t e, t) :=
          Database.summary_ok.mpr ⟨e, hfind, fun _ hn => (by cases hn), rfl⟩
        simp only [Prog.eval_bind, hsummary]
        split
        · exact ⟨_, rfl⟩
        next hcurrent =>
          have hnow : ¬ t.HoldsNow mime bytes := fun hnow => hcurrent (by
            simpa [Database.decodeSummary] using
              (current_iff h.toWellFormed hduplicate hfind).mpr hnow)
          exact place_promote_succeeds h he (haccepts.revision.resolve_right hnow)

end Succeeds

/-! ## What is left -/

section Left

variable {P : Platform} {env : Env} {t t' t'' placed : Tables} {mime id : String} {bytes : Bytes}

/-- Every row of the second state stays, or loses its link to a source that is gone. -/
def Stays (t t' : Tables) : Prop := ∀ s ∈ t'.entries, ∃ e ∈ t.entries, s.StaysIn t' e

theorem Stays.trans (h : Stays t t') (h' : Stays t' t'') (hremains : Remains t' t'') :
    Stays t t'' := by
  intro s hs
  obtain ⟨s', hs', hstays'⟩ := h' s hs
  obtain ⟨e, he, hstays⟩ := h s' hs'
  refine ⟨e, he, ?_⟩
  have hgone : ∀ source, t'.hasEntry source = false → t''.hasEntry source = false := by
    intro source hsource
    cases hin : t''.hasEntry source with
    | false => rfl
    | true => rw [hremains.hasEntry hin] at hsource; cases hsource
  rcases hstays with rfl | ⟨source, hlink, hsource, rfl⟩
  · exact hstays'
  · rcases hstays' with rfl | ⟨_, hnone, -⟩
    · exact .inr ⟨source, hlink, hgone source hsource, rfl⟩
    · cases hnone

theorem stays_deleteEntries (ids : List String) : Stays t (t.deleteEntries ids) := by
  intro s hs
  obtain ⟨e, he, -, rfl⟩ := (mem_deleteEntries ids).mp hs
  refine ⟨e, he, ?_⟩
  unfold EntryRow.unlink
  split
  next hany =>
    obtain ⟨source, hsource, hin⟩ := (Option.any_eq_true ..).mp hany
    refine .inr ⟨source, hsource, ?_, rfl⟩
    cases hthere : (t.deleteEntries ids).hasEntry source with
    | false => rfl
    | true => exact absurd (by simpa using hin) (hasEntry_deleteEntries.mp hthere).2
  next => exact .inl rfl

theorem stays_retained (policy : StorePolicy) (protectedId : String) :
    Stays t (t.retained policy protectedId) :=
  (((stays_deleteEntries _).trans (stays_deleteEntries _) (.deleteEntries _ _)).trans
    (stays_deleteEntries _) (.deleteEntries _ _)).trans (stays_deleteEntries _) (.deleteEntries _ _)

/-- The entry `id` was placed: it holds the content and is newer than all others, which are
as they were. -/
structure Placed (mime : String) (bytes : Bytes) (id : String) (t placed : Tables) : Prop where
  content : ∀ s ∈ placed.entries, s.id = id → s.mime = mime ∧ placed.bytesOf id = bytes
  recency : ∀ s ∈ placed.entries, s.id = id → s.recency = t.storeMeta.sequence + 1
  others : ∀ s ∈ placed.entries, s.id ≠ id → s ∈ t.entries ∧ placed.bytesOf s.id = t.bytesOf s.id
  kept : ∀ e ∈ t.entries, placed.hasEntry e.id = true

theorem placed_promoted (h : WellFormed P t) {e : EntryRow} (he : e ∈ t.entries) :
    Placed e.mime (t.bytesOf e.id) e.id t (t.promoted e.id) where
  content s hs hid := by
    obtain ⟨e', he', rfl⟩ := mem_mapEntries.mp hs
    split at hid
    next hmatch =>
      obtain rfl := List.inj_on_of_nodup_map h.stamped.ids he' he hid
      rw [if_pos hmatch]
      exact ⟨rfl, rfl⟩
    next hmatch => exact absurd hid (by simpa using hmatch)
  recency s hs hid := by
    obtain ⟨e', -, rfl⟩ := mem_mapEntries.mp hs
    split at hid
    next hmatch => rw [if_pos hmatch]
    next hmatch => exact absurd hid (by simpa using hmatch)
  others s hs hid := by
    obtain ⟨e', he', rfl⟩ := mem_mapEntries.mp hs
    split at hid
    next hmatch => exact absurd (by simpa using hmatch) hid
    next hmatch =>
      rw [if_neg hmatch]
      exact ⟨he', rfl⟩
  kept e' he' := hasEntry_iff.mpr ⟨_, mem_mapEntries.mpr ⟨e', he', rfl⟩, by split <;> rfl⟩

theorem placed_created (h : WellFormed P t) (hfresh : t.hasEntry ("entry-" ++ env.uuid) = false) :
    Placed mime bytes ("entry-" ++ env.uuid) t (t.created P env mime bytes) := by
  have hrows : ∀ s ∈ (t.created P env mime bytes).entries,
      ∃ e ∈ (t.withEntry P env mime bytes).entries,
      s.SameRow e ∧ (s.id ≠ "entry-" ++ env.uuid → s = e) := by
    intro s hs
    obtain ⟨e, he, heq, hlink⟩ := mem_linked hs
    refine ⟨e, he, heq, fun hid => ?_⟩
    rcases hlink with hsame | ⟨hnew, -⟩
    · rw [hsame] at heq
      exact heq
    · exact absurd ((EntryRow.SameRow.id_eq heq).trans hnew) hid
  have hnew : ∀ e ∈ (t.withEntry P env mime bytes).entries, e.id = "entry-" ++ env.uuid →
      e.mime = mime ∧ e.recency = t.storeMeta.sequence + 1 := by
    intro e he hid
    rcases List.mem_append.mp he with he | he
    · rw [hasEntry_iff.mpr ⟨e, he, hid⟩] at hfresh
      cases hfresh
    · rw [List.mem_singleton.mp he]
      exact ⟨rfl, rfl⟩
  have hpayloads : (t.created P env mime bytes).payloads =
      t.payloads ++ [⟨"entry-" ++ env.uuid, bytes⟩] := payloads_linked _
  refine ⟨fun s hs hid => ?_, fun s hs hid => ?_, fun s hs hid => ?_, fun e he => ?_⟩
  · obtain ⟨e, he, hsame, -⟩ := hrows s hs
    refine ⟨?_, ?_⟩
    · rw [hsame.mime_eq]
      exact (hnew e he (hsame.id_eq ▸ hid)).1
    · have habsent : t.payloads.filter (fun p => p.entryId = "entry-" ++ env.uuid) = [] :=
        payloadOf_of_absent h hfresh
      simp [Tables.bytesOf, Tables.payloadOf, hpayloads, habsent]
  · obtain ⟨e, he, hsame, -⟩ := hrows s hs
    rw [hsame.recency_eq]
    exact (hnew e he (hsame.id_eq ▸ hid)).2
  · obtain ⟨e, he, -, heq⟩ := hrows s hs
    obtain rfl := heq hid
    refine ⟨?_, ?_⟩
    · rcases List.mem_append.mp he with he | he
      · exact he
      · rw [List.mem_singleton.mp he] at hid
        exact absurd rfl hid
    · simp [Tables.bytesOf, Tables.payloadOf, hpayloads, Ne.symm hid]
  · have hin : e ∈ (t.withEntry P env mime bytes).entries := List.mem_append_left _ he
    obtain ⟨s, hs, hsame⟩ := sameRow_linked (Database.linkTarget P env.world
      ("entry-" ++ env.uuid) (ResolvedContent.resolve P env.world mime bytes MAX_ENTRY_BYTES)
      (t.withEntry P env mime bytes)) ("entry-" ++ env.uuid)
      ((t.withEntry P env mime bytes).withContent P ("entry-" ++ env.uuid) mime bytes) hin
    exact hasEntry_iff.mpr ⟨s, hs, hsame.id_eq⟩

theorem EntryRow.StaysIn.sameRow {s e : EntryRow} (h : s.StaysIn t' e) : s.SameRow e := by
  rcases h with rfl | ⟨_, -, -, rfl⟩
  · exact .refl s
  · exact rfl

theorem Kept.bytesOf (h : Kept t t') {s : EntryRow} (hs : s ∈ t'.entries) :
    t'.bytesOf s.id = t.bytesOf s.id := by
  rw [Tables.bytesOf, h.payloads s hs, Tables.bytesOf]

/-- Retention leaves a placed entry the newest. -/
theorem Placed.newest (h : Placed mime bytes id t placed) (ht : Stamped t) (policy : StorePolicy)
    {s : EntryRow} (hs : s ∈ (placed.retained policy id).entries) (hid : s.id = id) :
    s.mime = mime ∧ (placed.retained policy id).bytesOf s.id = bytes ∧
      ∀ s' ∈ (placed.retained policy id).entries, s'.id ≠ s.id → s'.recency < s.recency := by
  obtain ⟨e, he, hsame⟩ := remains_retained s hs
  have heid : e.id = id := hsame.id_eq.symm.trans hid
  obtain ⟨hmime, hbytes⟩ := h.content e he heid
  refine ⟨hsame.mime_eq.trans hmime, ?_, fun s' hs' hne => ?_⟩
  · rw [(kept_retained policy id).bytesOf hs, hid, hbytes]
  · obtain ⟨e', he', hsame'⟩ := remains_retained s' hs'
    have hold := (h.others e' he' fun heq => hne ((hsame'.id_eq.trans heq).trans hid.symm)).1
    rw [hsame'.recency_eq, hsame.recency_eq, h.recency e he heid]
    exact Nat.lt_succ_of_le (ht.recency_le e' hold)

/-- And the others as they were. -/
theorem Placed.others_retained (h : Placed mime bytes id t placed) (policy : StorePolicy)
    {s : EntryRow} (hs : s ∈ (placed.retained policy id).entries) (hid : s.id ≠ id) :
    ∃ e ∈ t.entries, s.StaysIn (placed.retained policy id) e ∧
      (placed.retained policy id).bytesOf s.id = t.bytesOf e.id := by
  obtain ⟨e, he, hstays⟩ := stays_retained policy id s hs
  have hsame := hstays.sameRow.id_eq
  obtain ⟨hold, hbytes⟩ := h.others e he fun heq => hid (hsame.trans heq)
  refine ⟨e, hold, hstays, ?_⟩
  rw [(kept_retained policy id).bytesOf hs, hsame, hbytes]

/-- A promoted row is one with new stamps. -/
theorem stays_promoted (policy : StorePolicy) {s : EntryRow}
    (hs : s ∈ ((t.promoted id).retained policy id).entries) :
    ∃ e ∈ t.entries, s.id = e.id ∧ s.StaysIn ((t.promoted id).retained policy id)
      { e with revision := s.revision, recency := s.recency } := by
  obtain ⟨e', he', hstays⟩ := stays_retained policy id s hs
  obtain ⟨e, he, rfl⟩ := mem_mapEntries.mp he'
  refine ⟨e, he, ?_, ?_⟩
  · rw [hstays.sameRow.id_eq]
    split <;> rfl
  · split at hstays <;> rcases hstays with rfl | ⟨source, hlink, hgone, rfl⟩
    · exact .inl rfl
    · exact .inr ⟨source, hlink, hgone, rfl⟩
    · exact .inl rfl
    · exact .inr ⟨source, hlink, hgone, rfl⟩

/-- An insertion that succeeds leaves what it promises. -/
theorem inserted_of_insert (h : WellFormed P t) {summary : EntrySummary}
    (hinsert : (Database.insert P env mime bytes).eval t = .ok (summary, t')) :
    Inserted mime bytes t t' summary := by
  have hcurrent : t.HoldsNow mime bytes → t' = t := by
    rintro ⟨e, he, rfl, rfl, hmax⟩
    obtain ⟨_, hduplicate, hown⟩ := duplicate_of_stored h he
    exact insert_current (hown hmax ▸ hduplicate) (findEntry_of_mem h.stamped he) hmax hinsert
  obtain ⟨-, -, -, hcases⟩ := Database.insert_ok hinsert
  rcases hcases with ⟨id, e, hduplicate, hfind, hmax, hr⟩ |
    ⟨-, -, id, s, hfind, hsummary, ⟨hduplicate, hr⟩ | ⟨hnone, -, rfl, hfresh, hr⟩⟩
  · -- the content is current
    cases hr
    obtain ⟨hmem, rfl⟩ := Database.findEntry_some hfind
    obtain ⟨e₀, he₀, hid, hmime, hpayload⟩ := duplicate_some hduplicate
    obtain rfl : e₀ = e := List.inj_on_of_nodup_map h.stamped.ids he₀ hmem hid
    have hbytes := bytesOf_of_mem h hmem hpayload
    refine ⟨⟨e₀, hmem, rfl, hmime, hbytes, fun s' hs' hne => ?_⟩, fun _ => ⟨fun s hs =>
      hasEntry_iff.mpr ⟨s, hs, rfl⟩, e₀, hmem, e₀, hmem, rfl, hmime, hbytes, .inl rfl⟩, hcurrent,
      fun s hs _ => ⟨s, hs, .inl rfl, rfl⟩, .inl rfl⟩
    refine lt_of_le_of_ne (hmax ▸ recency_le_maxRecency hs') fun heq => hne ?_
    rw [List.inj_on_of_nodup_map h.stamped.recencies hs' hmem heq]
  · -- an identical entry was promoted
    have hr : t' = (t.promoted id).retained t.effectivePolicy id := hr
    have hsummary : summary = Database.decodeSummary t' s := hsummary
    obtain ⟨hs, rfl⟩ := Database.findEntry_some hfind
    obtain ⟨e, he, hid, rfl, hpayload⟩ := duplicate_some hduplicate
    obtain rfl := bytesOf_of_mem h he hpayload
    have hplaced : Placed e.mime (t.bytesOf e.id) s.id t (t.promoted s.id) := by
      have hplaced := placed_promoted h he
      generalize t.bytesOf e.id = bytes at hplaced ⊢
      rwa [hid] at hplaced
    have hnewest := hplaced.newest h.stamped t.effectivePolicy (hr ▸ hs) rfl
    rw [← hr] at hnewest
    refine ⟨⟨s, hs, hsummary, hnewest⟩, fun _ => ⟨fun s' hs' => ?_, ?_⟩, hcurrent,
      fun s' hs' hne => ?_, .inr ⟨_, hplaced.kept, hsummary ▸ hr⟩⟩
    · rw [hr] at hs'
      obtain ⟨e', he', hid', -⟩ := stays_promoted _ hs'
      exact hasEntry_iff.mpr ⟨e', he', hid'.symm⟩
    · obtain ⟨e', he', hid', hstays⟩ := stays_promoted t.effectivePolicy (hr ▸ hs)
      obtain rfl : e' = e := List.inj_on_of_nodup_map h.stamped.ids he' he
        (hid'.symm.trans hid.symm)
      exact ⟨e', he, s, hs, hsummary ▸ rfl, rfl, rfl, hr ▸ hstays⟩
    · rw [hr] at hs' ⊢
      exact hplaced.others_retained _ hs' fun heq => hne (heq.trans (hsummary ▸ rfl))
  · -- a new entry was made
    have hr : t' = (t.created P env mime bytes).retained t.effectivePolicy
        ("entry-" ++ env.uuid) := hr
    have hsummary : summary = Database.decodeSummary t' s := hsummary
    obtain ⟨hs, hid⟩ := Database.findEntry_some hfind
    have hsid : summary.id = "entry-" ++ env.uuid := hsummary ▸ hid
    have hplaced : Placed mime bytes ("entry-" ++ env.uuid) t (t.created P env mime bytes) :=
      placed_created h hfresh
    have hnewest := hplaced.newest h.stamped t.effectivePolicy (hr ▸ hs) hid
    rw [← hr] at hnewest
    have hunknown : ¬ t.Holds mime bytes := fun hholds => by
      have hsome := (duplicate_iff (P := P) h).mpr hholds
      rw [hnone] at hsome
      cases hsome
    refine ⟨⟨s, hs, hsummary, hnewest⟩, fun hholds => absurd hholds hunknown, hcurrent,
      fun s' hs' hne => ?_, .inr ⟨_, hplaced.kept, hsid.symm ▸ hr⟩⟩
    rw [hr] at hs' ⊢
    exact hplaced.others_retained _ hs' fun heq => hne (heq.trans hsid.symm)

end Left

/-! ## Deduplication -/

/-- On committed tables a request is accepted exactly when its program succeeds. -/
theorem insert_effect_iff {P : Platform} {env : Env} {t : Tables} {mime : String} {bytes : Bytes}
    {reply : Reply} {t' : Tables} :
    (Request.insert mime bytes).effect P env t = .ok (reply, t') ↔
      ∃ summary, reply = .entry summary ∧
        (Database.insert P env mime bytes).eval t = .ok (summary, t') := by
  constructor
  · exact Request.entry_ok
  · rintro ⟨summary, rfl, h⟩
    exact Prog.eval_bind_ok.mpr ⟨summary, t', h, rfl⟩

/-- In every committed state, an insertion succeeds exactly when the store accepts it.  It
then leaves the content in the most recent entry, makes no entry for a stored content, and
changes no other entry but by retention. -/
theorem Store.insert_exact (P : Platform) (hP : P.Named) (ops : List DatabaseOp) (env : Env)
    (mime : String) (bytes : Bytes) (hvalid : (Request.insert mime bytes).validate = .ok ()) :
    let t := (Store.fresh.after P ops).committed
    ((∃ r, (Request.insert mime bytes).effect P env t = .ok r) ↔ Accepts env mime bytes t) ∧
    ∀ reply t', (Request.insert mime bytes).effect P env t = .ok (reply, t') →
      ∃ summary, reply = .entry summary ∧ Inserted mime bytes t t' summary := by
  intro t
  have hreached : Reached P t := Store.after_reached P ops
  refine ⟨?_, fun reply t' h => ?_⟩
  · rw [← insert_succeeds_iff hP hreached hvalid]
    constructor
    · rintro ⟨⟨reply, t'⟩, h⟩
      obtain ⟨summary, -, h⟩ := insert_effect_iff.mp h
      exact ⟨_, h⟩
    · rintro ⟨⟨summary, t'⟩, h⟩
      exact ⟨_, insert_effect_iff.mpr ⟨summary, rfl, h⟩⟩
  · obtain ⟨summary, hreply, h⟩ := insert_effect_iff.mp h
    exact ⟨summary, hreply, inserted_of_insert hreached.toWellFormed h⟩

/-- A text is copied, twice, after an image and its file. -/
def capturesAgain : List DatabaseOp :=
  imageAsFile ++ [captureFile, .request (.insert "text/plain" (asBytes "hi")) ⟨.empty, "t"⟩ .none]

theorem Platform.png_named : Platform.png.Named where
  sha256 bytes := by
    change ((List.replicate 32 (0 : UInt8) ++ bytes).drop bytes.length).length = 32
    rw [List.length_drop, List.length_append, List.length_replicate]
    omega
  guessFormat bytes mime h := by
    rw [Png.format_some h]
    decide
  readerFormat bytes mime h := by
    rw [Png.format_some h]
    decide

/-- The first content is inserted again and is promoted. -/
theorem Store.insert_exact_again :
    let t := (Store.fresh.after .png capturesAgain).committed
    ∃ summary t', (Request.insert "image/png" picture).effect .png ⟨.empty, "n"⟩ t =
        .ok (.entry summary, t') ∧
      Inserted "image/png" picture t t' summary ∧ t'.entries.length = 3 := by
  intro t
  obtain ⟨hsucceeds, hleft⟩ := Store.insert_exact .png Platform.png_named capturesAgain
    ⟨.empty, "n"⟩ "image/png" picture (by decide)
  have haccepts : t.effectivePolicy = { StorePolicy.default with admission := true } ∧
      t.storeMeta.revision = 4 ∧ t.hasEntry "entry-n" = false := by decide +kernel
  obtain ⟨hpolicy, hrevision, hfresh⟩ := haccepts
  have hlengths : picture.length ≤ StorePolicy.default.maxEntryBytes ∧
      picture.length ≤ StorePolicy.default.maxTotalBytes := by decide +kernel
  have haccepted : Accepts ⟨.empty, "n"⟩ "image/png" picture t := by
    refine ⟨?_, ?_, ?_, .inl ?_, .inl ?_, .inl hfresh⟩
    · rw [hpolicy]
    · rw [hpolicy]
      exact hlengths.1
    · rw [hpolicy]
      exact hlengths.2
    · rw [hpolicy]
      decide
    · rw [hrevision]
      decide
  obtain ⟨⟨reply, t'⟩, h⟩ := hsucceeds.mpr haccepted
  obtain ⟨summary, rfl, hinserted⟩ := hleft reply t' h
  refine ⟨summary, t', h, hinserted, ?_⟩
  have hlength : ((Request.insert "image/png" picture).effect .png ⟨.empty, "n"⟩ t).toOption.map
      (fun r => r.2.entries.length) = some 3 := by decide +kernel
  rw [h] at hlength
  exact Option.some.inj hlength

/-! ## The bounds of the schema -/

/-- Wiping an empty history again and again only counts. -/
theorem Store.after_wipes (P : Platform) (n : Nat) {t : Tables}
    (hn : t.storeMeta.revision + n < MAX_REVISION) (hentries : t.entries = [])
    (hechoes : t.inlineEchoes = []) :
    Store.after P (List.replicate n (.request .wipe ⟨.empty, "0"⟩ .none))
        ⟨Database.recovered t, true⟩ =
      ⟨Database.recovered { t with storeMeta.revision := t.storeMeta.revision + n }, true⟩ := by
  induction n generalizing t with
  | zero => rfl
  | succ n ih =>
      have hwipe : Request.wipe.effect P ⟨.empty, "0"⟩ t = .ok (.unit, t.bumped) := by
        have hids : t.entryIds (fun _ => true) = [] := by
          rw [Tables.entryIds, hentries]
          rfl
        have hempty : t.deleteInlineEchoes = t := by
          rw [Tables.deleteInlineEchoes, ← hechoes]
        refine Prog.eval_bind_ok.mpr ⟨(), t.bumped, ?_, rfl⟩
        refine Prog.eval_bind_ok.mpr ⟨(), t, ?_, ?_⟩
        · rw [Database.eval_deleteWhere, hids, Tables.deleteEntries_nil]
        · refine Prog.eval_bind_ok.mpr ⟨(), t, by rw [eval_exec, hempty]; rfl, ?_⟩
          exact Prog.eval_bind_ok.mpr ⟨_, _, Database.bump_ok.mpr ⟨by omega, rfl⟩, rfl⟩
      rw [List.replicate_succ, Store.after, List.foldl_cons, Store.step_calm hwipe]
      have hrest := ih (t := t.bumped) (by
        change t.storeMeta.revision + 1 + n < MAX_REVISION
        omega) hentries hechoes
      rw [Store.after] at hrest
      rw [hrest]
      simp [Tables.bumped, Nat.add_comm, Nat.add_left_comm]

/-- Admission is opened, and the empty history wiped until the counter is at its bound. -/
def countedOut : List DatabaseOp :=
  .request (.applyPolicy { StorePolicy.default with admission := true }) ⟨.empty, "0"⟩ .none ::
    List.replicate (MAX_REVISION - 2) (.request .wipe ⟨.empty, "0"⟩ .none)

/-- An image, the entry of its file, and room for two entries. -/
def capturedTwo : List DatabaseOp :=
  imageAsFile ++ [captureFile, .request (.applyPolicy
    { StorePolicy.default with admission := true, maxEntries := 2 }) ⟨.empty, "0"⟩ .none]

/-- An open store with room refuses a text at the bound of the counter, and a text that evicts
an image clears the link of the entry of its file. -/
theorem Store.insert_bounded_unlinks :
    (let t := (Store.fresh.after .plain countedOut).committed
     t.effectivePolicy = { StorePolicy.default with admission := true } ∧ t.entries = [] ∧
       ∀ r, (Request.insert "text/plain" (asBytes "hi")).effect .plain ⟨.empty, "n"⟩ t ≠ .ok r) ∧
    (let s := Store.fresh.after .png capturedTwo
     let s' := s.step .png (.request (.insert "text/plain" (asBytes "hi")) ⟨.empty, "n"⟩ .none)
     ∃ e ∈ s.committed.entries, e.echoSourceId = some "entry-s" ∧
       { e with echoSourceId := none } ∈ s'.committed.entries) := by
  refine ⟨?_, by decide +kernel⟩
  have hpolicy : (Request.applyPolicy { StorePolicy.default with admission := true }).effect .plain
      ⟨.empty, "0"⟩ Tables.fresh = .ok (.unit, { Tables.fresh with
        effectivePolicy.admission := true, storeMeta.revision := 1 }) := by rfl
  let t : Tables := { Tables.fresh with
    effectivePolicy.admission := true, storeMeta.revision := MAX_REVISION - 1 }
  have ht : (Store.fresh.after .plain countedOut).committed = t := by
    rw [countedOut, Store.after, List.foldl_cons, Store.fresh, Store.step_calm hpolicy]
    exact congrArg Store.committed (Store.after_wipes .plain (MAX_REVISION - 2) (by decide) rfl rfl)
  rw [ht]
  refine ⟨rfl, rfl, fun r h => ?_⟩
  obtain ⟨summary, -, hinsert⟩ := insert_effect_iff.mp h
  obtain ⟨-, -, -, ⟨id, e, -, hfind, -⟩ | ⟨hroom, -⟩⟩ := Database.insert_ok hinsert
  · exact nomatch (Database.findEntry_some hfind).1
  · exact absurd hroom (by decide)

end ClipDaemon
