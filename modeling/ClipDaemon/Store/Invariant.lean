import ClipDaemon.Store.Effects
import ClipDaemon.Lib.SideTable
import ClipDaemon.Lib.Versions
import ClipDaemon.Lib.Transition
import Mathlib.Algebra.Order.BigOperators.Group.List
import Mathlib.Algebra.Order.Group.Nat

/-!
# The invariant of the committed tables

`WellFormed` collects what holds of every committed state: the keys and stamps of the
entries are distinct, the side tables hold exactly the rows of the entries, echo links
name other entries, and the limits of the effective policy hold.

The limits are broken in the middle of an operation and restored by retention, so they
are kept apart: `Sound` is everything else, which every change of the tables preserves,
and `Within` is what `retained` establishes.
-/

namespace ClipDaemon

open Eviction SideTable Versions

/-! ## Statement -/

/-- Ids, revisions and recencies are distinct, and the latter two are behind their
counters. -/
structure Stamped (t : Tables) : Prop where
  named : ∀ e ∈ t.entries, e.id ≠ ""
  ids : (t.entries.map (·.id)).Nodup
  revisions : (t.entries.map (·.revision)).Nodup
  revision_le : ∀ e ∈ t.entries, e.revision ≤ t.storeMeta.revision
  recencies : (t.entries.map (·.recency)).Nodup
  recency_le : ∀ e ∈ t.entries, e.recency ≤ t.storeMeta.sequence

/-- The side rows of an entry whose payload is `bytes`. -/
def payloadRows (content : String → Bytes) (e : EntryRow) : List PayloadRow :=
  [⟨e.id, content e.id⟩]

/-- The rows of `search_content` of an entry. -/
def searchRows (P : Platform) (content : String → Bytes) (e : EntryRow) : List SearchRow :=
  [Database.searchRow P e.id e.mime (content e.id)]

/-- The rows of `entry_artifacts` of an entry. -/
def artifactRows (P : Platform) (content : String → Bytes) (e : EntryRow) : List EntryArtifactRow :=
  (artifactPaths P (content e.id)).map fun path => ⟨e.id, path⟩

/-- The side tables hold the rows of the entries, whose payloads are `content`. -/
structure Contents (P : Platform) (content : String → Bytes) (t : Tables) : Prop where
  payloads : Derived (payloadRows content) t.entries t.payloads
  search : Derived (searchRows P content) t.entries t.searchContent
  artifacts : Derived (artifactRows P content) t.entries t.entryArtifacts
  size : ∀ e ∈ t.entries, (content e.id).length = e.byteSize
  digest : ∀ e ∈ t.entries, P.sha256 (content e.id) = e.digest

/-- Every echo link names another entry. -/
def Linked (t : Tables) : Prop :=
  ∀ e ∈ t.entries, ∀ source, e.echoSourceId = some source →
    source ≠ e.id ∧ ∃ e' ∈ t.entries, e'.id = source

/-- The counters and the policy are in their ranges. -/
structure InRange (t : Tables) : Prop where
  revision : t.storeMeta.revision < MAX_REVISION
  sequence : t.storeMeta.sequence ≤ I64_MAX
  maxEntries : t.effectivePolicy.maxEntries ≤ 100000
  maxFavorites : t.effectivePolicy.maxFavorites ≤ 10000
  maxEntryBytes : t.effectivePolicy.maxEntryBytes ≤ MAX_ENTRY_BYTES

/-- Everything but the limits. -/
structure Sound (P : Platform) (t : Tables) : Prop where
  stamped : Stamped t
  contents : ∃ content, Contents P content t
  linked : Linked t
  inRange : InRange t

/-- The entries of a category. -/
def category (favorite : Bool) (entries : List EntryRow) : List EntryRow :=
  entries.filter fun e => e.favorite = favorite

/-- The entries are within the limits of a policy. -/
structure Within (policy : StorePolicy) (entries : List EntryRow) : Prop where
  regular : (category false entries).length ≤ policy.maxEntries
  favorites : (category true entries).length ≤ policy.maxFavorites
  entryBytes : ∀ e ∈ entries, e.byteSize ≤ policy.maxEntryBytes
  totalBytes : (entries.map (·.byteSize)).sum ≤ policy.maxTotalBytes

/-- The invariant of the committed tables. -/
structure WellFormed (P : Platform) (t : Tables) : Prop extends Sound P t where
  within : Within t.effectivePolicy t.entries

theorem Tables.fresh_wellFormed (P : Platform) : WellFormed P Tables.fresh where
  stamped := ⟨by simp [fresh], List.nodup_nil, List.nodup_nil,
    by simp [fresh], List.nodup_nil, by simp [fresh]⟩
  contents := ⟨fun _ => [], .nil, .nil, .nil, by simp [fresh], by simp [fresh]⟩
  linked := by simp [Linked, fresh]
  inRange := ⟨by decide, by decide, by decide, by decide, by decide⟩
  within := ⟨by decide, by decide, by simp [fresh], by decide⟩

/-- Stamps are about the entries and the counters only. -/
theorem Stamped.congr {t t' : Tables} (h : Stamped t) (hentries : t'.entries = t.entries)
    (hmeta : t'.storeMeta = t.storeMeta) : Stamped t' := by
  cases t
  cases t'
  cases hentries
  cases hmeta
  exact ⟨h.named, h.ids, h.revisions, h.revision_le, h.recencies, h.recency_le⟩

/-- The tables that hold the history are the same. -/
structure SameHistory (t t' : Tables) : Prop where
  storeMeta : t'.storeMeta = t.storeMeta
  entries : t'.entries = t.entries
  payloads : t'.payloads = t.payloads
  searchContent : t'.searchContent = t.searchContent
  entryArtifacts : t'.entryArtifacts = t.entryArtifacts

/-- Soundness is about the history and the ranges of the policy. -/
theorem Sound.congr {P : Platform} {t t' : Tables} (h : Sound P t) (hsame : SameHistory t t')
    (hr : InRange t') : Sound P t' where
  stamped := h.stamped.congr hsame.entries hsame.storeMeta
  contents := h.contents.imp fun _ hc => by
    constructor
    case payloads => rw [hsame.entries, hsame.payloads]; exact hc.payloads
    case search => rw [hsame.entries, hsame.searchContent]; exact hc.search
    case artifacts => rw [hsame.entries, hsame.entryArtifacts]; exact hc.artifacts
    case size => rw [hsame.entries]; exact hc.size
    case digest => rw [hsame.entries]; exact hc.digest
  linked := by
    unfold Linked
    rw [hsame.entries]
    exact h.linked
  inRange := hr

/-! ## What unlinking leaves alone -/

namespace EntryRow

variable (ids : List String) (e : EntryRow)

@[simp] theorem unlink_id : (e.unlink ids).id = e.id := by unfold unlink; split <;> rfl
@[simp] theorem unlink_revision : (e.unlink ids).revision = e.revision := by
  unfold unlink; split <;> rfl
@[simp] theorem unlink_favorite : (e.unlink ids).favorite = e.favorite := by
  unfold unlink; split <;> rfl
@[simp] theorem unlink_recency : (e.unlink ids).recency = e.recency := by
  unfold unlink; split <;> rfl
@[simp] theorem unlink_mime : (e.unlink ids).mime = e.mime := by unfold unlink; split <;> rfl
@[simp] theorem unlink_byteSize : (e.unlink ids).byteSize = e.byteSize := by
  unfold unlink; split <;> rfl
@[simp] theorem unlink_digest : (e.unlink ids).digest = e.digest := by unfold unlink; split <;> rfl

theorem unlink_echoSourceId {source : String} (h : (e.unlink ids).echoSourceId = some source) :
    e.echoSourceId = some source ∧ source ∉ ids := by
  unfold unlink at h
  split at h
  · cases h
  next hno => exact ⟨h, fun hmem => hno (by simp [h, hmem])⟩

end EntryRow

/-! ## The side rows carry the key of their entry -/

theorem payloadRows_key (content : String → Bytes) (e : EntryRow) :
    ∀ r ∈ payloadRows content e, r.entryId = e.id := by simp [payloadRows]

theorem searchRows_key (P : Platform) (content : String → Bytes) (e : EntryRow) :
    ∀ r ∈ searchRows P content e, r.entryId = e.id := by simp [searchRows, Database.searchRow]

theorem artifactRows_key (P : Platform) (content : String → Bytes) (e : EntryRow) :
    ∀ r ∈ artifactRows P content e, r.entryId = e.id := by simp [artifactRows]

/-! ## Deleting entries -/

section DeleteEntries

variable {P : Platform} {t : Tables} (ids : List String)

theorem mem_deleteEntries {e : EntryRow} :
    e ∈ (t.deleteEntries ids).entries ↔ ∃ e₀ ∈ t.entries, e₀.id ∉ ids ∧ e = e₀.unlink ids := by
  simp only [Tables.deleteEntries, List.mem_map, mem_deleteKeys, and_assoc, eq_comm]

/-- A column that unlinking leaves alone keeps the values of the rows kept. -/
theorem map_deleteEntries {α : Type} {f : EntryRow → α} (hf : ∀ e, f (e.unlink ids) = f e) :
    (t.deleteEntries ids).entries.map f = (deleteKeys (·.id) ids t.entries).map f := by
  rw [Tables.deleteEntries, List.map_map]
  exact List.map_congr_left fun e _ => hf e

theorem map_deleteEntries_sublist {α : Type} {f : EntryRow → α} (hf : ∀ e, f (e.unlink ids) = f e) :
    ((t.deleteEntries ids).entries.map f).Sublist (t.entries.map f) := by
  rw [map_deleteEntries ids hf]
  exact List.filter_sublist.map f

theorem Stamped.deleteEntries (h : Stamped t) : Stamped (t.deleteEntries ids) where
  named e he := by
    obtain ⟨e₀, he₀, -, rfl⟩ := (mem_deleteEntries ids).mp he
    simpa using h.named e₀ he₀
  ids := h.ids.sublist (map_deleteEntries_sublist ids (by simp))
  revisions := h.revisions.sublist (map_deleteEntries_sublist ids (by simp))
  revision_le e he := by
    obtain ⟨e₀, he₀, -, rfl⟩ := (mem_deleteEntries ids).mp he
    simpa [Tables.deleteEntries] using h.revision_le e₀ he₀
  recencies := h.recencies.sublist (map_deleteEntries_sublist ids (by simp))
  recency_le e he := by
    obtain ⟨e₀, he₀, -, rfl⟩ := (mem_deleteEntries ids).mp he
    simpa [Tables.deleteEntries] using h.recency_le e₀ he₀

theorem Contents.deleteEntries {content : String → Bytes} (h : Contents P content t) :
    Contents P content (t.deleteEntries ids) where
  payloads := (h.payloads.deleteKeys (payloadRows_key content) ids).map_parents _
    fun e _ => by simp [payloadRows]
  search := (h.search.deleteKeys (searchRows_key P content) ids).map_parents _
    fun e _ => by simp [searchRows]
  artifacts := (h.artifacts.deleteKeys (artifactRows_key P content) ids).map_parents _
    fun e _ => by simp [artifactRows]
  size e he := by
    obtain ⟨e₀, he₀, -, rfl⟩ := (mem_deleteEntries ids).mp he
    simpa using h.size e₀ he₀
  digest e he := by
    obtain ⟨e₀, he₀, -, rfl⟩ := (mem_deleteEntries ids).mp he
    simpa using h.digest e₀ he₀

theorem Linked.deleteEntries (h : Linked t) : Linked (t.deleteEntries ids) := by
  intro e he source hsource
  obtain ⟨e₀, he₀, -, rfl⟩ := (mem_deleteEntries ids).mp he
  obtain ⟨hecho, hkept⟩ := EntryRow.unlink_echoSourceId ids e₀ hsource
  obtain ⟨hne, e₁, he₁, rfl⟩ := h e₀ he₀ source hecho
  exact ⟨by simpa using hne, _, (mem_deleteEntries ids).mpr ⟨e₁, he₁, hkept, rfl⟩, by simp⟩

theorem Sound.deleteEntries (h : Sound P t) : Sound P (t.deleteEntries ids) where
  stamped := h.stamped.deleteEntries ids
  contents := h.contents.imp fun _ hc => hc.deleteEntries ids
  linked := h.linked.deleteEntries ids
  inRange := ⟨h.inRange.revision, h.inRange.sequence, h.inRange.maxEntries, h.inRange.maxFavorites,
    h.inRange.maxEntryBytes⟩

/-- Deletion leaves no more entries of a category. -/
theorem length_category_deleteEntries (favorite : Bool) :
    (category favorite (t.deleteEntries ids).entries).length =
      (category favorite (deleteKeys (·.id) ids t.entries)).length := by
  rw [Tables.deleteEntries, category, List.filter_map, List.length_map]
  simp only [Function.comp_def, EntryRow.unlink_favorite, category]

theorem length_category_deleteEntries_le (favorite : Bool) :
    (category favorite (t.deleteEntries ids).entries).length ≤
      (category favorite t.entries).length := by
  rw [length_category_deleteEntries]
  exact (List.filter_sublist.filter _).length_le

theorem Within.deleteEntries {policy : StorePolicy} (h : Within policy t.entries) :
    Within policy (t.deleteEntries ids).entries where
  regular := (length_category_deleteEntries_le ids false).trans h.regular
  favorites := (length_category_deleteEntries_le ids true).trans h.favorites
  entryBytes e he := by
    obtain ⟨e₀, he₀, -, rfl⟩ := (mem_deleteEntries ids).mp he
    simpa using h.entryBytes e₀ he₀
  totalBytes :=
    ((map_deleteEntries_sublist ids (f := (·.byteSize)) (by simp)).sum_le_sum (by simp)).trans
      h.totalBytes

end DeleteEntries

/-! ## Retention -/

section Retained

variable {P : Platform} {t : Tables} (policy : StorePolicy) (protectedId : String)

theorem Sound.retained (h : Sound P t) : Sound P (t.retained policy protectedId) :=
  (((h.deleteEntries _).deleteEntries _).deleteEntries _).deleteEntries _

/-- What is left after deleting the oversized entries is within the size limit, if the
protected entry was. -/
theorem byteSize_deleteEntries_oversized
    (hp : ∀ e ∈ t.entries, e.id = protectedId → e.byteSize ≤ policy.maxEntryBytes) :
    ∀ e ∈ (t.deleteEntries (Database.oversized policy.maxEntryBytes protectedId t)).entries,
      e.byteSize ≤ policy.maxEntryBytes := by
  intro e he
  obtain ⟨e₀, he₀, hkept, rfl⟩ := (mem_deleteEntries _).mp he
  rw [EntryRow.unlink_byteSize]
  by_cases hid : e₀.id = protectedId
  · exact hp e₀ he₀ hid
  · by_contra hsize
    refine hkept (List.mem_map_of_mem (List.mem_filter.mpr ⟨he₀, ?_⟩))
    simp only [Bool.and_eq_true, decide_eq_true_eq, ne_eq]
    exact ⟨by omega, hid⟩

theorem byteSize_deleteEntries {ids : List String} {limit : Nat}
    (h : ∀ e ∈ t.entries, e.byteSize ≤ limit) :
    ∀ e ∈ (t.deleteEntries ids).entries, e.byteSize ≤ limit := by
  intro e he
  obtain ⟨e₀, he₀, -, rfl⟩ := (mem_deleteEntries _).mp he
  simpa using h e₀ he₀

/-- Deleting what is past a category limit enforces it. -/
theorem length_category_pastCategory (favorite : Bool) (limit : Nat) :
    (category favorite
      (t.deleteEntries (Database.pastCategory favorite limit protectedId t)).entries).length ≤
      limit := by
  rw [length_category_deleteEntries]
  exact length_filter_deleteKeys_pastLimit _ _ _ _ _

/-- Deleting what is past the byte budget enforces it. -/
theorem sum_pastBudget (h : Stamped t) (limit : Nat) :
    ((t.deleteEntries (Database.pastBudget limit protectedId t)).entries.map (·.byteSize)).sum ≤
      limit := by
  rw [map_deleteEntries _ (by simp)]
  exact sum_deleteKeys_overBudget _ _ _ h.ids

/-- Retention enforces the policy, if the protected entry alone is within it. -/
theorem Within.retained (h : Stamped t)
    (hp : ∀ e ∈ t.entries, e.id = protectedId → e.byteSize ≤ policy.maxEntryBytes) :
    Within policy (t.retained policy protectedId).entries where
  regular :=
    ((length_category_deleteEntries_le _ false).trans
      (length_category_deleteEntries_le _ false)).trans
      (length_category_pastCategory protectedId false policy.maxEntries)
  favorites :=
    (length_category_deleteEntries_le _ true).trans
      (length_category_pastCategory protectedId true policy.maxFavorites)
  entryBytes :=
    byteSize_deleteEntries (byteSize_deleteEntries (byteSize_deleteEntries
      (byteSize_deleteEntries_oversized policy protectedId hp)))
  totalBytes :=
    sum_pastBudget protectedId (((h.deleteEntries _).deleteEntries _).deleteEntries _)
      policy.maxTotalBytes

@[simp] theorem effectivePolicy_retained :
    (t.retained policy protectedId).effectivePolicy = t.effectivePolicy := rfl

@[simp] theorem storeMeta_retained : (t.retained policy protectedId).storeMeta = t.storeMeta := rfl

end Retained

/-! ## Changing entries in place -/

section MapEntries

variable {P : Platform} {t : Tables} {p : EntryRow → Bool} {set : EntryRow → EntryRow}

theorem mem_mapEntries {e : EntryRow} :
    e ∈ (t.mapEntries p set).entries ↔ ∃ e₀ ∈ t.entries, e = if p e₀ then set e₀ else e₀ := by
  simp only [Tables.mapEntries, List.mem_map, eq_comm]

/-- A column that the change leaves alone. -/
theorem map_mapEntries {α : Type} {f : EntryRow → α}
    (hf : ∀ e ∈ t.entries, p e = true → f (set e) = f e) :
    (t.mapEntries p set).entries.map f = t.entries.map f := by
  rw [Tables.mapEntries, List.map_map]
  refine List.map_congr_left fun e he => ?_
  simp only [Function.comp_apply]
  split
  next hp => exact hf e he hp
  next => rfl

/-- A change that leaves ids, types and payload columns alone keeps the side tables. -/
theorem Contents.mapEntries {content : String → Bytes} (h : Contents P content t)
    (hset : ∀ e ∈ t.entries, p e = true → (set e).id = e.id ∧ (set e).mime = e.mime ∧
      (set e).byteSize = e.byteSize ∧ (set e).digest = e.digest) :
    Contents P content (t.mapEntries p set) := by
  have hcolumns : ∀ e ∈ t.entries, (if p e then set e else e).id = e.id ∧
      (if p e then set e else e).mime = e.mime ∧ (if p e then set e else e).byteSize = e.byteSize ∧
      (if p e then set e else e).digest = e.digest := by
    intro e he
    split
    next hp => exact hset e he hp
    next => exact ⟨rfl, rfl, rfl, rfl⟩
  constructor
  case payloads =>
    refine h.payloads.map_parents _ fun e he => ?_
    simp only [payloadRows, (hcolumns e he).1]
  case search =>
    refine h.search.map_parents _ fun e he => ?_
    simp only [searchRows, (hcolumns e he).1, (hcolumns e he).2.1]
  case artifacts =>
    refine h.artifacts.map_parents _ fun e he => ?_
    simp only [artifactRows, (hcolumns e he).1]
  case size =>
    intro e he
    obtain ⟨e₀, he₀, rfl⟩ := mem_mapEntries.mp he
    rw [(hcolumns e₀ he₀).1, (hcolumns e₀ he₀).2.2.1]
    exact h.size e₀ he₀
  case digest =>
    intro e he
    obtain ⟨e₀, he₀, rfl⟩ := mem_mapEntries.mp he
    rw [(hcolumns e₀ he₀).1, (hcolumns e₀ he₀).2.2.2]
    exact h.digest e₀ he₀

/-- A change that leaves ids and stamps alone. -/
theorem Stamped.mapEntries (h : Stamped t)
    (hset : ∀ e ∈ t.entries, p e = true → (set e).id = e.id ∧ (set e).revision = e.revision ∧
      (set e).recency = e.recency) : Stamped (t.mapEntries p set) := by
  constructor
  case named =>
    intro e he
    obtain ⟨e₀, he₀, rfl⟩ := mem_mapEntries.mp he
    split
    next hp => rw [(hset e₀ he₀ hp).1]; exact h.named e₀ he₀
    next => exact h.named e₀ he₀
  case ids => rw [map_mapEntries fun e he hp => (hset e he hp).1]; exact h.ids
  case revisions => rw [map_mapEntries fun e he hp => (hset e he hp).2.1]; exact h.revisions
  case recencies => rw [map_mapEntries fun e he hp => (hset e he hp).2.2]; exact h.recencies
  case revision_le =>
    intro e he
    obtain ⟨e₀, he₀, rfl⟩ := mem_mapEntries.mp he
    split
    next hp => rw [(hset e₀ he₀ hp).2.1]; exact h.revision_le e₀ he₀
    next => exact h.revision_le e₀ he₀
  case recency_le =>
    intro e he
    obtain ⟨e₀, he₀, rfl⟩ := mem_mapEntries.mp he
    split
    next hp => rw [(hset e₀ he₀ hp).2.2]; exact h.recency_le e₀ he₀
    next => exact h.recency_le e₀ he₀

/-- A change that keeps ids and sets no link but to nothing. -/
theorem Linked.mapEntries (h : Linked t)
    (hset : ∀ e ∈ t.entries, p e = true → (set e).id = e.id ∧
      ((set e).echoSourceId = e.echoSourceId ∨ (set e).echoSourceId = none)) :
    Linked (t.mapEntries p set) := by
  have hid : ∀ e ∈ t.entries, (if p e then set e else e).id = e.id := by
    intro e he
    split
    next hp => exact (hset e he hp).1
    next => rfl
  have hecho : ∀ e ∈ t.entries, ∀ source,
      (if p e then set e else e).echoSourceId = some source → e.echoSourceId = some source := by
    intro e he source hsource
    split at hsource
    next hp =>
      rcases (hset e he hp).2 with hsame | hnone
      · exact hsame ▸ hsource
      · rw [hnone] at hsource
        cases hsource
    next => exact hsource
  intro e he source hsource
  obtain ⟨e₀, he₀, rfl⟩ := mem_mapEntries.mp he
  obtain ⟨hne, e₁, he₁, rfl⟩ := h e₀ he₀ source (hecho e₀ he₀ source hsource)
  rw [hid e₀ he₀]
  exact ⟨hne, _, mem_mapEntries.mpr ⟨e₁, he₁, rfl⟩, hid e₁ he₁⟩

end MapEntries

/-! ## Counters -/

section Counters

variable {P : Platform} {t t' : Tables}

theorem InRange.bumped (h : InRange t) (hr : t.storeMeta.revision + 1 < MAX_REVISION) :
    InRange t.bumped :=
  ⟨hr, h.sequence, h.maxEntries, h.maxFavorites, h.maxEntryBytes⟩

theorem Sound.bumped (h : Sound P t) (hr : t.storeMeta.revision + 1 < MAX_REVISION) :
    Sound P t.bumped where
  stamped :=
    { h.stamped with
      revision_le := fun e he => Nat.le_succ_of_le (h.stamped.revision_le e he) }
  contents := h.contents.imp fun _ hc => ⟨hc.payloads, hc.search, hc.artifacts, hc.size, hc.digest⟩
  linked := h.linked
  inRange := h.inRange.bumped hr

/-- The rows of one id take the next revision, and keep their recency or take the next one. -/
theorem Stamped.restamp (h : Stamped t) {p : EntryRow → Bool} {set : EntryRow → EntryRow}
    (id : String) (hentries : t'.entries = t.entries.map fun e => if p e then set e else e)
    (hp : ∀ e ∈ t.entries, p e = true → e.id = id) (hid : ∀ e, (set e).id = e.id)
    (hrevision : ∀ e, (set e).revision = t.storeMeta.revision + 1)
    (hclock : t'.storeMeta.revision = t.storeMeta.revision + 1)
    (hrecency : (∀ e, (set e).recency = e.recency) ∧
        t'.storeMeta.sequence = t.storeMeta.sequence ∨
      (∀ e, (set e).recency = t.storeMeta.sequence + 1) ∧
        t'.storeMeta.sequence = t.storeMeta.sequence + 1) : Stamped t' := by
  have hcolumn : ∀ {α : Type} (f : EntryRow → α), t'.entries.map f =
      t.entries.map fun e => if p e then f (set e) else f e := by
    intro α f
    rw [hentries, List.map_map]
    refine List.map_congr_left fun e _ => ?_
    simp only [Function.comp_apply]
    split <;> rfl
  have hmem : ∀ e ∈ t'.entries, ∃ e₀ ∈ t.entries, e = if p e₀ then set e₀ else e₀ := by
    intro e he
    obtain ⟨e₀, he₀, rfl⟩ := List.mem_map.mp (hentries ▸ he)
    exact ⟨e₀, he₀, rfl⟩
  constructor
  case named =>
    intro e he
    obtain ⟨e₀, he₀, rfl⟩ := hmem e he
    split
    next => rw [hid]; exact h.named e₀ he₀
    next => exact h.named e₀ he₀
  case ids =>
    rw [hcolumn]
    simpa only [hid, ite_self] using h.ids
  case revisions =>
    rw [hcolumn]
    simp only [hrevision]
    exact nodup_map_stamp h.ids h.revisions h.revision_le hp
  case revision_le =>
    intro e he
    obtain ⟨e₀, he₀, rfl⟩ := hmem e he
    rw [hclock]
    split
    next => rw [hrevision]
    next => exact Nat.le_succ_of_le (h.revision_le e₀ he₀)
  case recencies =>
    rw [hcolumn]
    rcases hrecency with ⟨hsame, -⟩ | ⟨hnext, -⟩
    · simpa only [hsame, ite_self] using h.recencies
    · simp only [hnext]
      exact nodup_map_stamp h.ids h.recencies h.recency_le hp
  case recency_le =>
    intro e he
    obtain ⟨e₀, he₀, rfl⟩ := hmem e he
    have hle := h.recency_le e₀ he₀
    rcases hrecency with ⟨hsame, hseq⟩ | ⟨hnext, hseq⟩
    · rw [hseq]
      split
      next => rw [hsame]; exact hle
      next => exact hle
    · rw [hseq]
      split
      next => rw [hnext]
      next => exact Nat.le_succ_of_le hle

theorem asI64_of_le {n : Nat} (h : n ≤ I64_MAX) : asI64 n = n := if_pos h

theorem MAX_REVISION_le : MAX_REVISION ≤ I64_MAX := by decide

/-- The row an expected revision selects is the one with that revision. -/
theorem revision_eq_asI64 (h : Stamped t) (hr : InRange t) {e : EntryRow} (he : e ∈ t.entries) :
    (e.revision : Int) = asI64 e.revision := by
  have hle := h.revision_le e he
  have hlt := hr.revision
  have hmax := MAX_REVISION_le
  rw [asI64_of_le (by omega)]

end Counters

/-! ## The changes of the operations -/

section Changes

variable {P : Platform} {env : Env} {t : Tables} {id mime : String} {bytes : Bytes}

theorem hasEntry_iff {id : String} : t.hasEntry id = true ↔ ∃ e ∈ t.entries, e.id = id := by
  simp [Tables.hasEntry]

/-- The source of a new link is another entry. -/
theorem linkTarget_some {W : World} {resolved : ResolvedContent} {source : String}
    (h : Database.linkTarget P W id resolved t = some source) :
    source ≠ id ∧ (∃ e ∈ t.entries, e.id = source) ∧
      ∃ file, resolved.localImage = some file ∧ ∃ record ∈ t.artifacts,
        record.path = file.path ∧ record.sourceEntryId = source ∧
          Database.matchesRecord P W file record = true := by
  unfold Database.linkTarget at h
  simp only [Option.bind_eq_bind, Option.bind_eq_some_iff] at h
  obtain ⟨file, hfile, path, hpath, record, hrecord, h⟩ := h
  split at h
  next hc =>
    obtain ⟨hne, hcount, hmatch⟩ := hc
    cases h
    refine ⟨hne, ?_, file, hfile, record, List.mem_of_find?_eq_some hrecord, ?_, rfl, hmatch⟩
    · have hpos : 0 < (t.entryIds fun e => e.id = record.sourceEntryId).length := by omega
      obtain ⟨i, hi⟩ := List.exists_mem_of_length_pos hpos
      obtain ⟨e, he, -⟩ := List.mem_map.mp hi
      obtain ⟨he, hid⟩ := List.mem_filter.mp he
      exact ⟨e, he, by simpa using hid⟩
    · have hfound := List.find?_some hrecord
      unfold toStr at hpath
      simp only [Option.map_eq_some_iff] at hpath
      obtain ⟨_, -, rfl⟩ := hpath
      simpa using hfound
  next => cases h

@[simp] theorem effectivePolicy_linked (link : Option String) :
    (t.linked link id).effectivePolicy = t.effectivePolicy := by cases link <;> rfl

@[simp] theorem storeMeta_linked (link : Option String) :
    (t.linked link id).storeMeta = t.storeMeta := by cases link <;> rfl

@[simp] theorem payloads_linked (link : Option String) :
    (t.linked link id).payloads = t.payloads := by cases link <;> rfl

/-- Clearing links changes no column but the link. -/
theorem mem_clearLinks {e : EntryRow} (h : e ∈ (t.clearLinks id).entries) :
    ∃ e₀ ∈ t.entries, e = { e₀ with echoSourceId := e.echoSourceId } ∧
      (e.echoSourceId = none ∨ (e.echoSourceId = e₀.echoSourceId ∧ e.echoSourceId ≠ some id)) := by
  obtain ⟨e₀, he₀, rfl⟩ := mem_mapEntries.mp h
  refine ⟨e₀, he₀, ?_⟩
  split
  next => exact ⟨rfl, .inl rfl⟩
  next hne => exact ⟨rfl, .inr ⟨rfl, by simpa using hne⟩⟩

/-- A link changes no column but its own. -/
theorem mem_linked {link : Option String} {e : EntryRow} (h : e ∈ (t.linked link id).entries) :
    ∃ e₀ ∈ t.entries, e = { e₀ with echoSourceId := e.echoSourceId } ∧
      (e.echoSourceId = e₀.echoSourceId ∨ (e₀.id = id ∧ e.echoSourceId = link)) := by
  cases link with
  | none => exact ⟨e, h, rfl, .inl rfl⟩
  | some source =>
      obtain ⟨e₀, he₀, rfl⟩ := mem_mapEntries.mp h
      refine ⟨e₀, he₀, ?_⟩
      split
      next hid => exact ⟨rfl, .inr ⟨by simpa using hid, rfl⟩⟩
      next => exact ⟨rfl, .inl rfl⟩

theorem Sound.withLink (h : Sound P t) {link : Option String}
    (hlink : ∀ source, link = some source → source ≠ id ∧ ∃ e ∈ t.entries, e.id = source) :
    Sound P (t.linked link id) := by
  cases link with
  | none => exact h
  | some source =>
      obtain ⟨hne, e₁, he₁, hid₁⟩ := hlink source rfl
      have hids : ∀ e : EntryRow,
          (if e.id = id then { e with echoSourceId := some source } else e).id = e.id := by
        intro e
        split <;> rfl
      refine ⟨h.stamped.mapEntries fun _ _ _ => ⟨rfl, rfl, rfl⟩,
        h.contents.imp fun _ hc => hc.mapEntries fun _ _ _ => ⟨rfl, rfl, rfl, rfl⟩, ?_,
        ⟨h.inRange.revision, h.inRange.sequence, h.inRange.maxEntries, h.inRange.maxFavorites,
          h.inRange.maxEntryBytes⟩⟩
      intro e he target htarget
      obtain ⟨e₀, he₀, rfl⟩ := mem_mapEntries.mp he
      simp only [decide_eq_true_eq] at htarget ⊢
      have hexists : ∀ e' ∈ t.entries, e'.id = target →
          ∃ e'' ∈ (t.linked (some source) id).entries, e''.id = target := fun e' he' hid' =>
        ⟨_, mem_mapEntries.mpr ⟨e', he', rfl⟩, by simpa [hids] using hid'⟩
      rw [hids]
      split at htarget
      next hid =>
        cases htarget
        exact ⟨by rw [hid]; exact hne, hexists e₁ he₁ hid₁⟩
      next =>
        obtain ⟨hne', e', he', hid'⟩ := h.linked e₀ he₀ target htarget
        exact ⟨hne', hexists e' he' hid'⟩

theorem Sound.promoted (h : Sound P t) (hr : t.storeMeta.revision + 1 < MAX_REVISION)
    (hs : t.storeMeta.sequence + 1 ≤ I64_MAX) : Sound P (t.promoted id) where
  stamped := by
    refine h.stamped.restamp (p := fun e => e.id = id) id rfl (fun e _ hp => by simpa using hp)
      ?_ ?_ rfl (.inr ⟨?_, rfl⟩) <;> intro e <;> rfl
  contents := h.contents.imp fun _ hc =>
    Contents.mapEntries (t := t.bumped.sequenced)
      ⟨hc.payloads, hc.search, hc.artifacts, hc.size, hc.digest⟩ fun _ _ _ => ⟨rfl, rfl, rfl, rfl⟩
  linked := Linked.mapEntries (t := t.bumped.sequenced) h.linked fun _ _ _ => ⟨rfl, .inl rfl⟩
  inRange := ⟨hr, hs, h.inRange.maxEntries, h.inRange.maxFavorites, h.inRange.maxEntryBytes⟩

theorem Sound.favorited {expected : Nat} {value : Bool} (h : Sound P t)
    (hr : t.storeMeta.revision + 1 < MAX_REVISION) : Sound P (t.favorited id expected value) where
  stamped := by
    refine h.stamped.restamp id rfl (fun e _ hp => ?_) ?_ ?_ rfl (.inl ⟨?_, rfl⟩)
    · simp only [Bool.and_eq_true, decide_eq_true_eq] at hp
      exact hp.1
    all_goals intro e; rfl
  contents := h.contents.imp fun _ hc =>
    Contents.mapEntries (t := t.bumped)
      ⟨hc.payloads, hc.search, hc.artifacts, hc.size, hc.digest⟩ fun _ _ _ => ⟨rfl, rfl, rfl, rfl⟩
  linked := Linked.mapEntries (t := t.bumped) h.linked fun _ _ _ => ⟨rfl, .inl rfl⟩
  inRange := ⟨hr, h.inRange.sequence, h.inRange.maxEntries, h.inRange.maxFavorites,
    h.inRange.maxEntryBytes⟩

/-- The new entry and its side rows. -/
theorem Sound.withEntry (h : Sound P t) (hfresh : t.hasEntry ("entry-" ++ env.uuid) = false)
    (hr : t.storeMeta.revision + 1 < MAX_REVISION) (hs : t.storeMeta.sequence + 1 ≤ I64_MAX) :
    Sound P ((t.withEntry P env mime bytes).withContent P ("entry-" ++ env.uuid) mime bytes) := by
  have hnew : ∀ e ∈ t.entries, e.id ≠ "entry-" ++ env.uuid := by
    intro e he hid
    rw [hasEntry_iff.mpr ⟨e, he, hid⟩] at hfresh
    cases hfresh
  constructor
  case stamped =>
    constructor
    case named =>
      intro e he
      rcases List.mem_append.mp he with he | he
      · exact h.stamped.named e he
      · rw [List.mem_singleton.mp he]
        simp [Database.newEntry]
    case ids =>
      simp only [Tables.withContent, Tables.withEntry, List.map_append, List.map_singleton]
      refine List.nodup_append.mpr ⟨h.stamped.ids, List.nodup_singleton _, ?_⟩
      rintro i hi j hj rfl
      obtain ⟨e, he, rfl⟩ := List.mem_map.mp hi
      exact hnew e he (List.mem_singleton.mp hj)
    case revisions =>
      simp only [Tables.withContent, Tables.withEntry, List.map_append, List.map_singleton]
      exact nodup_append_stamp h.stamped.revisions (by simpa using h.stamped.revision_le)
    case recencies =>
      simp only [Tables.withContent, Tables.withEntry, List.map_append, List.map_singleton]
      exact nodup_append_stamp h.stamped.recencies (by simpa using h.stamped.recency_le)
    case revision_le =>
      intro e he
      rcases List.mem_append.mp he with he | he
      · exact Nat.le_succ_of_le (h.stamped.revision_le e he)
      · rw [List.mem_singleton.mp he]
        exact le_rfl
    case recency_le =>
      intro e he
      rcases List.mem_append.mp he with he | he
      · exact Nat.le_succ_of_le (h.stamped.recency_le e he)
      · rw [List.mem_singleton.mp he]
        exact le_rfl
  case contents =>
    obtain ⟨content, hc⟩ := h.contents
    let content' : String → Bytes := fun i => if i = "entry-" ++ env.uuid then bytes else content i
    have hold : ∀ e ∈ t.entries, content' e.id = content e.id := fun e he => if_neg (hnew e he)
    have hself : content' ("entry-" ++ env.uuid) = bytes := if_pos rfl
    let row := Database.newEntry P env.world ("entry-" ++ env.uuid) mime bytes
      (t.storeMeta.revision + 1) (t.storeMeta.sequence + 1)
    refine ⟨content', ?_, ?_, ?_, ?_, ?_⟩
    · have hrow : payloadRows content' row = [⟨"entry-" ++ env.uuid, bytes⟩] := by
        simp only [payloadRows, row, Database.newEntry, hself]
      have hold' : ∀ e ∈ t.entries, payloadRows content' e = payloadRows content e := fun e he => by
        simp only [payloadRows, hold e he]
      exact (hc.payloads.congr hold').append hrow
    · have hrow : searchRows P content' row =
          [Database.searchRow P ("entry-" ++ env.uuid) mime bytes] := by
        simp only [searchRows, row, Database.newEntry, hself]
      have hold' : ∀ e ∈ t.entries, searchRows P content' e = searchRows P content e :=
        fun e he => by
        simp only [searchRows, hold e he]
      exact (hc.search.congr hold').append hrow
    · have hrow : artifactRows P content' row = (artifactPaths P bytes).map fun path =>
          ⟨"entry-" ++ env.uuid, path⟩ := by
        simp only [artifactRows, row, Database.newEntry, hself]
      have hold' : ∀ e ∈ t.entries, artifactRows P content' e = artifactRows P content e :=
        fun e he => by
        simp only [artifactRows, hold e he]
      exact (hc.artifacts.congr hold').append hrow
    · intro e he
      rcases List.mem_append.mp he with he | he
      · rw [hold e he]
        exact hc.size e he
      · rw [List.mem_singleton.mp he]
        exact congrArg List.length hself
    · intro e he
      rcases List.mem_append.mp he with he | he
      · rw [hold e he]
        exact hc.digest e he
      · rw [List.mem_singleton.mp he]
        exact congrArg P.sha256 hself
  case linked =>
    intro e he source hsource
    rcases List.mem_append.mp he with he | he
    · obtain ⟨hne, e', he', hid⟩ := h.linked e he source hsource
      exact ⟨hne, e', List.mem_append_left _ he', hid⟩
    · rw [List.mem_singleton.mp he] at hsource
      cases hsource
  case inRange =>
    exact ⟨hr, hs, h.inRange.maxEntries, h.inRange.maxFavorites, h.inRange.maxEntryBytes⟩

theorem Sound.created (h : Sound P t) (hfresh : t.hasEntry ("entry-" ++ env.uuid) = false)
    (hr : t.storeMeta.revision + 1 < MAX_REVISION) (hs : t.storeMeta.sequence + 1 ≤ I64_MAX) :
    Sound P (t.created P env mime bytes) :=
  (h.withEntry hfresh hr hs).withLink fun _ hlink =>
    ⟨(linkTarget_some hlink).1, (linkTarget_some hlink).2.1⟩

/-- The rewritten entry and its side rows. -/
theorem Contents.rewritten {content : String → Bytes} {expected : Nat} {e : EntryRow}
    (h : Contents P content t) (hstamped : Stamped t) (hr : InRange t) (he : e ∈ t.entries)
    (hid : e.id = id) (hexpected : e.revision = expected) :
    Contents P (fun i => if i = id then bytes else content i)
      (((t.rewritten P env id expected mime bytes).withoutContent id).withContent P id mime
        bytes) := by
  let content' : String → Bytes := fun i => if i = id then bytes else content i
  let resolved := ResolvedContent.resolve P env.world mime bytes MAX_ENTRY_BYTES
  let rewrite : EntryRow → EntryRow := fun e =>
    if e.id = id && (e.revision : Int) = asI64 expected then
      { e with
        revision := t.storeMeta.revision + 1, mime, byteSize := bytes.length
        digest := P.sha256 bytes, preview := boundedPreview bytes INSPECTION_LIMIT
        kind := resolved.kind, resolvedMime := resolved.mime, echoSourceId := none }
    else e
  let clear : EntryRow → EntryRow := fun e =>
    if e.echoSourceId = some id then { e with echoSourceId := none } else e
  let g : EntryRow → EntryRow := clear ∘ rewrite
  have hclear : ∀ x, (clear x).id = x.id ∧ (clear x).mime = x.mime ∧
      (clear x).byteSize = x.byteSize ∧ (clear x).digest = x.digest := by
    intro x
    simp only [clear]
    split <;> exact ⟨rfl, rfl, rfl, rfl⟩
  have hentries : ((t.rewritten P env id expected mime bytes).withoutContent id |>.withContent P id
      mime bytes).entries = t.entries.map g := by
    simp only [Tables.withContent, Tables.withoutContent, Tables.deletePayload, Tables.deleteSearch,
      Tables.deleteEntryArtifacts, Tables.rewritten, Tables.clearLinks, Tables.mapEntries,
      Tables.bumped, List.map_map]
    refine List.map_congr_left fun x _ => ?_
    simp only [g, Function.comp_apply, clear, rewrite, decide_eq_true_eq, resolved]
  -- the row with the id is the rewritten one, by the distinct ids
  have hself : (g e).id = id ∧ (g e).mime = mime ∧ (g e).byteSize = bytes.length ∧
      (g e).digest = P.sha256 bytes := by
    have hmatch : (e.id = id && (e.revision : Int) = asI64 expected) = true := by
      simp only [Bool.and_eq_true, decide_eq_true_eq]
      exact ⟨hid, hexpected ▸ revision_eq_asI64 hstamped hr he⟩
    simp only [g, Function.comp_apply, rewrite, if_pos hmatch]
    exact ⟨hid, rfl, rfl, rfl⟩
  have hother : ∀ x, x.id ≠ id → (g x).id = x.id ∧ (g x).mime = x.mime ∧
      (g x).byteSize = x.byteSize ∧ (g x).digest = x.digest := by
    intro x hx
    have hno : ¬(x.id = id && (x.revision : Int) = asI64 expected) = true := by simp [hx]
    have hrewrite : rewrite x = x := if_neg hno
    simpa only [g, Function.comp_apply, hrewrite] using hclear x
  have hcontent : ∀ x : EntryRow, x.id ≠ id → content' x.id = content x.id := fun x hx => if_neg hx
  have hbytes : content' id = bytes := if_pos rfl
  have hcases : ∀ x ∈ t.entries, x = e ∨ x.id ≠ id := by
    intro x hx
    by_cases hxid : x.id = id
    · exact .inl (List.inj_on_of_nodup_map hstamped.ids hx he (hxid.trans hid.symm))
    · exact .inr hxid
  constructor
  case payloads =>
    rw [hentries]
    have hnew : payloadRows content' (g e) = [⟨id, bytes⟩] := by
      simp only [payloadRows, hself.1, hbytes]
    have := h.payloads.replace (payloadRows_key content) hstamped.ids he (g := g)
      (fun x _ hx => by
        have hx' : x.id ≠ id := hid ▸ hx
        simp only [payloadRows, (hother x hx').1, hcontent x hx']) hnew
    rwa [hid] at this
  case search =>
    rw [hentries]
    have hnew : searchRows P content' (g e) = [Database.searchRow P id mime bytes] := by
      simp only [searchRows, hself.1, hself.2.1, hbytes]
    have := h.search.replace (searchRows_key P content) hstamped.ids he (g := g)
      (fun x _ hx => by
        have hx' : x.id ≠ id := hid ▸ hx
        simp only [searchRows, (hother x hx').1, (hother x hx').2.1, hcontent x hx']) hnew
    rwa [hid] at this
  case artifacts =>
    rw [hentries]
    have hnew : artifactRows P content' (g e) =
        (artifactPaths P bytes).map fun path => ⟨id, path⟩ := by
      simp only [artifactRows, hself.1, hbytes]
    have := h.artifacts.replace (artifactRows_key P content) hstamped.ids he (g := g)
      (fun x _ hx => by
        have hx' : x.id ≠ id := hid ▸ hx
        simp only [artifactRows, (hother x hx').1, hcontent x hx']) hnew
    rwa [hid] at this
  case size =>
    intro y hy
    obtain ⟨x, hx, rfl⟩ := List.mem_map.mp (hentries ▸ hy)
    change (content' (g x).id).length = (g x).byteSize
    rcases hcases x hx with rfl | hxid
    · rw [hself.1, hbytes, hself.2.2.1]
    · rw [(hother x hxid).1, hcontent x hxid, (hother x hxid).2.2.1]
      exact h.size x hx
  case digest =>
    intro y hy
    obtain ⟨x, hx, rfl⟩ := List.mem_map.mp (hentries ▸ hy)
    change P.sha256 (content' (g x).id) = (g x).digest
    rcases hcases x hx with rfl | hxid
    · rw [hself.1, hbytes, hself.2.2.2]
    · rw [(hother x hxid).1, hcontent x hxid, (hother x hxid).2.2.2]
      exact h.digest x hx

theorem Stamped.rewritten {expected : Nat} (h : Stamped t) :
    Stamped (t.rewritten P env id expected mime bytes) := by
  refine Stamped.mapEntries (h.restamp id rfl (fun e _ hp => ?_) ?_ ?_ rfl (.inl ⟨?_, rfl⟩))
    fun _ _ _ => ⟨rfl, rfl, rfl⟩
  · simp only [Bool.and_eq_true, decide_eq_true_eq] at hp
    exact hp.1
  all_goals intro e; rfl

theorem Sound.replaced {expected : Nat} {e : EntryRow} (h : Sound P t) (he : e ∈ t.entries)
    (hid : e.id = id) (hexpected : e.revision = expected)
    (hr : t.storeMeta.revision + 1 < MAX_REVISION) :
    Sound P (t.replaced P env id expected mime bytes) := by
  have hstamped : Stamped (t.rewritten P env id expected mime bytes) := h.stamped.rewritten
  have hlinked : Linked (t.rewritten P env id expected mime bytes) :=
    Linked.mapEntries (Linked.mapEntries (t := t.bumped) h.linked fun _ _ _ => ⟨rfl, .inr rfl⟩)
      fun _ _ _ => ⟨rfl, .inr rfl⟩
  have hsound : Sound P (((t.rewritten P env id expected mime bytes).withoutContent id).withContent
      P id mime bytes) := by
    refine ⟨hstamped.congr rfl rfl, ?_, hlinked,
      ⟨hr, h.inRange.sequence, h.inRange.maxEntries, h.inRange.maxFavorites,
        h.inRange.maxEntryBytes⟩⟩
    obtain ⟨content, hc⟩ := h.contents
    exact ⟨_, hc.rewritten h.stamped h.inRange he hid hexpected⟩
  exact hsound.withLink fun _ hlink => ⟨(linkTarget_some hlink).1, (linkTarget_some hlink).2.1⟩

/-! ## Sizes -/

theorem byteSize_mapEntries {p : EntryRow → Bool} {set : EntryRow → EntryRow} {limit : Nat}
    (h : ∀ e ∈ t.entries, e.byteSize ≤ limit)
    (hset : ∀ e, e.byteSize ≤ limit → (set e).byteSize ≤ limit) :
    ∀ e ∈ (t.mapEntries p set).entries, e.byteSize ≤ limit := by
  intro e he
  obtain ⟨e₀, he₀, rfl⟩ := mem_mapEntries.mp he
  split
  next => exact hset e₀ (h e₀ he₀)
  next => exact h e₀ he₀

theorem byteSize_linked {link : Option String} {limit : Nat}
    (h : ∀ e ∈ t.entries, e.byteSize ≤ limit) :
    ∀ e ∈ (t.linked link id).entries, e.byteSize ≤ limit := by
  intro e he
  obtain ⟨e₀, he₀, heq, -⟩ := mem_linked he
  rw [heq]
  exact h e₀ he₀

theorem byteSize_created {limit : Nat} (h : ∀ e ∈ t.entries, e.byteSize ≤ limit)
    (hsize : bytes.length ≤ limit) :
    ∀ e ∈ (t.created P env mime bytes).entries, e.byteSize ≤ limit := by
  refine byteSize_linked fun e he => ?_
  rcases List.mem_append.mp he with he | he
  · exact h e he
  · rw [List.mem_singleton.mp he]
    exact hsize

theorem byteSize_replaced {expected limit : Nat} (h : ∀ e ∈ t.entries, e.byteSize ≤ limit)
    (hsize : bytes.length ≤ limit) :
    ∀ e ∈ (t.replaced P env id expected mime bytes).entries, e.byteSize ≤ limit :=
  byteSize_linked (byteSize_mapEntries (byteSize_mapEntries (t := t.bumped) h fun _ _ => hsize)
    fun _ he => he)

end Changes

end ClipDaemon
