import ClipDaemon.Store.Search

/-!
# What retention keeps

`Database.retain` evicts in three ways: what is too large, what is past the limit of its
category, and what is past the byte budget.  The entry a change is about is protected: its own
size is not looked at, and it comes before all others.

`Preferred` says what is evicted and what stays, in terms of sizes, categories and ages only.
A state within the limits is left alone, and retention fails exactly when there is no room
for the protected entry (`Database.retain_preferred`).
-/

namespace ClipDaemon

open Eviction

/-! ## Specification -/

/-- What the key of the table and the names of new entries promise about any set of entries. -/
structure Keyed (t : Tables) : Prop where
  ids : (t.entries.map (·.id)).Nodup
  named : ∀ e ∈ t.entries, e.id ≠ ""

/-- The limits of a policy, where the size of the protected entry does not count. -/
structure Fits (policy : StorePolicy) (protectedId : String) (entries : List EntryRow) : Prop where
  entryBytes : ∀ e ∈ entries, e.id ≠ protectedId → e.byteSize ≤ policy.maxEntryBytes
  regular : (category false entries).length ≤ policy.maxEntries
  favorites : (category true entries).length ≤ policy.maxFavorites
  totalBytes : (entries.map (·.byteSize)).sum ≤ policy.maxTotalBytes

/-- The limit of a category. -/
def StorePolicy.capacity (policy : StorePolicy) (favorite : Bool) : Nat :=
  if favorite then policy.maxFavorites else policy.maxEntries

/-- No two entries of a committed state have the same recency; the id would decide. -/
def EntryRow.OlderThan (e s : EntryRow) : Prop :=
  e.recency < s.recency ∨ (e.recency = s.recency ∧ s.id ≤ e.id ∧ s.id ≠ e.id)

/-- The same row up to its link. -/
def EntryRow.SameRow (e s : EntryRow) : Prop := e = { s with echoSourceId := e.echoSourceId }

namespace Tables

/-- After the oversized entries are gone. -/
def sized (policy : StorePolicy) (protectedId : String) (t : Tables) : Tables :=
  t.deleteEntries (Database.oversized policy.maxEntryBytes protectedId t)

/-- After the entries of a category past its limit are gone. -/
def cappedAt (favorite : Bool) (policy : StorePolicy) (protectedId : String) (t : Tables) :
    Tables :=
  t.deleteEntries (Database.pastCategory favorite (policy.capacity favorite) protectedId t)

/-- After the entries past the limits of the categories are gone too. -/
def capped (policy : StorePolicy) (protectedId : String) (t : Tables) : Tables :=
  ((t.sized policy protectedId).cappedAt false policy protectedId).cappedAt true policy protectedId

theorem retained_eq (policy : StorePolicy) (protectedId : String) (t : Tables) :
    t.retained policy protectedId = (t.capped policy protectedId).deleteEntries
      (Database.pastBudget policy.maxTotalBytes protectedId (t.capped policy protectedId)) := rfl

end Tables

/-- What is evicted and what stays.  An entry goes because of its size when it is not in
`sized`, for the limit of its category when it is in `sized` but not in `capped`, and for the
byte budget when it is in `capped` and does not stay. -/
structure Preferred (policy : StorePolicy) (protectedId : String) (t t' : Tables) : Prop where
  /-- What stays is as it was, but for links to what went. -/
  survivors : ∀ s ∈ t'.entries, ∃ e ∈ t.entries, s.SameRow e
  fits : Fits policy protectedId t'.entries
  size : ∀ e ∈ t.entries, (t.sized policy protectedId).hasEntry e.id = false →
    e.id ≠ protectedId ∧ policy.maxEntryBytes < e.byteSize
  category : ∀ e ∈ t.entries, (t.sized policy protectedId).hasEntry e.id = true →
    (t.capped policy protectedId).hasEntry e.id = false →
    ∀ s ∈ t'.entries, s.id ≠ protectedId → s.favorite = e.favorite → e.OlderThan s
  /-- Favorites go last. -/
  favoritesLast : ∀ e ∈ t.entries, e.favorite = true →
    (t.capped policy protectedId).hasEntry e.id = true → t'.hasEntry e.id = false →
    ∀ s ∈ t'.entries, s.id ≠ protectedId → s.favorite = true
  budget : ∀ e ∈ t.entries, (t.capped policy protectedId).hasEntry e.id = true →
    t'.hasEntry e.id = false →
    ∀ s ∈ t'.entries, s.id ≠ protectedId → s.favorite = e.favorite → e.OlderThan s

/-! ## Rows through deletions -/

namespace EntryRow.SameRow

variable {e s u : EntryRow}

theorem refl (e : EntryRow) : e.SameRow e := rfl

theorem symm (h : e.SameRow s) : s.SameRow e := by
  unfold SameRow at *
  rw [h]

theorem trans (h : e.SameRow s) (h' : s.SameRow u) : e.SameRow u := by
  unfold SameRow at *
  rw [h, h']

theorem id_eq (h : e.SameRow s) : e.id = s.id := by rw [h]
theorem mime_eq (h : e.SameRow s) : e.mime = s.mime := by rw [h]
theorem recency_eq (h : e.SameRow s) : e.recency = s.recency := by rw [h]
theorem favorite_eq (h : e.SameRow s) : e.favorite = s.favorite := by rw [h]
theorem byteSize_eq (h : e.SameRow s) : e.byteSize = s.byteSize := by rw [h]

theorem unlink (ids : List String) (e : EntryRow) : (e.unlink ids).SameRow e := by
  unfold SameRow EntryRow.unlink
  split <;> rfl

theorem olderThan {e' s' : EntryRow} (h : e.SameRow e') (hs : s.SameRow s')
    (ho : e'.OlderThan s') : e.OlderThan s := by
  unfold OlderThan at *
  rwa [h.recency_eq, hs.recency_eq, h.id_eq, hs.id_eq]

end EntryRow.SameRow

/-- Every row of the second state is one of the first. -/
def Remains (t t' : Tables) : Prop := ∀ s ∈ t'.entries, ∃ e ∈ t.entries, s.SameRow e

namespace Remains

variable {t t' t'' : Tables}

theorem trans (h : Remains t t') (h' : Remains t' t'') : Remains t t'' := by
  intro s hs
  obtain ⟨s', hs', hsame⟩ := h' s hs
  obtain ⟨e, he, hsame'⟩ := h s' hs'
  exact ⟨e, he, hsame.trans hsame'⟩

theorem deleteEntries (t : Tables) (ids : List String) : Remains t (t.deleteEntries ids) := by
  intro s hs
  obtain ⟨e, he, -, rfl⟩ := (mem_deleteEntries ids).mp hs
  exact ⟨e, he, .unlink ids e⟩

/-- A row whose id is still there is still there. -/
theorem row (hkeys : Keyed t) (h : Remains t t') {e : EntryRow} {id : String} (he : e ∈ t.entries)
    (hid : e.id = id) (hin : t'.hasEntry id = true) : ∃ s ∈ t'.entries, s.SameRow e := by
  obtain ⟨s, hs, rfl⟩ := hasEntry_iff.mp hin
  obtain ⟨e', he', hsame⟩ := h s hs
  have heq : e' = e := List.inj_on_of_nodup_map hkeys.ids he' he (hsame.id_eq.symm.trans hid.symm)
  exact ⟨s, hs, heq ▸ hsame⟩

theorem hasEntry (h : Remains t t') {id : String} (hin : t'.hasEntry id = true) :
    t.hasEntry id = true := by
  obtain ⟨s, hs, rfl⟩ := hasEntry_iff.mp hin
  obtain ⟨e, he, hsame⟩ := h s hs
  exact hasEntry_iff.mpr ⟨e, he, hsame.id_eq.symm⟩

end Remains

theorem hasEntry_deleteEntries {t : Tables} {ids : List String} {id : String} :
    (t.deleteEntries ids).hasEntry id = true ↔ t.hasEntry id = true ∧ id ∉ ids := by
  simp only [hasEntry_iff, mem_deleteEntries]
  constructor
  · rintro ⟨-, ⟨e, he, hkept, rfl⟩, rfl⟩
    rw [EntryRow.unlink_id]
    exact ⟨⟨e, he, rfl⟩, hkept⟩
  · rintro ⟨⟨e, he, rfl⟩, hkept⟩
    exact ⟨_, ⟨e, he, hkept, rfl⟩, EntryRow.unlink_id ids e⟩

/-- What is gone after a deletion was deleted. -/
theorem mem_of_gone {t : Tables} {ids : List String} {id : String} (hin : t.hasEntry id = true)
    (hgone : (t.deleteEntries ids).hasEntry id = false) : id ∈ ids := by
  by_contra hkept
  rw [hasEntry_deleteEntries.mpr ⟨hin, hkept⟩] at hgone
  cases hgone

theorem EntryRow.unlink_nil (e : EntryRow) : e.unlink [] = e := by
  cases h : e.echoSourceId <;> simp [EntryRow.unlink, h]

theorem Tables.deleteEntries_nil (t : Tables) : t.deleteEntries [] = t := by
  have hunlink : EntryRow.unlink [] = id := funext EntryRow.unlink_nil
  simp [deleteEntries, hunlink]

namespace Keyed

variable {t : Tables}

theorem deleteEntries (h : Keyed t) (ids : List String) : Keyed (t.deleteEntries ids) where
  ids := h.ids.sublist (map_deleteEntries_sublist ids (by simp))
  named s hs := by
    obtain ⟨e, he, -, rfl⟩ := (mem_deleteEntries ids).mp hs
    simpa using h.named e he

theorem of_stamped (h : Stamped t) : Keyed t := ⟨h.ids, h.named⟩

theorem capped (h : Keyed t) (policy : StorePolicy) (protectedId : String) :
    Keyed (t.capped policy protectedId) :=
  ((h.deleteEntries _).deleteEntries _).deleteEntries _

end Keyed

section Stages

variable {t : Tables} {policy : StorePolicy} {protectedId : String}

theorem remains_cappedAt (favorite : Bool) :
    Remains t (t.cappedAt favorite policy protectedId) := .deleteEntries t _

theorem remains_sized : Remains t (t.sized policy protectedId) := .deleteEntries t _

theorem remains_capped_sized :
    Remains (t.sized policy protectedId) (t.capped policy protectedId) :=
  (remains_cappedAt false).trans (remains_cappedAt true)

theorem remains_capped : Remains t (t.capped policy protectedId) :=
  remains_sized.trans remains_capped_sized

theorem remains_retained_capped :
    Remains (t.capped policy protectedId) (t.retained policy protectedId) := .deleteEntries _ _

theorem remains_retained : Remains t (t.retained policy protectedId) :=
  remains_capped.trans remains_retained_capped

end Stages

/-! ## The order of eviction -/

instance : Std.Total Database.recencyOrder := ⟨recencyOrder_total⟩

instance : IsTrans EntryRow Database.recencyOrder := ⟨fun _ _ _ => recencyOrder_trans⟩

/-- The category limits go by recency, and look at the protected entry first. -/
theorem categoryOrder_eq (protectedId : String) : Database.categoryOrder protectedId =
    Firstly (·.id = protectedId) Database.recencyOrder := rfl

/-- The byte budget goes by the order of a listing, and looks at the protected entry first. -/
theorem budgetOrder_eq (protectedId : String) : Database.budgetOrder protectedId =
    Firstly (·.id = protectedId) Database.pageOrder := rfl

section Instances

variable (protectedId : String)

instance : Std.Total (Database.categoryOrder protectedId) :=
  categoryOrder_eq protectedId ▸ inferInstance

instance : IsTrans EntryRow (Database.categoryOrder protectedId) :=
  categoryOrder_eq protectedId ▸ inferInstance

instance : Std.Total (Database.budgetOrder protectedId) :=
  budgetOrder_eq protectedId ▸ inferInstance

instance : IsTrans EntryRow (Database.budgetOrder protectedId) :=
  budgetOrder_eq protectedId ▸ inferInstance

end Instances

section Order

variable {t : Tables} {protectedId : String} {e s : EntryRow}

theorem olderThan_of_recencyOrder (h : Database.recencyOrder s e) (hne : s.id ≠ e.id) :
    e.OlderThan s := by
  rcases h with h | ⟨h, hid⟩
  · exact .inl h
  · exact .inr ⟨h.symm, hid, hne⟩

/-- Only one row is protected. -/
theorem not_protected (hkeys : Keyed t) (he : e ∈ t.entries) (hid : e.id = protectedId)
    (hs : s ∈ t.entries) (hne : s ≠ e) : s.id ≠ protectedId := fun hsid =>
  hne (List.inj_on_of_nodup_map hkeys.ids hs he (hsid.trans hid.symm))

/-- What a category limit evicts is in the category and older than what it leaves there. -/
theorem olderThan_of_pastCategory {favorite : Bool} {limit : Nat} (hkeys : Keyed t)
    (he : e ∈ t.entries) (hs : s ∈ t.entries)
    (hgone : e.id ∈ Database.pastCategory favorite limit protectedId t)
    (hkept : s.id ∉ Database.pastCategory favorite limit protectedId t)
    (hunprotected : s.id ≠ protectedId) (hfavorite : s.favorite = favorite) : e.OlderThan s := by
  have hle : Database.categoryOrder protectedId s e :=
    le_of_mem_pastLimit hkeys.ids he hs (by simpa using hfavorite) hgone hkept
  rw [categoryOrder_eq] at hle
  exact olderThan_of_recencyOrder (hle.le_of_left hunprotected).2 fun hid => hkept (hid ▸ hgone)

theorem favorite_of_pastCategory {favorite : Bool} {limit : Nat} (hkeys : Keyed t)
    (he : e ∈ t.entries) (hgone : e.id ∈ Database.pastCategory favorite limit protectedId t) :
    e.favorite = favorite := by
  simpa using of_mem_pastLimit hkeys.ids he hgone

/-- What the byte budget evicts comes after what it leaves. -/
theorem pageOrder_of_pastBudget {limit : Nat} (hkeys : Keyed t) (he : e ∈ t.entries)
    (hs : s ∈ t.entries) (hgone : e.id ∈ Database.pastBudget limit protectedId t)
    (hkept : s.id ∉ Database.pastBudget limit protectedId t) (hunprotected : s.id ≠ protectedId) :
    Database.pageOrder s e := by
  have hle : Database.budgetOrder protectedId s e :=
    le_of_mem_overBudget hkeys.ids he hs hgone hkept
  rw [budgetOrder_eq] at hle
  exact (hle.le_of_left hunprotected).2

/-- The protected entry is evicted by a category limit only when there is no capacity. -/
theorem protected_mem_pastCategory {favorite : Bool} {limit : Nat} (hkeys : Keyed t)
    (he : e ∈ t.entries) (hid : e.id = protectedId) :
    protectedId ∈ Database.pastCategory favorite limit protectedId t ↔
      e.favorite = favorite ∧ limit = 0 := by
  have hfirst : ∀ s ∈ t.entries, s ≠ e → ¬Database.categoryOrder protectedId s e := by
    intro s hs hne
    rw [categoryOrder_eq]
    exact Firstly.not_of_right hid (not_protected hkeys he hid hs hne)
  subst hid
  by_cases hfavorite : e.favorite = favorite
  · rw [and_iff_right hfavorite]
    exact first_mem_pastLimit hkeys.ids he (by simpa using hfavorite) hfirst
  · simp only [hfavorite, false_and, iff_false]
    exact fun hgone => hfavorite (favorite_of_pastCategory hkeys he hgone)

/-- The protected entry is evicted by the byte budget only when it is too large alone. -/
theorem protected_mem_pastBudget {limit : Nat} (hkeys : Keyed t) (he : e ∈ t.entries)
    (hid : e.id = protectedId) :
    protectedId ∈ Database.pastBudget limit protectedId t ↔ limit < e.byteSize := by
  have hfirst : ∀ s ∈ t.entries, s ≠ e → ¬Database.budgetOrder protectedId s e := by
    intro s hs hne
    rw [budgetOrder_eq]
    exact Firstly.not_of_right hid (not_protected hkeys he hid hs hne)
  subst hid
  exact first_mem_overBudget hkeys.ids he hfirst

end Order

/-! ## The limits -/

section Limits

variable {t : Tables} {policy : StorePolicy} {protectedId : String}

theorem fits_retained (hkeys : Keyed t) :
    Fits policy protectedId (t.retained policy protectedId).entries where
  entryBytes s hs hid := by
    obtain ⟨e, he, hsame⟩ := (remains_capped_sized.trans remains_retained_capped) s hs
    obtain ⟨e₀, he₀, hkept, rfl⟩ := (mem_deleteEntries _).mp he
    rw [hsame.byteSize_eq, EntryRow.unlink_byteSize]
    rw [hsame.id_eq, EntryRow.unlink_id] at hid
    by_contra hsize
    refine hkept (List.mem_map_of_mem (List.mem_filter.mpr ⟨he₀, ?_⟩))
    simpa [hid] using hsize
  regular :=
    ((length_category_deleteEntries_le _ false).trans
      (length_category_deleteEntries_le _ false)).trans
      (length_category_pastCategory protectedId false policy.maxEntries)
  favorites :=
    (length_category_deleteEntries_le _ true).trans
      (length_category_pastCategory protectedId true policy.maxFavorites)
  totalBytes := by
    rw [Tables.retained_eq, map_deleteEntries _ (by simp)]
    exact sum_deleteKeys_overBudget _ _ _ (hkeys.capped policy protectedId).ids

/-- Within the limits nothing is evicted. -/
theorem retained_of_fits (h : Fits policy protectedId t.entries) :
    t.retained policy protectedId = t := by
  have hsize : Database.oversized policy.maxEntryBytes protectedId t = [] := by
    rw [Database.oversized, Tables.entryIds, List.filter_eq_nil_iff.mpr, List.map_nil]
    intro e he
    by_cases hid : e.id = protectedId
    · simp [hid]
    · simp [Nat.not_lt.mpr (h.entryBytes e he hid)]
  have hregular : Database.pastCategory false policy.maxEntries protectedId t = [] :=
    pastLimit_eq_nil h.regular
  have hfavorites : Database.pastCategory true policy.maxFavorites protectedId t = [] :=
    pastLimit_eq_nil h.favorites
  have hbudget : Database.pastBudget policy.maxTotalBytes protectedId t = [] :=
    overBudget_eq_nil h.totalBytes
  simp only [Tables.retained, hsize, Tables.deleteEntries_nil, hregular, hfavorites, hbudget]

/-- The protected entry is there after a category limit unless there is no capacity. -/
theorem hasEntry_cappedAt (policy : StorePolicy) (favorite : Bool) {e : EntryRow}
    (hkeys : Keyed t) (he : e ∈ t.entries) (hid : e.id = protectedId) :
    (t.cappedAt favorite policy protectedId).hasEntry protectedId = true ↔
      (e.favorite = favorite → 1 ≤ policy.capacity favorite) := by
  rw [Tables.cappedAt, hasEntry_deleteEntries, protected_mem_pastCategory hkeys he hid]
  simp [hasEntry_iff.mpr ⟨e, he, hid⟩, Nat.one_le_iff_ne_zero]

theorem hasEntry_sized {e : EntryRow} (he : e ∈ t.entries) (hid : e.id = protectedId) :
    (t.sized policy protectedId).hasEntry protectedId = true := by
  rw [Tables.sized, hasEntry_deleteEntries]
  refine ⟨hasEntry_iff.mpr ⟨e, he, hid⟩, fun hmem => ?_⟩
  obtain ⟨e', he', heq⟩ := List.mem_map.mp hmem
  simp [heq] at he'

/-- The protected entry is there after both category limits when it has a place in its own. -/
theorem hasEntry_capped {e : EntryRow} (hkeys : Keyed t) (he : e ∈ t.entries)
    (hid : e.id = protectedId) :
    (t.capped policy protectedId).hasEntry protectedId = true ↔ 1 ≤ policy.capacity e.favorite := by
  obtain ⟨e₁, he₁, hsame₁⟩ := remains_sized.row hkeys he hid (hasEntry_sized he hid)
  have hkeys₁ : Keyed (t.sized policy protectedId) := hkeys.deleteEntries _
  have hregular := hasEntry_cappedAt policy false hkeys₁ he₁ (hsame₁.id_eq.trans hid)
  rw [hsame₁.favorite_eq] at hregular
  -- the favorites' limit is looked at when the entry is still there after the other one
  have hfavorite : ((t.sized policy protectedId).cappedAt false policy protectedId).hasEntry
      protectedId = true → ((t.capped policy protectedId).hasEntry protectedId = true ↔
        (e.favorite = true → 1 ≤ policy.capacity true)) := by
    intro hin
    obtain ⟨e₂, he₂, hsame₂⟩ :=
      (remains_cappedAt false).row hkeys₁ he₁ (hsame₁.id_eq.trans hid) hin
    have hsame := hsame₂.trans hsame₁
    rw [← hsame.favorite_eq]
    exact hasEntry_cappedAt policy true (hkeys₁.deleteEntries _) he₂ (hsame.id_eq.trans hid)
  constructor
  · intro hin
    have hmid := (remains_cappedAt true).hasEntry hin
    cases hf : e.favorite with
    | false => exact hregular.mp hmid hf
    | true => exact (hfavorite hmid).mp hin hf
  · intro hcapacity
    exact (hfavorite (hregular.mpr fun hf => hf ▸ hcapacity)).mpr fun hf => hf ▸ hcapacity

/-- The protected entry stays when it has a place in its category and fits into the budget. -/
theorem hasEntry_retained {e : EntryRow} (hkeys : Keyed t) (he : e ∈ t.entries)
    (hid : e.id = protectedId) :
    (t.retained policy protectedId).hasEntry protectedId = true ↔
      1 ≤ policy.capacity e.favorite ∧ e.byteSize ≤ policy.maxTotalBytes := by
  rw [Tables.retained_eq, hasEntry_deleteEntries, hasEntry_capped hkeys he hid]
  refine and_congr_right fun hcapacity => ?_
  obtain ⟨e₃, he₃, hsame⟩ :=
    remains_capped.row hkeys he hid ((hasEntry_capped hkeys he hid).mpr hcapacity)
  rw [protected_mem_pastBudget (hkeys.capped policy protectedId) he₃ (hsame.id_eq.trans hid),
    hsame.byteSize_eq, Nat.not_lt]

end Limits

/-! ## What goes first -/

section Preferred

variable {t : Tables} {policy : StorePolicy} {protectedId : String} {e s : EntryRow}

/-- What is gone after a category limit is in the category, and older than what is left of it. -/
theorem olderThan_of_cappedAt {favorite : Bool} {t' : Tables} (hkeys : Keyed t) (he : e ∈ t.entries)
    (hgone : (t.cappedAt favorite policy protectedId).hasEntry e.id = false)
    (hremains : Remains (t.cappedAt favorite policy protectedId) t') (hs : s ∈ t'.entries)
    (hunprotected : s.id ≠ protectedId) (hfavorite : s.favorite = e.favorite) : e.OlderThan s := by
  have hmem := mem_of_gone (hasEntry_iff.mpr ⟨e, he, rfl⟩) hgone
  obtain ⟨s', hs', hsame⟩ := hremains s hs
  obtain ⟨s₀, hs₀, hkept, rfl⟩ := (mem_deleteEntries _).mp hs'
  have hrow := hsame.trans (.unlink _ s₀)
  rw [hrow.id_eq] at hunprotected
  rw [hrow.favorite_eq, favorite_of_pastCategory hkeys he hmem] at hfavorite
  exact (EntryRow.SameRow.refl e).olderThan hrow
    (olderThan_of_pastCategory hkeys he hs₀ hmem hkept hunprotected hfavorite)

/-- What is gone after the byte budget would be listed after what is left. -/
theorem pageOrder_of_gone (hkeys : Keyed t) (he : e ∈ t.entries)
    (hin : (t.capped policy protectedId).hasEntry e.id = true)
    (hgone : (t.retained policy protectedId).hasEntry e.id = false)
    (hs : s ∈ (t.retained policy protectedId).entries) (hunprotected : s.id ≠ protectedId) :
    Database.pageOrder s e ∧ s.id ≠ e.id := by
  have hmem := mem_of_gone hin hgone
  obtain ⟨e', he', hrow⟩ := remains_capped.row hkeys he rfl hin
  obtain ⟨s₀, hs₀, hkept, rfl⟩ := (mem_deleteEntries _).mp hs
  simp only [EntryRow.unlink_id] at hunprotected ⊢
  rw [← hrow.id_eq] at hmem
  have horder := pageOrder_of_pastBudget (hkeys.capped policy protectedId) he' hs₀ hmem hkept
    hunprotected
  unfold Database.pageOrder Database.recencyOrder at horder ⊢
  rw [hrow.favorite_eq, hrow.recency_eq, hrow.id_eq] at horder
  simp only [EntryRow.unlink_favorite, EntryRow.unlink_recency, EntryRow.unlink_id]
  exact ⟨horder, fun hid => hkept (hid ▸ hrow.id_eq ▸ hmem)⟩

theorem preferred_retained (hkeys : Keyed t) :
    Preferred policy protectedId t (t.retained policy protectedId) where
  survivors := remains_retained
  fits := fits_retained hkeys
  size e he hgone := by
    have hmem := mem_of_gone (hasEntry_iff.mpr ⟨e, he, rfl⟩) hgone
    obtain ⟨e', he', hid⟩ := List.mem_map.mp hmem
    obtain ⟨he', hlarge⟩ := List.mem_filter.mp he'
    obtain rfl : e' = e := List.inj_on_of_nodup_map hkeys.ids he' he hid
    simp only [Bool.and_eq_true, decide_eq_true_eq] at hlarge
    exact ⟨hlarge.2, hlarge.1⟩
  category e he hin hgone s hs hunprotected hfavorite := by
    obtain ⟨e₁, he₁, hrow⟩ := remains_sized.row hkeys he rfl hin
    have hkeys₁ : Keyed (t.sized policy protectedId) := hkeys.deleteEntries _
    rw [← hrow.favorite_eq] at hfavorite
    rw [← hrow.id_eq] at hgone
    suffices h : e₁.OlderThan s from EntryRow.SameRow.olderThan hrow.symm (.refl s) h
    cases hmid :
      ((t.sized policy protectedId).cappedAt false policy protectedId).hasEntry e₁.id with
    | false =>
        exact olderThan_of_cappedAt hkeys₁ he₁ hmid
          ((remains_cappedAt true).trans remains_retained_capped) hs hunprotected hfavorite
    | true =>
        obtain ⟨e₂, he₂, hrow₂⟩ := (remains_cappedAt false).row hkeys₁ he₁ rfl hmid
        rw [← hrow₂.favorite_eq] at hfavorite
        rw [← hrow₂.id_eq] at hgone
        exact EntryRow.SameRow.olderThan hrow₂.symm (.refl s)
          (olderThan_of_cappedAt (hkeys₁.deleteEntries _) he₂ hgone remains_retained_capped hs
            hunprotected hfavorite)
  favoritesLast e he hfavorite hin hgone s hs hunprotected := by
    rcases (pageOrder_of_gone hkeys he hin hgone hs hunprotected).1 with h | h
    · exact h.1
    · rw [h.1, hfavorite]
  budget e he hin hgone s hs hunprotected hfavorite := by
    obtain ⟨horder, hne⟩ := pageOrder_of_gone hkeys he hin hgone hs hunprotected
    rcases horder with h | h
    · rw [hfavorite, h.2] at h
      exact absurd h.1 (by simp)
    · exact olderThan_of_recencyOrder h.2 hne

end Preferred

/-! ## Retention -/

namespace Database

variable {policy : StorePolicy} {t : Tables}

theorem findEntry_isSome {id : String} : (findEntry id t).isSome = t.hasEntry id := by
  rw [findEntry, Tables.hasEntry]
  induction t.entries with
  | nil => rfl
  | cons e entries ih =>
      by_cases hid : e.id = id
      · simp [hid]
      · simpa [hid] using ih

theorem eval_summary_none {id : String} : (summary id none).eval t =
    match findEntry id t with
    | some e => .ok (decodeSummary t e, t)
    | none => .error (.notFound "Clipboard entry does not exist") := by
  simp only [summary, Prog.eval_bind, eval_rows]
  cases findEntry id t <;> simp

/-- Retention succeeds when the protected entry stays. -/
theorem eval_retain (policy : StorePolicy) (protectedEntry : Option String) (t : Tables) :
    (retain policy protectedEntry).eval t =
      if protectedEntry.getD "" = "" ∨
          (t.retained policy (protectedEntry.getD "")).hasEntry (protectedEntry.getD "") then
        .ok ((), t.retained policy (protectedEntry.getD ""))
      else .error (.notFound "Clipboard entry does not exist") := by
  generalize hid : protectedEntry.getD "" = id
  have hretain : (retain policy protectedEntry).eval t =
      (if id = "" then pure () else (summary id none >>= fun _ => pure ())).eval
        (t.retained policy id) := by
    simp only [retain, hid, Prog.eval_bind, eval_deleteWhere, List.forM_eq_forM, List.forM_cons,
      List.forM_nil, Prog.eval_pure]
    rfl
  rw [hretain]
  split
  next hempty => rw [if_pos (.inl hempty), Prog.eval_pure]
  next hne =>
    rw [Prog.eval_bind, eval_summary_none, ← findEntry_isSome]
    cases findEntry id (t.retained policy id) <;> simp [hne]

theorem retain_ok_iff {policy : StorePolicy} {protectedEntry : Option String} {t : Tables}
    {r : Unit × Tables} : (retain policy protectedEntry).eval t = .ok r ↔
      r.2 = t.retained policy (protectedEntry.getD "") ∧
        (protectedEntry.getD "" = "" ∨ r.2.hasEntry (protectedEntry.getD "") = true) := by
  rw [eval_retain]
  split
  next hstays =>
    constructor
    · intro hr
      rw [← Except.ok.inj hr]
      exact ⟨rfl, hstays⟩
    · rintro ⟨hr, -⟩
      rw [← hr]
  next hgone =>
    constructor
    · rintro ⟨⟩
    · rintro ⟨hr, hstays⟩
      exact absurd (hr ▸ hstays) hgone

/-- Retention leaves a preferred selection.  The limits hold, what is evicted for a limit is
older than what stays, and favorites go last.  It leaves alone what is within the limits, so it
is idempotent.  Without a protected entry it succeeds; with one, it succeeds exactly when the
entry has a place in its category and fits into the byte budget, and the entry stays. -/
theorem retain_preferred (policy : StorePolicy) (protectedEntry : Option String) {t : Tables}
    (hkeys : Keyed t) :
    (∀ r, (retain policy protectedEntry).eval t = .ok r →
      Preferred policy (protectedEntry.getD "") t r.2 ∧
      (retain policy protectedEntry).eval r.2 = .ok r ∧
      ∀ id, protectedEntry = some id → id ≠ "" → r.2.hasEntry id = true) ∧
    (Fits policy (protectedEntry.getD "") t.entries →
      (∀ id, protectedEntry = some id → t.hasEntry id = true) →
      (retain policy protectedEntry).eval t = .ok ((), t)) ∧
    (protectedEntry = none → ∃ r, (retain policy protectedEntry).eval t = .ok r) ∧
    ∀ e ∈ t.entries, protectedEntry = some e.id →
      ((∃ r, (retain policy protectedEntry).eval t = .ok r) ↔
        1 ≤ policy.capacity e.favorite ∧ e.byteSize ≤ policy.maxTotalBytes) := by
  refine ⟨fun r hr => ?_, fun hfits hpresent => ?_, ?_, fun e he hprotected => ?_⟩
  · obtain ⟨ht', hstays⟩ := retain_ok_iff.mp hr
    refine ⟨ht' ▸ preferred_retained hkeys, ?_, fun id hid hne => ?_⟩
    · have hfits : Fits policy (protectedEntry.getD "") r.2.entries := ht' ▸ fits_retained hkeys
      exact retain_ok_iff.mpr ⟨(retained_of_fits hfits).symm, hstays⟩
    · subst hid
      exact hstays.resolve_left hne
  · refine retain_ok_iff.mpr ⟨(retained_of_fits hfits).symm, ?_⟩
    cases protectedEntry with
    | none => exact .inl rfl
    | some id => exact .inr (hpresent id rfl)
  · rintro rfl
    exact ⟨((), _), retain_ok_iff.mpr ⟨rfl, .inl rfl⟩⟩
  · subst hprotected
    rw [← hasEntry_retained hkeys he rfl]
    constructor
    · rintro ⟨r, hr⟩
      obtain ⟨ht', hstays⟩ := retain_ok_iff.mp hr
      exact ht' ▸ hstays.resolve_left (hkeys.named e he)
    · exact fun hin => ⟨((), _), retain_ok_iff.mpr ⟨rfl, .inr hin⟩⟩

/-- An old favorite and two texts of three bytes, where there is room for six. -/
def threeEntries : Tables :=
  { Tables.fresh with
    entries := [("a", true), ("b", false), ("c", false)].mapIdx fun i (id, favorite) =>
      { id, revision := i + 1, favorite, recency := i + 1, mime := "text/plain"
        resolvedMime := "text/plain", echoSourceId := none, byteSize := 3
        digest := List.replicate 32 0, preview := id, kind := .text } }

theorem retain_preferred_three :
    let policy := { StorePolicy.default with maxTotalBytes := 6 }
    Preferred policy "c" threeEntries (threeEntries.retained policy "c") ∧
      (threeEntries.retained policy "c").entries.map (·.id) = ["a", "c"] := by
  have hkeys : Keyed threeEntries := ⟨by decide, by decide⟩
  have hids : (threeEntries.retained { StorePolicy.default with maxTotalBytes := 6 }
      "c").entries.map (·.id) = ["a", "c"] := by decide +kernel
  have hsuccess := (retain_preferred { StorePolicy.default with maxTotalBytes := 6 } (some "c")
    hkeys).2.2.2 (threeEntries.entries.getLast (by decide)) (by decide) (by decide)
  obtain ⟨r, hr⟩ := hsuccess.mpr (by decide)
  obtain ⟨hpreferred, -⟩ := (retain_preferred _ (some "c") hkeys).1 r hr
  rw [(retain_ok_iff.mp hr).1] at hpreferred
  exact ⟨hpreferred, hids⟩

end Database

end ClipDaemon
