import ClipDaemon.Capture.Ingest
import ClipDaemon.Capture.Policy
import ClipDaemon.History.Publish
import ClipDaemon.Store.Insertion

/-!
# Copying an entry and capturing the copy

Copying an entry publishes its content, and the daemon captures its own publication like
any other selection: it chooses a type among those offered, receives the payload and
inserts it.  The insertion finds the copied entry again when the type it arrives with is
the one the entry was stored under.

Two things on the way change the type: an inline image is published under the type its
bytes show, and text published as `text/plain;charset=utf-8` is also offered, and then
asked for, as `text/plain`.  `copy_deduplicates_iff` says these are the only ones.
-/

namespace ClipDaemon

open Capture

/-! ## Capturing a publication -/

/-- The type a capture ends with when every type brings the same payload: a blank payload
is asked for again under the next type. -/
def capturePayload (bytes : Bytes) : Nat → OfferedMimes → Option String
  | 0, _ => none
  | fuel + 1, m =>
      match m.next with
      | none => none
      | some (mime, rest) =>
          if bytes.all isAsciiWhitespace then capturePayload bytes fuel rest else some mime

/-- The type a payload is captured under when it is offered under some types.  There are
six choices. -/
def captured (offers : List String) (bytes : Bytes) : Option String :=
  capturePayload bytes 7 (OfferedMimes.ofOffers offers)

theorem capturePayload_some {bytes : Bytes} {fuel : Nat} {m : OfferedMimes} {mime : String}
    (h : capturePayload bytes fuel m = some mime) :
    ∃ rest, m.next = some (mime, rest) := by
  induction fuel generalizing m with
  | zero => cases h
  | succ fuel ih =>
      rw [capturePayload] at h
      cases hnext : m.next with
      | none =>
          rw [hnext] at h
          cases h
      | some choice =>
          obtain ⟨first, rest⟩ := choice
          rw [hnext] at h
          dsimp only at h
          split at h
          next hblank =>
            -- the rest brings the same blank payload
            have hnone : ∀ fuel m, capturePayload bytes fuel m = none := by
              intro fuel
              induction fuel with
              | zero => exact fun _ => rfl
              | succ fuel ih =>
                  intro m
                  rw [capturePayload]
                  cases m.next with
                  | none => rfl
                  | some choice => simp [hblank, ih]
            rw [hnone] at h
            cases h
          · cases h
            exact ⟨rest, rfl⟩

/-- The type under which a publication arrives in the store. -/
def storedAgain (p : Publication) : String := if p.omitTextAliases then p.mime else "text/plain"

/-- A type that may be published is not one of the bare names of text. -/
theorem captureMime_of_valid {mime : String} (h : validateMime mime = .ok ()) :
    captureMime mime = mime := by
  rw [captureMime, if_neg]
  rintro (rfl | rfl | rfl) <;> revert h <;> decide

/-- The bare names of text are stored as plain text. -/
theorem captureMime_of_bare :
    ∀ mime ∈ ["text/plain", "STRING", "UTF8_STRING", "TEXT"], captureMime mime = "text/plain" := by
  decide

/-- A captured publication is stored under its own type, or as plain text when it was
offered under the names of plain text. -/
theorem captureMime_captured {p : Publication} {offers : List String} {mime : String}
    (hvalid : validateMime p.mime = .ok ())
    (haliases : p.omitTextAliases = !supportsTextAliases p.mime p.bytes)
    (hoffers : ∀ x, x ∈ offers ↔ x ∈ p.mimes) (h : captured offers p.bytes = some mime) :
    captureMime mime = storedAgain p := by
  obtain ⟨rest, hnext⟩ := capturePayload_some h
  obtain ⟨hmem, r, hrank, hparameters⟩ := OfferedMimes.next_ofOffers hnext
  rw [hoffers] at hmem
  cases homit : p.omitTextAliases with
  | true =>
      have hmime : mime = p.mime := by simpa [Publication.mimes, homit] using hmem
      rw [hmime, captureMime_of_valid hvalid, storedAgain, if_pos homit]
  | false =>
      rw [storedAgain, homit]
      have htype : p.mime = "text/plain" ∨ p.mime = "text/plain;charset=utf-8" := by
        have hsupports : supportsTextAliases p.mime p.bytes = true := by
          simpa [homit] using haliases
        simp only [supportsTextAliases, Bool.and_eq_true, Bool.or_eq_true, beq_iff_eq] at hsupports
        exact hsupports.1
      have hplain : "text/plain" ∈ offers :=
        (hoffers _).mpr (by simp [Publication.mimes, homit, additionalTextTypes])
      have hbare : mime ≠ "text/plain;charset=utf-8" := by
        rintro rfl
        have hrank₀ : OfferedMimes.rank "text/plain;charset=utf-8" = some 0 := by decide
        cases hrank₀.symm.trans hrank
        exact absurd (hparameters (by decide) _ hplain (by decide)) (by decide)
      have hnames : mime ∈ ["text/plain", "STRING", "UTF8_STRING", "TEXT"] := by
        simp only [Publication.mimes, homit, additionalTextTypes, List.mem_cons] at hmem ⊢
        rcases htype with htype | htype <;> simp_all
      exact captureMime_of_bare mime hnames

/-! ## Reading the copied entry -/

section Stored

variable {P : Platform} {t : Tables}

/-- Reading an entry gives its row and its payload. -/
theorem get_ok {id : String} {expected : Option Nat} {r : Database.StoredEntry × Tables}
    (h : (Database.get id expected).eval t = .ok r) :
    ∃ e, Database.findEntry id t = some e ∧
      r = (⟨Database.decodeSummary t e, e.mime, t.bytesOf id⟩, t) := by
  rw [Database.get] at h
  obtain ⟨summary, t₁, hsummary, h⟩ := Prog.eval_bind_ok.mp h
  obtain ⟨e, he, -, hst⟩ := Database.summary_ok.mp hsummary
  cases hst
  simp only [Prog.eval_bind, eval_rows, he, Option.map_some] at h
  cases hpayload : t.payloads.find? fun p => p.entryId = id with
  | none =>
      rw [hpayload] at h
      cases h
  | some p =>
      simp only [hpayload, Option.bind_some] at h
      split at h
      · cases h
      · refine ⟨e, he, ?_⟩
        have hbytes : t.bytesOf id = p.bytes := by
          rw [Tables.bytesOf, Tables.payloadOf, List.head?_filter, hpayload]
          rfl
        rw [hbytes]
        exact (Except.ok.inj h).symm

/-- A promotion keeps the entries. -/
theorem kept_promoted (id : String) : Kept t (t.promoted id) := by
  have hcounted : Kept t t.bumped.sequenced := .of_same rfl rfl
  exact hcounted.trans (kept_mapEntries (t := t.bumped.sequenced) fun _ => ⟨rfl, rfl⟩)

end Stored

/-! ## What an insertion finds again -/

/-- An insertion made no new entry, ended at an entry with the type and the payload of
`e`, and did nothing at all if `e` was current. -/
structure Deduplicates (t t' : Tables) (e : EntryRow) (summary : EntrySummary) : Prop where
  noNew : ∀ e' ∈ t'.entries, ∃ e₀ ∈ t.entries, e₀.id = e'.id
  found : ∃ e₀ ∈ t.entries, e₀.id = summary.id ∧ e₀.mime = e.mime ∧ t.bytesOf e₀.id = t.bytesOf e.id
  current : e.recency = Database.maxRecency t → t' = t

/-- The payload of an entry finds it again exactly when it arrives under its type. -/
theorem insert_deduplicates_iff {P : Platform} {env : Env} {t t' : Tables} (h : WellFormed P t)
    {e : EntryRow} (he : e ∈ t.entries) {mime : String} {summary : EntrySummary}
    (hinsert : (Request.insert mime (t.bytesOf e.id)).effect P env t = .ok (.entry summary, t')) :
    Deduplicates t t' e summary ↔ mime = e.mime := by
  obtain ⟨_, hreply, hinsert⟩ := Request.entry_ok hinsert
  cases hreply
  obtain ⟨-, -, -, hcases⟩ := Database.insert_ok hinsert
  -- the entry an insertion ends at has the type inserted
  have hdistinct {id : String} (hduplicate : Database.duplicate P mime (t.bytesOf e.id) t = some id)
      (hid : summary.id = id) (hfound : ∃ e₀ ∈ t.entries, e₀.id = summary.id ∧ e₀.mime = e.mime ∧
        t.bytesOf e₀.id = t.bytesOf e.id) : mime = e.mime := by
    obtain ⟨e₁, he₁, hid₁, hmime₁, -⟩ := duplicate_some hduplicate
    obtain ⟨e₀, he₀, hid₀, hmime₀, -⟩ := hfound
    have hsame := List.inj_on_of_nodup_map h.stamped.ids he₀ he₁ (by rw [hid₀, hid, hid₁])
    rw [← hmime₁, ← hmime₀, hsame]
  constructor
  · intro hdedup
    rcases hcases with ⟨id, e₁, hduplicate, hfind, -, hr⟩ | ⟨-, -, id, e₁, hfind, hsummary, hr⟩
    · cases hr
      exact hdistinct hduplicate (Database.findEntry_some hfind).2 hdedup.found
    · have hid : summary.id = id := by
        have hsummary : summary = _ := hsummary
        rw [hsummary]
        exact (Database.findEntry_some hfind).2
      rcases hr with ⟨hduplicate, -⟩ | ⟨-, -, -, hfresh, -⟩
      · exact hdistinct hduplicate hid hdedup.found
      · obtain ⟨e₀, he₀, hid₀, -⟩ := hdedup.found
        rw [hid] at hid₀
        have hentry := hasEntry_iff.mpr ⟨e₀, he₀, hid₀⟩
        rw [hfresh] at hentry
        cases hentry
  · rintro rfl
    obtain ⟨id, hduplicate, hown⟩ := duplicate_of_stored h he
    obtain ⟨e₁, he₁, hid₁, hmime₁, hpayload⟩ := duplicate_some hduplicate
    have hfound : ∀ summary : EntrySummary, summary.id = id → ∃ e₀ ∈ t.entries,
        e₀.id = summary.id ∧ e₀.mime = e.mime ∧ t.bytesOf e₀.id = t.bytesOf e.id :=
      fun summary hid => ⟨e₁, he₁, hid₁.trans hid.symm, hmime₁, bytesOf_of_mem h he₁ hpayload⟩
    have hcurrent : e.recency = Database.maxRecency t → t' = t := fun hmax =>
      insert_current (hown hmax ▸ hduplicate) (findEntry_of_mem h.stamped he) hmax hinsert
    rcases hcases with ⟨id', e', hduplicate', hfind, -, hr⟩ | ⟨-, -, id', e', hfind, hsummary, hr⟩
    · cases hr
      rw [hduplicate] at hduplicate'
      cases hduplicate'
      exact ⟨fun e' he' => ⟨e', he', rfl⟩, hfound _ (Database.findEntry_some hfind).2, hcurrent⟩
    · rcases hr with ⟨hduplicate', hr⟩ | ⟨hnone, -⟩
      · rw [hduplicate] at hduplicate'
        cases hduplicate'
        have hid : summary.id = id := by
          have hsummary : summary = _ := hsummary
          rw [hsummary]
          exact (Database.findEntry_some hfind).2
        have hkept : Kept t t' := by
          have hr : t' = (t.promoted id).retained t.effectivePolicy id := hr
          rw [hr]
          exact (kept_promoted id).trans (kept_retained _ _)
        refine ⟨fun e' he' => ?_, hfound _ hid, hcurrent⟩
        obtain ⟨e₀, he₀, hid₀, -⟩ := hkept.entries e' he'
        exact ⟨e₀, he₀, hid₀⟩
      · rw [hduplicate] at hnone
        cases hnone

/-! ## The round trip -/

/-- No image format is named like plain text. -/
def Platform.FormatsAreNotText (P : Platform) : Prop :=
  ∀ bytes detected, P.guessFormat bytes = some detected → detected ≠ "text/plain;charset=utf-8"

/-- The type of an entry is the one its content is published under, and it is not the type
of text that is also offered as `text/plain`. -/
def RoundTrips (P : Platform) (mime : String) (bytes : Bytes) : Prop :=
  (match P.guessFormat bytes with
    | some detected => detected = mime
    | none => mime ≠ "") ∧
  ¬ (mime = "text/plain;charset=utf-8" ∧ (fromUtf8 bytes).isSome = true)

/-- A publication under the stored type comes back under it, unless it is also offered as
plain text. -/
theorem storedAgain_eq (mime : String) (bytes : Bytes) :
    storedAgain ⟨mime, !supportsTextAliases mime bytes, bytes⟩ =
      if mime = "text/plain;charset=utf-8" ∧ (fromUtf8 bytes).isSome = true then "text/plain"
      else mime := by
  by_cases hplain : mime = "text/plain"
  · subst hplain
    simp [storedAgain]
  · by_cases hcharset : mime = "text/plain;charset=utf-8"
    · subst hcharset
      cases hutf8 : (fromUtf8 bytes).isSome <;> simp [storedAgain, supportsTextAliases, hutf8]
    · simp [storedAgain, supportsTextAliases, hplain, hcharset]

/-- What is published comes back under the stored type exactly when the type makes the
round trip. -/
theorem storedAgain_iff {P : Platform} (hformats : P.FormatsAreNotText) {W : World} {mime : String}
    {bytes : Bytes} {limit : Nat}
    (hlocal : (ResolvedContent.resolve P W mime bytes limit).localImage = none) :
    let published := (ResolvedContent.resolve P W mime bytes limit).mime
    storedAgain ⟨published, !supportsTextAliases published bytes, bytes⟩ = mime ↔
      RoundTrips P mime bytes := by
  intro published
  rw [storedAgain_eq]
  cases hguess : P.guessFormat bytes with
  | some detected =>
      have hpublished : published = detected := ResolvedContent.mime_of_guessFormat hguess
      have hnot := hformats bytes detected hguess
      simp only [RoundTrips, hguess, hpublished, hnot, false_and, if_false]
      constructor
      · rintro rfl
        exact ⟨rfl, fun h => hnot h.1⟩
      · exact fun h => h.1
  | none =>
      have hpublished : published = storedMimeOr mime := ResolvedContent.mime_of_plain hguess hlocal
      simp only [RoundTrips, hguess, hpublished, storedMimeOr]
      by_cases hempty : mime = ""
      · subst hempty
        simp
      · simp only [hempty, if_false, ne_eq, not_false_eq_true, true_and]
        split
        next h => simp [h]
        next h => simp [h]

/-- Copying an entry finds it again.  The daemon copies an entry that is no local image
file, is offered its own publication in any order, asks for a type and receives the
payload.  It then stores nothing, or inserts the payload once, and the insertion
deduplicates to the entry, or to one with its type and payload, exactly when the type of
the entry makes the round trip. -/
theorem copy_deduplicates_iff (P : Platform) (hformats : P.FormatsAreNotText)
    (ops : List DatabaseOp) (W : World) (e : EntryRow) (expected : Option Nat) (maxBytes : Nat)
    (p : Publication) (offers : List String) (mime : String) (call : IngestCall)
    (he : e ∈ (Store.fresh.after P ops).committed.entries)
    (hlocal : (ResolvedContent.resolve P W e.mime ((Store.fresh.after P ops).committed.bytesOf e.id)
      (effectiveLimit maxBytes)).localImage = none)
    (hcopy : restoreEntry P W e.id expected maxBytes (Store.fresh.after P ops).committed = .ok p)
    (hoffers : ∀ x, x ∈ offers ↔ x ∈ p.mimes) (hcaptured : captured offers p.bytes = some mime)
    (hfile : ∀ access, call.file.content access = p.bytes) :
    let s := Store.fresh.after P ops
    let s' := (ingest P call mime s).2
    (s'.committed = s.committed ∨ ∃ summary,
      (Request.insert (captureMime mime) p.bytes).effect P call.env s.committed =
        .ok (.entry summary, s'.committed)) ∧
    ∀ summary t', (Request.insert (captureMime mime) p.bytes).effect P call.env s.committed =
        .ok (.entry summary, t') →
      (Deduplicates s.committed t' e summary ↔ RoundTrips P e.mime (s.committed.bytesOf e.id)) := by
  intro s s'
  have hwell : WellFormed P s.committed := Store.after_wellFormed P ops
  -- what is published
  have hpublished : p.bytes = s.committed.bytesOf e.id ∧ captureMime mime = storedAgain p ∧
      (storedAgain p = e.mime ↔ RoundTrips P e.mime (s.committed.bytesOf e.id)) := by
    simp only [restoreEntry, bind, Except.bind] at hcopy
    split at hcopy
    · cases hcopy
    next stored hget =>
      obtain ⟨e', hfind, hstored⟩ := get_ok hget
      rw [findEntry_of_mem hwell.stamped he] at hfind
      cases hfind
      split at hcopy
      · cases hcopy
      · rw [hstored] at hcopy
        obtain ⟨hvalid, rfl⟩ := publishEntry_ok hlocal hcopy
        exact ⟨rfl, captureMime_captured hvalid rfl hoffers hcaptured,
          storedAgain_iff hformats hlocal⟩
  obtain ⟨hbytes, hmime, hround⟩ := hpublished
  refine ⟨?_, fun summary t' hinsert => ?_⟩
  · rcases ingest_store P call mime s with h | ⟨policy, bytes, hadmit, h⟩
    · exact .inl (congrArg Store.committed h)
    · obtain rfl := admitBytes_stream (hfile 0)
        (fun access => .inl (hfile access ▸ List.prefix_refl _))
        hadmit
      have hs' : s'.committed = _ := congrArg Store.committed h
      rw [hs']
      rcases Store.request_durable P s
          (.insert (captureMime mime) p.bytes) call.env call.faults with
        h | ⟨reply, h⟩
      · exact .inl h
      · obtain ⟨summary, rfl, -⟩ := Request.entry_ok h
        exact .inr ⟨summary, h⟩
  · rw [hbytes] at hinsert
    rw [insert_deduplicates_iff hwell he hinsert, hmime, hround]

/-- Opening admission and capturing a text under a type. -/
def captureText (mime : String) : List DatabaseOp :=
  [.request (.applyPolicy openPolicy) ⟨World.empty, "0"⟩ Faults.none,
    .request (.insert mime (asBytes "hi")) ⟨World.empty, "1"⟩ Faults.none]

/-- A call that finds the text in its file. -/
def textCall : IngestCall :=
  { overwrittenCall with file.content := fun _ => asBytes "hi", env := ⟨World.empty, "2"⟩ }

/-- A copied plain text is found again. -/
theorem copy_deduplicates_plain : ∃ e ∈
    (Store.fresh.after .plain (captureText "text/plain")).committed.entries,
    ∀ summary t', (Request.insert "text/plain" (asBytes "hi")).effect .plain textCall.env
        (Store.fresh.after .plain (captureText "text/plain")).committed = .ok (.entry summary, t') →
      Deduplicates
        (Store.fresh.after .plain (captureText "text/plain")).committed t' e summary := by
  have hentry : ∃ e ∈ (Store.fresh.after .plain (captureText "text/plain")).committed.entries,
      e.id = "entry-1" ∧ e.mime = "text/plain" := by decide +kernel
  obtain ⟨e, he, hid, hmime⟩ := hentry
  have hbytes : (Store.fresh.after .plain (captureText "text/plain")).committed.bytesOf e.id =
      asBytes "hi" := by
    rw [hid]
    decide +kernel
  have hlocal : (ResolvedContent.resolve .plain .empty "text/plain" (asBytes "hi")
      (effectiveLimit 1024)).localImage = none := by decide +kernel
  have hcopy : restoreEntry .plain .empty "entry-1" none 1024
      (Store.fresh.after .plain (captureText "text/plain")).committed =
        .ok ⟨"text/plain", false, asBytes "hi"⟩ := by rfl
  obtain ⟨-, hround⟩ := copy_deduplicates_iff .plain (fun _ _ h => nomatch h)
    (captureText "text/plain") .empty e none 1024 ⟨"text/plain", false, asBytes "hi"⟩
    ("text/plain" :: additionalTextTypes) "text/plain" textCall he
    (by rw [hmime, hbytes]; exact hlocal)
    (by rw [hid]; exact hcopy) (fun _ => Iff.rfl) (by decide +kernel) (fun _ => rfl)
  refine ⟨e, he, fun summary t' h => (hround summary t' h).mpr ?_⟩
  rw [hmime]
  exact ⟨(by decide : "text/plain" ≠ ""), fun h => absurd h.1 (by decide)⟩

/-- A text captured with its character set is stored a second time. -/
theorem copy_duplicated :
    let s := Store.fresh.after .plain (captureText "text/plain;charset=utf-8")
    ∃ p, restoreEntry .plain .empty "entry-1" none 1024 s.committed = .ok p ∧
      captured p.mimes p.bytes = some "text/plain" ∧ textCall.file.content 0 = p.bytes ∧
      s.committed.entries.map (·.mime) = ["text/plain;charset=utf-8"] ∧
      (ingest .plain textCall "text/plain" s).2.committed.entries.map (·.mime) =
        ["text/plain;charset=utf-8", "text/plain"] := by
  refine ⟨⟨"text/plain;charset=utf-8", false, asBytes "hi"⟩, by rfl, ?_⟩
  decide +kernel

end ClipDaemon
