import ClipDaemon.Api.Edits
import ClipDaemon.Selection
import ClipDaemon.Store.Echo
import Mathlib.Data.List.TakeWhile

/-!
# Copying an entry

An entry is copied by publishing its content (`history/mutation.rs`): an inline image under
the type its bytes show, a local image file by its bytes, and everything else under its
stored type.

The bytes are looked at before the stored type is, so a text is published as text only when
the image reader recognizes nothing in its first bytes (`plain_text_kept`).
-/

namespace ClipDaemon

def MAX_DETAILS_BYTES : Nat := 256 * 1024
def MAX_THUMBNAIL_BYTES : Nat := 32 * 1024 * 1024

/-- The dimensions that are shown. -/
def ResolvedContent.imageMetadata (c : ResolvedContent) : Option ImageMetadata :=
  match c.image with
  | some (.inline _ dimensions) => dimensions
  | some (.localFile source) => some source.dimensions
  | none => none

/-- What a client is shown of an entry. -/
def entryDetails (P : Platform) (W : World) (stored : Database.StoredEntry) (maxTextBytes : Nat) :
    EntryDetails :=
  let limit := min maxTextBytes MAX_DETAILS_BYTES
  let bytes := stored.bytes.take limit
  let content := ResolvedContent.resolve P W stored.mime bytes MAX_THUMBNAIL_BYTES
  { text := fromUtf8 bytes, image := content.imageMetadata, files := content.files.take MAX_FILES
    previewTruncated := limit < stored.bytes.length, entry := stored.summary }

/-- Publish a payload that was stored with a kind and a type. -/
def publishEntry (P : Platform) (W : World) (kind : EntryKind) (mime : String) (bytes : Bytes)
    (maxBytes : Nat) : BackendResult Publication :=
  let content := ResolvedContent.resolve P W mime bytes (effectiveLimit maxBytes)
  if kind = .image ∧ content.kind ≠ .image then
    .error (invalidData
      "Clipboard image file is missing, unsafe, invalid, or exceeds the size limit")
  else
    match content.localImage with
    | some source => SelectionService.publishFile W source.mime source.path maxBytes
    | none => SelectionService.publish content.mime bytes maxBytes

/-- Copy an entry of committed tables (`restore_entry`). -/
def restoreEntry (P : Platform) (W : World) (id : String) (expected : Option Nat) (maxBytes : Nat)
    (t : Tables) : BackendResult Publication := do
  let (stored, _) ← (Database.get id expected).eval t
  validateSize stored.bytes.length maxBytes
  publishEntry P W stored.summary.kind stored.mime stored.bytes maxBytes

/-! ## Plain text -/

section PlainText

variable {P : Platform} {W : World} {mime : String} {bytes : Bytes} {limit : Nat}

/-- A letter of a type's name, in either case, is neither a separator nor white space. -/
theorem plain_char {c : Char} (h : c.toLower ∈ "text/plain".toList) :
    c ≠ ';' ∧ isWhitespace c = false := by
  by_cases hupper : c.val ≥ 'A'.val ∧ c.val ≤ 'Z'.val
  · have hlow : 65 ≤ c.toNat := UInt32.le_iff_toNat_le.mp hupper.1
    have hhigh : c.toNat ≤ 90 := UInt32.le_iff_toNat_le.mp hupper.2
    constructor
    · rintro rfl
      simp at hlow
    · simp only [isWhitespace, Bool.or_eq_false_iff, Bool.and_eq_false_iff, decide_eq_false_iff_not,
        beq_eq_false_iff_ne]
      omega
  · unfold Char.toLower at h
    rw [dif_neg hupper] at h
    have hletters : ("text/plain".toList.all fun c => c ≠ ';' && !isWhitespace c) = true := by
      decide
    simpa using List.all_eq_true.mp hletters c h

theorem trim_of_no_whitespace {s : String} (h : ∀ c ∈ s.toList, isWhitespace c = false) :
    trim s = s := by
  have hdrop (cs : List Char) (hcs : ∀ c ∈ cs, isWhitespace c = false) :
      cs.dropWhile isWhitespace = cs := by
    cases cs with
    | nil => rfl
    | cons c cs => simp [hcs c (List.mem_cons_self ..)]
  rw [trim, hdrop s.toList h, hdrop s.toList.reverse fun c hc => h c (List.mem_reverse.mp hc),
    List.reverse_reverse, String.ofList_toList]

/-- A type whose essence is `text/plain` has that essence for its canonical form, and again
for the essence of the latter. -/
theorem canonicalMime_plain (h : toAsciiLowercase (trim (mimeEssence mime)) = "text/plain") :
    canonicalMime mime = trim (mimeEssence mime) ∧
      trim (mimeEssence (canonicalMime mime)) = trim (mimeEssence mime) := by
  generalize hessence : trim (mimeEssence mime) = essence at h
  have hcanonical : canonicalMime mime = essence := by
    have hnone : (mimeAliases.find? fun a => eqIgnoreAsciiCase essence a.1) = none := by
      rw [List.find?_eq_none]
      intro a ha
      rw [eqIgnoreAsciiCase, h]
      revert a
      decide
    rw [canonicalMime, hessence, hnone]
    rfl
  have hchars : ∀ c ∈ essence.toList, c ≠ ';' ∧ isWhitespace c = false := by
    intro c hc
    refine plain_char ?_
    rw [← h, toAsciiLowercase, String.toList_ofList]
    exact List.mem_map_of_mem hc
  have hagain : mimeEssence essence = essence := by
    rw [mimeEssence, List.takeWhile_eq_self_iff.mpr ?_, String.ofList_toList]
    intro c hc
    simpa using (hchars c hc).1
  refine ⟨hcanonical, ?_⟩
  rw [hcanonical, hagain]
  exact trim_of_no_whitespace fun c hc => (hchars c hc).2

/-- Plain text that no image format claims is no inline image.  Without a local image it is
what its text looks like, under its stored type. -/
theorem resolve_plain (hmime : toAsciiLowercase (trim (mimeEssence mime)) = "text/plain")
    (hguess : P.guessFormat bytes = none) :
    let content := ResolvedContent.resolve P W mime bytes limit
    (∀ detected dimensions, content.image ≠ some (.inline detected dimensions)) ∧
    match content.localImage with
    | some source => content.kind = .image ∧ content.mime = source.mime
    | none => content.kind = semanticTextKind P (bytes.take INSPECTION_LIMIT) ∧
        content.mime = mime := by
  have hstored : storedMimeOr mime = mime := by
    rw [storedMimeOr, if_neg]
    rintro rfl
    revert hmime
    decide
  obtain ⟨-, hessence⟩ := canonicalMime_plain hmime
  have hclassify : classify P (canonicalMime mime) bytes =
      semanticTextKind P (bytes.take INSPECTION_LIMIT) := by
    rw [classify, hessence, authoritativeKind, hmime]
    rfl
  simp only [ResolvedContent.resolve, hguess, hstored]
  split
  · simp [ResolvedContent.localImage, ResolvedContent.mime]
  · simp [ResolvedContent.localImage, ResolvedContent.mime, hclassify]

theorem semanticTextKind_editable (h : (fromUtf8 bytes).isSome = true) :
    (semanticTextKind P bytes).editable = true := by
  obtain ⟨text, htext⟩ := Option.isSome_iff_exists.mp h
  rw [semanticTextKind, htext]
  dsimp only
  split
  · rfl
  · split
    · rfl
    · split <;> rfl

end PlainText

/-- Publishing content that is no local image offers the payload under its type. -/
theorem publishEntry_ok {P : Platform} {W : World} {kind : EntryKind} {mime : String}
    {bytes : Bytes}
    {maxBytes : Nat} {p : Publication}
    (hlocal : (ResolvedContent.resolve P W mime bytes (effectiveLimit maxBytes)).localImage = none)
    (h : publishEntry P W kind mime bytes maxBytes = .ok p) :
    let published := (ResolvedContent.resolve P W mime bytes (effectiveLimit maxBytes)).mime
    validateMime published = .ok () ∧
      p = ⟨published, !supportsTextAliases published bytes, bytes⟩ := by
  simp only [publishEntry, hlocal] at h
  split at h
  · cases h
  · exact publish_ok h

/-- Plain text stays text when no image format claims its first bytes.  It is no inline
image.  Without a local image it is what its text looks like, it is published under its
stored type, and it is editable up to the limit of an edit as far as it is inspected; with
one it is that image. -/
theorem plain_text_kept (P : Platform) (W : World) (mime text : String) (bytes : Bytes)
    (limit : Nat) (hmime : toAsciiLowercase (trim (mimeEssence mime)) = "text/plain")
    (htext : fromUtf8 bytes = some text) (hguess : P.guessFormat bytes = none) :
    let content := ResolvedContent.resolve P W mime bytes limit
    (∀ detected dimensions, content.image ≠ some (.inline detected dimensions)) ∧
    (match content.localImage with
      | some source => content.kind = .image ∧ content.mime = source.mime
      | none => content.kind = semanticTextKind P (bytes.take INSPECTION_LIMIT) ∧
          content.mime = mime) ∧
    (∀ kind maxBytes p,
      (ResolvedContent.resolve P W mime bytes (effectiveLimit maxBytes)).localImage = none →
      publishEntry P W kind mime bytes maxBytes = .ok p → p.mime = mime ∧ p.bytes = bytes) ∧
    ∀ stored : Database.StoredEntry, stored.bytes = bytes → stored.summary.kind = content.kind →
      content.localImage = none → (fromUtf8 (bytes.take INSPECTION_LIMIT)).isSome = true →
      bytes.length ≤ MAX_EDIT_BYTES → byteLen text ≤ MAX_EDIT_BYTES →
      editableValue (entryDetails P W stored MAX_EDIT_BYTES) = .ok text := by
  intro content
  obtain ⟨hinline, hplain⟩ := resolve_plain (P := P) (W := W) hmime hguess
  refine ⟨hinline, hplain, fun kind maxBytes p hlocal hpublish => ?_,
    fun stored hbytes hkind hlocal hinspected hlength htextLength => ?_⟩
  · obtain ⟨-, hat⟩ := resolve_plain (P := P) (W := W) hmime hguess
    rw [hlocal] at hat
    obtain ⟨-, rfl⟩ := publishEntry_ok hlocal hpublish
    exact ⟨hat.2, rfl⟩
  · rw [hlocal] at hplain
    have heditable : stored.summary.kind.editable = true := by
      rw [hkind, hplain.1]
      exact semanticTextKind_editable hinspected
    have hlimit : min MAX_EDIT_BYTES MAX_DETAILS_BYTES = MAX_EDIT_BYTES := rfl
    have hshort : ¬ MAX_EDIT_BYTES < bytes.length := by omega
    simp only [editableValue, entryDetails, hlimit, hbytes, hshort, heditable,
      List.take_of_length_le hlength, htext, htextLength]
    rfl

/-- A platform that knows bitmaps by their first two bytes too. -/
def Platform.signatures : Platform :=
  { Platform.png with
    guessFormat bytes :=
      if bytes.take 2 = asBytes "BM" then some "image/bmp" else Platform.png.guessFormat bytes }

theorem plain_text_kept_hello :
    (ResolvedContent.resolve .signatures .empty "text/plain" (asBytes "hello") 1024).mime =
      "text/plain" := by
  obtain ⟨-, hplain, -, -⟩ := plain_text_kept .signatures .empty "text/plain" "hello"
    (asBytes "hello")
    1024 (by decide +kernel) (by decide +kernel) (by decide +kernel)
  have hlocal : (ResolvedContent.resolve .signatures .empty "text/plain" (asBytes "hello")
      1024).localImage = none := by decide +kernel
  rw [hlocal] at hplain
  exact hplain.2

/-- The text of a URI that names an image file is that image, and a text that begins like a
bitmap is one. -/
theorem text_shown_as_image :
    (fromUtf8 (asBytes "file:///p.png") = some "file:///p.png" ∧
      let content := ResolvedContent.resolve .signatures .generated "text/plain"
        (asBytes "file:///p.png") 1024
      content.kind = .image ∧ content.mime = "image/png") ∧
    fromUtf8 (asBytes "BMW") = some "BMW" ∧
      (ResolvedContent.resolve .signatures .empty "text/plain" (asBytes "BMW") 1024).image =
        some (.inline "image/bmp" none) := by
  decide +kernel

end ClipDaemon
