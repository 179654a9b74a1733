import ClipDaemon.Content

/-!
# Publishing a selection

What the daemon puts on the Wayland clipboard, and under which MIME types
(`selection.rs`).  A publisher owns the selection until another client takes it; the
payload is the same under every type it advertises.
-/

namespace ClipDaemon

/-- The types a publisher adds to a plain text, unless told to omit them. -/
def additionalTextTypes : List String :=
  ["text/plain;charset=utf-8", "text/plain", "STRING", "UTF8_STRING", "TEXT"]

/-- A selection on the clipboard: the type it was published under, whether the additional
text types were omitted, and the payload. -/
structure Publication where
  mime : String
  omitTextAliases : Bool
  bytes : Bytes
deriving DecidableEq

/-- The types a selection is offered under. -/
def Publication.mimes (p : Publication) : List String :=
  p.mime :: if p.omitTextAliases then [] else additionalTextTypes

/-- UTF-8 plain text is offered under its other names too. -/
def supportsTextAliases (mime : String) (bytes : Bytes) : Bool :=
  (mime == "text/plain" || mime == "text/plain;charset=utf-8") && (fromUtf8 bytes).isSome

/-! ## Validation -/

/-- Visible ASCII, and not too long. -/
def validMimeAscii (mime : String) : Bool :=
  mime ≠ "" && byteLen mime ≤ 255 && mime.toList.all fun c => 0x20 ≤ c.toNat && c.toNat < 0x7F

/-- A name as it may stand in a type. -/
def validMimeToken (value : List Char) : Bool :=
  value ≠ [] && value.all fun c => c.isAlphanum || c ∈ ['!', '#', '$', '&', '^', '_', '.', '+', '-']

/-- A type and a subtype. -/
def validMimeEssence (mime : String) : Bool :=
  match splitChars (· == '/') (trim (mimeEssence mime)).toList with
  | [type, subtype] => validMimeToken type && validMimeToken subtype
  | _ => false

/-- A type that may be offered. -/
def validateMime (mime : String) : BackendResult Unit :=
  if validMimeAscii mime && validMimeEssence mime then .ok ()
  else .error (invalidData "Clipboard MIME type is invalid for Wayland publishing")

/-- A sensitive text, and the seconds after which it expires (never, if zero). -/
def validateSensitive (bytes : Bytes) (seconds : Nat) : Except String Unit :=
  if !(1 ≤ bytes.length && bytes.length ≤ 256) || (fromUtf8 bytes).isNone ||
      (seconds ≠ 0 && !(10 ≤ seconds && seconds ≤ 300)) then
    .error "Sensitive text must be 1–256 UTF-8 bytes; expiry must be 0 or 10–300 seconds"
  else .ok ()

/-! ## Publishing -/

namespace SelectionService

/-- What the compositor is asked to offer; it may refuse. -/
def publish (mime : String) (bytes : Bytes) (configuredLimit : Nat) :
    BackendResult Publication := do
  validateMime mime
  validateSize bytes.length configuredLimit
  pure ⟨mime, !supportsTextAliases mime bytes, bytes⟩

/-- The file is read and published under its type. -/
def publishFile (W : World) (mime : String) (path : FilePath) (configuredLimit : Nat) :
    BackendResult Publication := do
  validateMime mime
  let bytes ← readPath W path configuredLimit
  pure ⟨mime, !supportsTextAliases mime bytes, bytes⟩

end SelectionService

theorem publish_ok {mime : String} {bytes : Bytes} {limit : Nat} {p : Publication}
    (h : SelectionService.publish mime bytes limit = .ok p) :
    validateMime mime = .ok () ∧ p = ⟨mime, !supportsTextAliases mime bytes, bytes⟩ := by
  simp only [SelectionService.publish] at h
  cases hmime : validateMime mime with
  | error error =>
      rw [hmime] at h
      cases h
  | ok _ =>
      rw [hmime] at h
      cases hsize : validateSize bytes.length limit with
      | error error =>
          rw [hsize] at h
          cases h
      | ok _ =>
          rw [hsize] at h
          exact ⟨rfl, (Except.ok.inj h).symm⟩

end ClipDaemon
