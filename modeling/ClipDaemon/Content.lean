import Mathlib.Data.List.Dedup
import ClipDaemon.Backend

/-!
# What a payload is

Classification, previews, and the semantic reading of a stored payload: an inline image,
a selection of local files, one local image file, or plain content
(`classification.rs`, `history/content.rs`).

What the daemon takes from other crates is the parameter `Platform`: the image readers,
the URL parser, the JSON validator, SHA-256 and the full-text engine.  What it reads from
the file system during one operation is the parameter `World`.
-/

namespace ClipDaemon

/-- A file system path, as bytes. -/
abbrev FilePath := Bytes

/-- A parsed URL, given by its serialization. -/
structure Url where
  serialization : String
deriving DecidableEq

/-- The libraries the daemon computes with. -/
structure Platform where
  unicode : Unicode
  /-- The digest of a byte string. -/
  sha256 : Bytes → Bytes
  /-- The MIME type of the format guessed from the leading bytes (`image::guess_format`). -/
  guessFormat : Bytes → Option String
  /-- The MIME type of the format an `ImageReader` guesses. -/
  readerFormat : Bytes → Option String
  /-- The dimensions an `ImageReader` with the daemon's limits reports. -/
  intoDimensions : Bytes → Option ImageMetadata
  /-- `serde_json` accepts the text as a value. -/
  isJson : String → Bool
  /-- `Url::parse`. -/
  parseUrl : String → Option Url
  /-- `Url::to_file_path`. -/
  toFilePath : Url → Option FilePath
  /-- The last of `Url::path_segments`. -/
  lastPathSegment : Url → Option String
  /-- `fts_match`: does an indexed text satisfy a query? -/
  ftsMatch : String → String → Bool

/-- What `symlink_metadata` reports. -/
structure FileMetadata where
  isFile : Bool
  len : Nat
  dev : Nat
  ino : Nat
  uid : Nat
deriving DecidableEq

/-- The file system as one operation sees it. -/
structure World where
  symlinkMetadata : FilePath → Option FileMetadata
  pathExists : FilePath → Bool
  /-- Opening a path: the length its metadata reports and the bytes it yields. -/
  openFile : FilePath → Option (Nat × Bytes)

/-- The file system without files. -/
def World.empty : World where
  symlinkMetadata _ := none
  pathExists _ := false
  openFile _ := none

/-! ## MIME types -/

/-- The part of a MIME type before its parameters. -/
def mimeEssence (mime : String) : String := String.ofList (mime.toList.takeWhile (· ≠ ';'))

/-- Legacy spellings and the MIME type each stands for. -/
def mimeAliases : List (String × String) :=
  [("image/x-png", "image/png"), ("image/jpg", "image/jpeg"), ("image/pjpeg", "image/jpeg"),
    ("application/x-gnome-copied-files", "x-special/gnome-copied-files"),
    ("text/x-uri", "text/uri-list"), ("text/x-uri-list", "text/uri-list")]

/-- The canonical name of a type. -/
def canonicalMime (mime : String) : String :=
  let essence := trim (mimeEssence mime)
  ((mimeAliases.find? fun a => eqIgnoreAsciiCase essence a.1).map (·.2)).getD essence

/-! ## Classification -/

def INSPECTION_LIMIT : Nat := 64 * 1024
def PREVIEW_LIMIT : Nat := 256

/-- `str::split_once` on characters. -/
def splitOnce (sep : List Char) : List Char → Option (List Char × List Char)
  | [] => if sep = [] then some ([], []) else none
  | c :: cs =>
      if sep.isPrefixOf (c :: cs) then some ([], (c :: cs).drop sep.length)
      else (splitOnce sep cs).map fun p => (c :: p.1, p.2)

/-- A link with a host. -/
def looksLikeUrl (value : String) : Bool :=
  match splitOnce "://".toList value.toList with
  | none => false
  | some (scheme, rest) =>
      (toAsciiLowercase (String.ofList scheme) == "http" ||
          toAsciiLowercase (String.ofList scheme) == "https") &&
        rest ≠ [] && !value.toList.any isWhitespace

/-- An object or an array that a JSON reader accepts. -/
def looksLikeJson (P : Platform) (value : String) : Bool :=
  let cs := value.toList
  2 ≤ cs.length &&
    ((cs.head? == some '{' && cs.getLast? == some '}') ||
      (cs.head? == some '[' && cs.getLast? == some ']')) &&
    P.isJson value

/-- A color in hexadecimal, or a function of colors. -/
def looksLikeColor (value : String) : Bool :=
  match value.toList with
  | '#' :: hex =>
      [3, 4, 6, 8].contains (byteLen (String.ofList hex)) &&
        hex.all fun c => (hexValue c).isSome
  | _ => false

/-- A MIME type that settles the kind whatever the bytes are. -/
def authoritativeKind (mime : String) : Option EntryKind :=
  match toAsciiLowercase mime with
  | "" | "text/plain" => none
  | "text/uri-list" | "x-special/gnome-copied-files" => some .files
  | "text/html" | "application/xhtml+xml" => some .html
  | "application/json" | "application/ld+json" => some .json
  | value =>
      if "image/".toList.isPrefixOf value.toList then some .image
      else if "text/".toList.isPrefixOf value.toList then none
      else some .binary

/-- What a text is, by how it looks. -/
def semanticTextKind (P : Platform) (bytes : Bytes) : EntryKind :=
  match fromUtf8 bytes with
  | none => .binary
  | some text =>
      let value := trim text
      if looksLikeUrl value then .link
      else if looksLikeJson P value then .json
      else if looksLikeColor value then .color
      else .text

/-- What a payload is, by its type and how it looks. -/
def classify (P : Platform) (mime : String) (bytes : Bytes) : EntryKind :=
  (authoritativeKind (trim (mimeEssence mime))).getD
    (semanticTextKind P (bytes.take INSPECTION_LIMIT))

/-! ## Previews -/

/-- Characters that are shown in a preview. -/
def previewCharacterIsVisible (c : Char) : Bool :=
  let n := c.toNat
  !isControl c && !(n == 0xAD || n == 0x34F || n == 0x61C || n == 0x180E ||
    (0x200B ≤ n && n ≤ 0x200F) || (0x202A ≤ n && n ≤ 0x202E) ||
    (0x2060 ≤ n && n ≤ 0x206F) || n == 0xFEFF)

/-- The longest prefix of at most `limit` bytes that ends between characters. -/
def truncateUtf8 : List Char → Nat → List Char
  | [], _ => []
  | c :: cs, limit => if c.utf8Size ≤ limit then c :: truncateUtf8 cs (limit - c.utf8Size) else []

/-- The first visible characters, on one line. -/
def boundedPreview (bytes : Bytes) (maxBytes : Nat) : String :=
  let words := (splitWhitespace (fromUtf8Lossy (bytes.take maxBytes))).map
    fun w => w.filter previewCharacterIsVisible
  String.ofList
    (truncateUtf8 (List.intercalate [' '] (words.filter (· ≠ []))) PREVIEW_LIMIT)

example : boundedPreview (asBytes " first\n\tsecond ") 1024 = "first second" := by decide

/-! ## Files -/

/-- The limit that is set, within the one of the protocol. -/
def effectiveLimit (configuredLimit : Nat) : Nat := min configuredLimit MAX_WAYLAND_SELECTION_BYTES

/-- A payload that is too large is not published. -/
def validateSize (size configuredLimit : Nat) : BackendResult Unit :=
  if size > effectiveLimit configuredLimit then
    .error (invalidData (s!"Clipboard entry is {size} bytes; " ++
      s!"Wayland publishing is limited to {effectiveLimit configuredLimit} bytes"))
  else .ok ()

/-- The advertised size and the bytes read must both be within the limit. -/
def readPath (W : World) (path : FilePath) (maxBytes : Nat) : BackendResult Bytes :=
  match W.openFile path with
  | none => .error (operationError "file could not be opened")
  | some (size, bytes) => do
      validateSize size maxBytes
      validateSize bytes.length maxBytes
      pure bytes

/-- `Path::file_name`: the last component, unless it is `..`. -/
def fileName (path : FilePath) : Option Bytes :=
  let components := (path.splitOn 0x2F).filter fun c => c ≠ [] ∧ c ≠ [0x2E]
  components.getLast?.filter (· ≠ [0x2E, 0x2E])

/-- What is shown of a file that is named by a line. -/
def filePreview (P : Platform) (W : World) (operation uri : String) : Option FilePreview := do
  let url ← P.parseUrl uri
  let localPath := P.toFilePath url
  let displayName := ((localPath.bind fileName).map fromUtf8Lossy).orElse fun _ =>
    (P.lastPathSegment url).filter (· ≠ "")
  pure {
    displayName := displayName.getD "File"
    uri := url.serialization
    pathExists := localPath.any W.pathExists
    operation := operation }

/-- The URI lines of a file selection and its operation. -/
def fileLines (mime text : String) : String × List String :=
  let candidates := (lines text).filter fun l => l ≠ "" ∧ l.toList.head? ≠ some '#'
  if mime = "x-special/gnome-copied-files" then
    match candidates with
    | [] => ("copy", [])
    | header :: rest => (if header = "copy" ∨ header = "cut" then header else "copy", rest)
  else ("copy", candidates)

/-- The files that a payload names. -/
def parseFiles (P : Platform) (W : World) (mime : String) (bytes : Bytes) : List FilePreview :=
  match fromUtf8 bytes with
  | none => []
  | some text =>
      let (operation, uris) := fileLines mime text
      (uris.filterMap (filePreview P W operation)).take (MAX_FILES + 1)

/-- A local file that holds an image. -/
structure LocalImageSource where
  path : FilePath
  mime : String
  dimensions : ImageMetadata
deriving DecidableEq

/-- Only a selection of exactly one regular, readable image file designates it. -/
def localImageSourceFromFiles (P : Platform) (W : World) (files : List FilePreview)
    (maxBytes : Nat) : Option LocalImageSource :=
  match files with
  | [file] => do
      let url ← P.parseUrl file.uri
      let path ← P.toFilePath url
      let metadata ← W.symlinkMetadata path
      if !metadata.isFile || metadata.len > maxBytes then none
      else do
        let (_, bytes) ← W.openFile path
        let mime ← P.readerFormat bytes
        let dimensions ← P.intoDimensions bytes
        pure ⟨path, mime, dimensions⟩
  | _ => none

/-- The eight bytes of a length, least significant first. -/
def leBytes (n : Nat) : Bytes := (List.range 8).map fun i => UInt8.ofNat (n / 256 ^ i)

/-- The identity of an image: its canonical type, its length and its bytes. -/
def imageIdentity (P : Platform) (mime : String) (bytes : Bytes) : String :=
  hexEncode (P.sha256 (asBytes "clip-daemon:resolved-image:v1:" ++ asBytes (canonicalMime mime) ++
    leBytes bytes.length ++ bytes))

/-- The identity of the image a file holds now. -/
def LocalImageSource.identity (P : Platform) (W : World) (source : LocalImageSource) :
    Option String := do
  let metadata ← W.symlinkMetadata source.path
  if !metadata.isFile then none
  else
    match readPath W source.path MAX_WAYLAND_SELECTION_BYTES with
    | .error _ => none
    | .ok bytes => some (imageIdentity P source.mime bytes)

/-! ## Resolution -/

/-- An image: the payload, or the file that it names. -/
inductive ResolvedImage
  | inline (mime : String) (dimensions : Option ImageMetadata)
  | localFile (source : LocalImageSource)
deriving DecidableEq

/-- What a payload shows. -/
structure ResolvedContent where
  storedMime : String
  kind : EntryKind
  files : List FilePreview
  image : Option ResolvedImage
deriving DecidableEq

/-- The stored MIME type with its default. -/
def storedMimeOr (mime : String) : String := if mime = "" then "text/plain" else mime

/-- What a payload shows, of at most so many bytes. -/
def ResolvedContent.resolve (P : Platform) (W : World) (mime : String) (bytes : Bytes)
    (maxFileBytes : Nat) : ResolvedContent :=
  let storedMime := storedMimeOr mime
  match P.guessFormat bytes with
  | some detected =>
      { storedMime, kind := .image, files := []
        image := some (.inline detected (P.intoDimensions bytes)) }
  | none =>
      let semanticMime := canonicalMime storedMime
      let files :=
        if semanticMime = "text/uri-list" ∨ semanticMime = "x-special/gnome-copied-files" ∨
            semanticMime = "text/plain" then parseFiles P W semanticMime bytes
        else []
      match localImageSourceFromFiles P W files maxFileBytes with
      | some source => { storedMime, kind := .image, files, image := some (.localFile source) }
      | none => { storedMime, kind := classify P semanticMime bytes, files, image := none }

/-- The MIME type the content is published under. -/
def ResolvedContent.mime (c : ResolvedContent) : String :=
  match c.image with
  | some (.inline mime _) => mime
  | some (.localFile source) => source.mime
  | none => c.storedMime

/-- The one file that the payload names, if it is an image. -/
def ResolvedContent.localImage (c : ResolvedContent) : Option LocalImageSource :=
  match c.image with
  | some (.localFile source) => some source
  | _ => none

/-- An inline image designates no local file. -/
theorem ResolvedContent.localImage_of_guessFormat {P : Platform} {W : World}
    {mime detected : String}
    {bytes : Bytes} {limit : Nat} (h : P.guessFormat bytes = some detected) :
    (ResolvedContent.resolve P W mime bytes limit).localImage = none := by
  simp [ResolvedContent.resolve, h, ResolvedContent.localImage]

/-- Content that is no inline image and designates no local file keeps its stored type. -/
theorem ResolvedContent.mime_of_plain {P : Platform} {W : World} {mime : String} {bytes : Bytes}
    {limit : Nat} (hg : P.guessFormat bytes = none)
    (hl : (ResolvedContent.resolve P W mime bytes limit).localImage = none) :
    (ResolvedContent.resolve P W mime bytes limit).mime = storedMimeOr mime := by
  unfold ResolvedContent.resolve at hl ⊢
  simp only [hg] at hl ⊢
  split at hl
  · simp [ResolvedContent.localImage] at hl
  · simp [ResolvedContent.mime]

/-- An inline image is published under its detected type. -/
theorem ResolvedContent.mime_of_guessFormat {P : Platform} {W : World} {mime detected : String}
    {bytes : Bytes} {limit : Nat} (h : P.guessFormat bytes = some detected) :
    (ResolvedContent.resolve P W mime bytes limit).mime = detected := by
  simp [ResolvedContent.resolve, h, ResolvedContent.mime]

/-! ## The local files a payload names -/

/-- A path that is UTF-8 (`Path::to_str`). -/
def toStr (path : FilePath) : Option FilePath := (fromUtf8 path).map fun _ => path

/-- The paths of the local file URIs on the lines of a text, each once
(`Database::write_content`). -/
def artifactPaths (P : Platform) (bytes : Bytes) : List FilePath :=
  match fromUtf8 bytes with
  | none => []
  | some text =>
      ((lines text).filterMap fun line => do
        let url ← P.parseUrl (trim line)
        let path ← P.toFilePath url
        toStr path).dedup

theorem artifactPaths_nodup (P : Platform) (bytes : Bytes) : (artifactPaths P bytes).Nodup := by
  unfold artifactPaths
  split
  · exact List.nodup_nil
  · exact List.nodup_dedup _

/-- The searchable text of an entry: its type, a line feed and its text, in lower case. -/
def searchText (P : Platform) (mime : String) (bytes : Bytes) : String :=
  toLowercase P.unicode (mime ++ "\n" ++ (fromUtf8 bytes).getD "")

end ClipDaemon
