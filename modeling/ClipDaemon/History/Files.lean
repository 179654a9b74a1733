import ClipDaemon.History.Artifacts
import ClipDaemon.History.Details

/-!
# Publishing files

A client asks for a list of files to be put on the clipboard, to be copied or to be cut
(`history.rs`, `selection.rs`).  They are offered as a list of URIs, and to file managers as
the operation followed by that list.

An entry captured from either offer is read by `parseFiles`, which skips comments and blank
lines and stops after some files.  `publishFiles_roundTrip` says that it reads the files that
were published, whatever bytes are in their names: a URI is printable, so it is one line and
neither blank nor a comment, and the first line is the operation.
-/

namespace ClipDaemon

/-! ## The request -/

/-- What is to be done with the files. -/
inductive FileSelectionOperation
  | copy
  | cut
deriving DecidableEq

def FileSelectionOperation.asStr : FileSelectionOperation → String
  | .copy => "copy"
  | .cut => "cut"

/-- Files that are put on the clipboard. -/
structure FileSelection where
  operation : FileSelectionOperation
  paths : List FilePath
deriving DecidableEq

/-- Are there files, not too many, and are they absolute? -/
def FileSelection.validate (selection : FileSelection) : Except String Unit :=
  if ¬(1 ≤ selection.paths.length ∧ selection.paths.length ≤ MAX_FILES) then
    .error "paths must contain between 1 and 100 files"
  else if selection.paths.any fun path => !isAbsolute path then
    .error "every file path must be absolute"
  else .ok ()

/-! ## The payloads -/

/-- The URIs of files, each on a line.  `fromFilePath` is `Url::from_file_path`. -/
def encodeFileUris (fromFilePath : FilePath → Option Url) (paths : List FilePath) :
    BackendResult Bytes :=
  paths.foldlM (fun bytes path =>
    match fromFilePath path with
    | none => .error (invalidData "File selection path is invalid")
    | some uri => .ok (bytes ++ asBytes uri.serialization ++ asBytes "\r\n")) []

/-- What is offered: the payload under `x-special/gnome-copied-files`, and the one under
`text/uri-list`. -/
structure FilesOffer where
  gnomePayload : Bytes
  uriList : Bytes
deriving DecidableEq

/-- The types that a selection of files is offered as. -/
def SelectionService.publishFiles (operation : String) (uriList : Bytes) (configuredLimit : Nat) :
    BackendResult FilesOffer := do
  if ¬(operation = "copy" ∨ operation = "cut") then
    .error (invalidData "File selection operation must be copy or cut")
  validateSize (uriList.length + byteLen operation + 1) configuredLimit
  pure ⟨asBytes operation ++ asBytes "\n" ++ uriList, uriList⟩

/-- The selection is validated, and offered within the limit. -/
def publishFilesSync (fromFilePath : FilePath → Option Url) (selection : FileSelection)
    (maxBytes : Nat) : BackendResult FilesOffer := do
  selection.validate.mapError invalidData
  let uriList ← encodeFileUris fromFilePath selection.paths
  SelectionService.publishFiles selection.operation.asStr uriList maxBytes

/-! ## Specification -/

/-- An absolute path that goes through no `.` and no `..`. -/
structure PlainPath (path : FilePath) : Prop where
  absolute : isAbsolute path = true
  plain : ∀ part ∈ path.splitOn 0x2F, part ≠ [0x2E] ∧ part ≠ [0x2E, 0x2E]

/-- What the `url` crate does with plain paths: it writes each as a printable URI, and reads
it back as the same path.  Paths may be the same byte for byte, or as `PathBuf`s are compared
(`samePath`). -/
structure WritesPaths (P : Platform) (fromFilePath : FilePath → Option Url)
    (same : FilePath → FilePath → Prop) : Prop where
  reads_back : ∀ path, PlainPath path → ∃ url path', fromFilePath path = some url ∧
    P.parseUrl url.serialization = some url ∧ P.toFilePath url = some path' ∧ same path path'
  printable : ∀ path url, PlainPath path → fromFilePath path = some url →
    "file:".toList <+: url.serialization.toList ∧
      ∀ c ∈ url.serialization.toList, 0x20 ≤ c.toNat ∧ c.toNat < 0x7F

/-- The file that an item of a list names. -/
def FilePreview.path (P : Platform) (file : FilePreview) : Option FilePath :=
  (P.parseUrl file.uri).bind P.toFilePath

/-- A payload reads back as a list of files: it has one line for each after its header, and
the items are these files in order, each to be copied or cut. -/
structure ReadsBack (P : Platform) (W : World) (fromFilePath : FilePath → Option Url)
    (same : FilePath → FilePath → Prop) (paths : List FilePath) (mime : String)
    (payload : Bytes) (header : List String) (operation : String) : Prop where
  lines : ∃ text uris, fromUtf8 payload = some text ∧ lines text = header ++ uris ∧
    List.Forall₂ (fun path uri => fromFilePath path = some ⟨uri⟩) paths uris
  operation : ∀ file ∈ parseFiles P W mime payload, file.operation = operation
  paths :
    List.Forall₂ (fun path file => ∃ path', FilePreview.path P file = some path' ∧ same path path')
    paths (parseFiles P W mime payload)

/-- Both payloads of an offer read back as the files selected. -/
structure FilesRoundTrip (P : Platform) (W : World) (fromFilePath : FilePath → Option Url)
    (same : FilePath → FilePath → Prop) (selection : FileSelection) (offer : FilesOffer) :
    Prop where
  gnome : ReadsBack P W fromFilePath same selection.paths "x-special/gnome-copied-files"
    offer.gnomePayload [selection.operation.asStr] selection.operation.asStr
  uriList : ReadsBack P W fromFilePath same selection.paths "text/uri-list" offer.uriList []
    "copy"

/-! ## Lists of URIs -/

/-- A text with one URI on each line. -/
def uriText (uris : List String) : List Char := uris.flatMap fun uri => uri.toList ++ ['\r', '\n']

/-- A URI that a line can hold and that the parser takes for one. -/
structure LineOfUri (uri : String) : Prop where
  printable : ∀ c ∈ uri.toList, 0x20 ≤ c.toNat ∧ c.toNat < 0x7F
  nonblank : uri ≠ ""
  noComment : uri.toList.head? ≠ some '#'

theorem LineOfUri.not_mem {uri : String} (h : LineOfUri uri) : '\n' ∉ uri.toList := fun hmem =>
  absurd (h.printable _ hmem).1 (by decide)

theorem linesFrom_uriText {uris : List String} (h : ∀ uri ∈ uris, LineOfUri uri) :
    (linesFrom [] (uriText uris)).map String.ofList = uris := by
  induction uris with
  | nil => rfl
  | cons uri uris ih =>
      have hline : '\n' ∉ uri.toList ++ ['\r'] := by
        simpa using (h uri (List.mem_cons_self ..)).not_mem
      have htext : uriText (uri :: uris) = (uri.toList ++ ['\r']) ++ '\n' :: uriText uris := by
        simp [uriText]
      rw [htext, linesFrom_cons hline, List.map_cons,
        ih fun u hu => h u (List.mem_cons_of_mem _ hu)]
      simp [stripCarriageReturn]

theorem asBytes_append (a b : List Char) :
    asBytes (String.ofList (a ++ b)) = asBytes (String.ofList a) ++ asBytes (String.ofList b) := by
  simp [asBytes]

theorem ascii_uriText {uris : List String} (h : ∀ uri ∈ uris, LineOfUri uri) :
    ∀ c ∈ uriText uris, c.toNat < 0x80 := by
  intro c hc
  obtain ⟨uri, huri, hc⟩ := List.mem_flatMap.mp hc
  rw [List.mem_append] at hc
  rcases hc with hc | hc
  · exact ((h uri huri).printable c hc).2.trans (by decide)
  · have hbreak : (['\r', '\n'].all fun c => c.toNat < 0x80) = true := by decide
    exact of_decide_eq_true (List.all_eq_true.mp hbreak c hc)

/-- All lines of URIs count. -/
theorem countedLines_uris {uris : List String} (h : ∀ uri ∈ uris, LineOfUri uri) :
    countedLines uris = uris := by
  rw [countedLines, List.filter_eq_self]
  intro uri huri
  simpa using And.intro (h uri huri).nonblank (h uri huri).noComment

theorem FileSelectionOperation.asStr_eq (operation : FileSelectionOperation) :
    operation.asStr = "copy" ∨ operation.asStr = "cut" := by
  cases operation
  · exact .inl rfl
  · exact .inr rfl

theorem FileSelectionOperation.counted (operation : FileSelectionOperation) (ls : List String) :
    countedLines (operation.asStr :: ls) = operation.asStr :: countedLines ls := by
  cases operation <;> rfl

/-- Under either operation, a list is offered exactly when the larger payload is within the
limit. -/
theorem publishFiles_ok_iff (operation : FileSelectionOperation) (uriList : Bytes) (limit : Nat)
    (offer : FilesOffer) :
    SelectionService.publishFiles operation.asStr uriList limit = .ok offer ↔
      uriList.length + byteLen operation.asStr + 1 ≤ effectiveLimit limit ∧
        offer = ⟨asBytes operation.asStr ++ asBytes "\n" ++ uriList, uriList⟩ := by
  rw [SelectionService.publishFiles, if_neg (not_not.mpr operation.asStr_eq), validateSize]
  by_cases hsize : uriList.length + byteLen operation.asStr + 1 ≤ effectiveLimit limit
  · rw [if_neg (Nat.not_lt.mpr hsize)]
    exact ⟨fun h => ⟨hsize, (Except.ok.inj h).symm⟩, fun h => congrArg Except.ok h.2.symm⟩
  · rw [if_pos (Nat.not_le.mp hsize)]
    exact iff_of_false nofun fun h => hsize h.1

/-! ## Reading back -/

section ReadBack

variable {P : Platform} {W : World} {fromFilePath : FilePath → Option Url}
  {same : FilePath → FilePath → Prop} {paths : List FilePath}

theorem filePreview_of_parse {operation uri : String} {url : Url} (h : P.parseUrl uri = some url) :
    ∃ file, filePreview P W operation uri = some file ∧ file.uri = url.serialization ∧
      file.operation = operation := by
  unfold filePreview
  rw [h]
  exact ⟨_, rfl, rfl, rfl⟩

/-- The paths are written one URI each. -/
theorem WritesPaths.encode (law : WritesPaths P fromFilePath same)
    (hplain : ∀ path ∈ paths, PlainPath path) : ∃ uris,
      List.Forall₂ (fun path uri => fromFilePath path = some ⟨uri⟩) paths uris ∧
      (∀ uri ∈ uris, LineOfUri uri) ∧
      encodeFileUris fromFilePath paths = .ok (asBytes (String.ofList (uriText uris))) := by
  have key : ∀ bytes, ∃ uris,
      List.Forall₂ (fun path uri => fromFilePath path = some ⟨uri⟩) paths uris ∧
      (∀ uri ∈ uris, LineOfUri uri) ∧
      paths.foldlM (fun bytes path =>
        match fromFilePath path with
        | none => .error (invalidData "File selection path is invalid")
        | some uri => .ok (bytes ++ asBytes uri.serialization ++ asBytes "\r\n")) bytes =
        (.ok (bytes ++ asBytes (String.ofList (uriText uris))) : BackendResult Bytes) := by
    induction paths with
    | nil => exact fun bytes => ⟨[], .nil, by simp, by simp [uriText, asBytes]; rfl⟩
    | cons path paths ih =>
        intro bytes
        have hpath := hplain path (List.mem_cons_self ..)
        obtain ⟨url, -, hurl, -⟩ := law.reads_back path hpath
        obtain ⟨hfile, hprintable⟩ := law.printable path url hpath hurl
        obtain ⟨uris, hwritten, hlines, hrest⟩ :=
          ih (fun p hp => hplain p (List.mem_cons_of_mem _ hp))
          (bytes ++ asBytes url.serialization ++ asBytes "\r\n")
        refine ⟨url.serialization :: uris, .cons hurl hwritten, ?_, ?_⟩
        · obtain ⟨rest, hrest⟩ := hfile
          refine List.forall_mem_cons.mpr ⟨⟨hprintable, ?_, ?_⟩, hlines⟩
          · intro hblank
            rw [hblank] at hrest
            exact absurd hrest (by simp)
          · rw [← hrest]
            simp
        · rw [List.foldlM_cons, hurl]
          refine Eq.trans hrest ?_
          have htext : uriText (url.serialization :: uris) =
              url.serialization.toList ++ (['\r', '\n'] ++ uriText uris) := by
            simp [uriText]
          rw [htext, asBytes_append, asBytes_append, String.ofList_toList]
          simp [List.append_assoc]
  obtain ⟨uris, hwritten, hlines, hencode⟩ := key []
  exact ⟨uris, hwritten, hlines, hencode⟩

/-- Each URI is read as the file it was written for. -/
theorem WritesPaths.previews (law : WritesPaths P fromFilePath same)
    (hplain : ∀ path ∈ paths, PlainPath path) {uris : List String} (operation : String)
    (h : List.Forall₂ (fun path uri => fromFilePath path = some ⟨uri⟩) paths uris) :
    (∀ file ∈ uris.filterMap (filePreview P W operation), file.operation = operation) ∧
    List.Forall₂ (fun path file => ∃ path', FilePreview.path P file = some path' ∧ same path path')
      paths (uris.filterMap (filePreview P W operation)) := by
  induction h with
  | nil => exact ⟨by simp, .nil⟩
  | @cons path uri paths uris hwritten _ ih =>
      obtain ⟨hoperation, hpaths⟩ := ih fun p hp => hplain p (List.mem_cons_of_mem _ hp)
      obtain ⟨url, path', hurl, hparse, hback, hsame⟩ :=
        law.reads_back path (hplain path (List.mem_cons_self ..))
      obtain rfl := Option.some.inj (hwritten.symm.trans hurl)
      obtain ⟨file, hfile, huri, hop⟩ := filePreview_of_parse (W := W) hparse
      rw [List.filterMap_cons_some hfile]
      refine ⟨List.forall_mem_cons.mpr ⟨hop, hoperation⟩, .cons ⟨path', ?_, hsame⟩ hpaths⟩
      rw [FilePreview.path, huri, hparse]
      exact hback

/-- A payload whose lines are a header and URIs reads back as their files. -/
theorem readsBack_of_lines (law : WritesPaths P fromFilePath same)
    (hplain : ∀ path ∈ paths, PlainPath path) (hcount : paths.length ≤ MAX_FILES)
    {mime operation : String} {header uris : List String} {text : List Char}
    (hascii : ∀ c ∈ text, c.toNat < 0x80) (hlines : lines (String.ofList text) = header ++ uris)
    (hwritten : List.Forall₂ (fun path uri => fromFilePath path = some ⟨uri⟩) paths uris)
    (hheader : headerOperation mime (header ++ uris) = operation)
    (huris : uriLines mime (header ++ uris) = uris) :
    ReadsBack P W fromFilePath same paths mime (asBytes (String.ofList text)) header operation := by
  have htext : fromUtf8 (asBytes (String.ofList text)) = some (String.ofList text) :=
    fromUtf8_asBytes (by rwa [String.toList_ofList])
  obtain ⟨hoperation, hpaths⟩ := law.previews (W := W) hplain operation hwritten
  have hfiles : parseFiles P W mime (asBytes (String.ofList text)) =
      uris.filterMap (filePreview P W operation) := by
    rw [parseFiles_eq, htext]
    dsimp only
    rw [hlines, named, hheader, huris]
    refine List.take_of_length_le ?_
    rw [← hpaths.length_eq]
    exact hcount.trans (Nat.le_succ _)
  rw [← hfiles] at hoperation hpaths
  exact ⟨⟨_, uris, htext, hlines, hwritten⟩, hoperation, hpaths⟩

end ReadBack

/-- Files that are published are read back from either payload, the same files in the same
order; and they are published exactly when the larger payload is within the limit. -/
theorem publishFiles_roundTrip (P : Platform) (W : World) (fromFilePath : FilePath → Option Url)
    (same : FilePath → FilePath → Prop) (law : WritesPaths P fromFilePath same)
    (selection : FileSelection) (maxBytes : Nat)
    (hcount : 1 ≤ selection.paths.length ∧ selection.paths.length ≤ MAX_FILES)
    (hplain : ∀ path ∈ selection.paths, PlainPath path) :
    (∃ uriList, encodeFileUris fromFilePath selection.paths = .ok uriList ∧
      ((∃ offer, publishFilesSync fromFilePath selection maxBytes = .ok offer) ↔
        uriList.length + byteLen selection.operation.asStr + 1 ≤ effectiveLimit maxBytes)) ∧
    ∀ offer, publishFilesSync fromFilePath selection maxBytes = .ok offer →
      FilesRoundTrip P W fromFilePath same selection offer := by
  obtain ⟨uris, hwritten, hlines, hencode⟩ := law.encode hplain
  have hvalid : selection.validate = .ok () := by
    rw [FileSelection.validate, if_neg (not_not.mpr hcount), if_neg]
    simpa using fun path hpath => (hplain path hpath).absolute
  have hpublish : publishFilesSync fromFilePath selection maxBytes =
      SelectionService.publishFiles selection.operation.asStr
        (asBytes (String.ofList (uriText uris)))
        maxBytes := by
    rw [publishFilesSync, hvalid, hencode]
    rfl
  rw [hpublish]
  refine ⟨⟨_, hencode, ?_⟩, fun offer hoffer => ?_⟩
  · simp only [publishFiles_ok_iff, exists_and_left, exists_eq, and_true]
  · obtain ⟨-, rfl⟩ := (publishFiles_ok_iff ..).mp hoffer
    have hcounted := countedLines_uris hlines
    constructor
    · have htext : asBytes selection.operation.asStr ++ asBytes "\n" ++
          asBytes (String.ofList (uriText uris)) =
          asBytes (String.ofList (selection.operation.asStr.toList ++ '\n' :: uriText uris)) := by
        rw [List.append_cons, asBytes_append, asBytes_append, String.ofList_toList]
      rw [htext]
      refine readsBack_of_lines law hplain hcount.2 ?_ ?_ hwritten ?_ ?_
      · intro c hc
        rw [List.mem_append, List.mem_cons] at hc
        rcases hc with hc | rfl | hc
        · have hheader : (selection.operation.asStr.toList.all fun c => c.toNat < 0x80) = true := by
            cases selection.operation <;> decide
          exact of_decide_eq_true (List.all_eq_true.mp hheader c hc)
        · decide
        · exact ascii_uriText hlines c hc
      · rw [lines, String.toList_ofList, linesFrom_cons, List.map_cons, linesFrom_uriText hlines]
        · cases selection.operation <;> rfl
        · cases selection.operation <;> decide
      · rw [headerOperation, if_pos rfl, List.singleton_append, selection.operation.counted]
        exact if_pos selection.operation.asStr_eq
      · rw [uriLines, if_pos rfl, List.singleton_append, selection.operation.counted, hcounted]
        rfl
    · refine readsBack_of_lines law hplain hcount.2 (ascii_uriText hlines) ?_ hwritten ?_ ?_
      · rw [lines, String.toList_ofList, linesFrom_uriText hlines]
        rfl
      · rw [headerOperation, if_neg (by decide)]
      · rw [uriLines, if_neg (by decide), List.nil_append, hcounted]

/-! ## Percent encoding -/

/-- Bytes that stand for themselves in a path. -/
def keptByte (b : UInt8) : Bool :=
  let n := b.toNat
  (48 ≤ n && n ≤ 57) || (65 ≤ n && n ≤ 90) || (97 ≤ n && n ≤ 122) ||
  [0x2D, 0x2E, 0x2F, 0x5F].contains n

/-- A byte in a URL. -/
def percentByte (b : UInt8) : List Char :=
  if keptByte b then [Char.ofNat b.toNat]
  else ['%', (hexDigit (b.toNat / 16)).toUpper, (hexDigit (b.toNat % 16)).toUpper]

/-- The bytes of a URL. -/
def percentDecode : List Char → Bytes
  | '%' :: high :: low :: cs =>
      match hexValue high, hexValue low with
      | some high, some low => UInt8.ofNat (high * 16 + low) :: percentDecode cs
      | _, _ => 0x25 :: percentDecode (high :: low :: cs)
  | c :: cs => utf8EncodeChar c ++ percentDecode cs
  | [] => []

theorem kept_char : ∀ n < 256, keptByte (UInt8.ofNat n) = true →
    Char.ofNat n ≠ '%' ∧ (0x20 ≤ (Char.ofNat n).toNat ∧ (Char.ofNat n).toNat < 0x7F) ∧
      utf8EncodeChar (Char.ofNat n) = [UInt8.ofNat n] := by decide +kernel

theorem upper_digit : ∀ n < 16, hexValue (hexDigit n).toUpper = some n ∧
    0x20 ≤ (hexDigit n).toUpper.toNat ∧ (hexDigit n).toUpper.toNat < 0x7F := by decide

theorem percentDecode_byte (b : UInt8) (cs : List Char) :
    percentDecode (percentByte b ++ cs) = b :: percentDecode cs := by
  have hb : b.toNat < 256 := b.toNat_lt
  unfold percentByte
  split
  next hkept =>
    obtain ⟨hc, -, hencode⟩ := kept_char b.toNat hb (by rwa [UInt8.ofNat_toNat])
    rw [List.singleton_append, percentDecode, hencode, UInt8.ofNat_toNat, List.singleton_append]
    intro high low rest hpercent
    exact absurd hpercent hc
  next =>
    simp only [List.cons_append, List.nil_append, percentDecode,
      (upper_digit (b.toNat / 16) (by omega)).1, (upper_digit (b.toNat % 16) (by omega)).1]
    rw [show b.toNat / 16 * 16 + b.toNat % 16 = b.toNat by omega, UInt8.ofNat_toNat]

theorem percentDecode_encode (bytes : Bytes) :
    percentDecode (bytes.flatMap percentByte) = bytes := by
  induction bytes with
  | nil => rfl
  | cons b bytes ih => rw [List.flatMap_cons, percentDecode_byte, ih]

theorem printable_percentByte (b : UInt8) : ∀ c ∈ percentByte b, 0x20 ≤ c.toNat ∧
    c.toNat < 0x7F := by
  have hb : b.toNat < 256 := b.toNat_lt
  unfold percentByte
  split
  next hkept =>
    have hprintable := (kept_char b.toNat hb (by rwa [UInt8.ofNat_toNat])).2.1
    exact fun c hc => List.mem_singleton.mp hc ▸ hprintable
  next =>
    have hhigh := (upper_digit (b.toNat / 16) (by omega)).2
    have hlow := (upper_digit (b.toNat % 16) (by omega)).2
    exact List.forall_mem_cons.mpr ⟨by decide, List.forall_mem_cons.mpr ⟨hhigh,
      List.forall_mem_singleton.mpr hlow⟩⟩

/-- A platform that percent-encodes paths. -/
def Platform.percent : Platform :=
  { Platform.png with
    toFilePath := fun url => some (percentDecode (url.serialization.toList.drop 7)) }

/-- The URL of an absolute path. -/
def percentUrl (path : FilePath) : Option Url :=
  if isAbsolute path then
    some ⟨String.ofList ("file://".toList ++ path.flatMap percentByte)⟩
  else none

theorem percent_writes : WritesPaths .percent percentUrl (· = ·) where
  reads_back path h := by
    refine ⟨_, path, if_pos h.absolute, ?_, ?_, rfl⟩
    · obtain ⟨rest, rfl⟩ : ∃ rest, path = 0x2F :: rest :=
        List.head?_eq_some_iff.mp (of_decide_eq_true h.absolute)
      change (if "file:///".toList.isPrefixOf (String.ofList _).toList then _ else _) = _
      rw [if_pos]
      rw [List.isPrefixOf_iff_prefix, String.toList_ofList, String.toList_ofList]
      exact ⟨rest.flatMap percentByte, rfl⟩
    · change some (percentDecode ((String.ofList _).toList.drop 7)) = _
      rw [String.toList_ofList]
      exact congrArg some (percentDecode_encode path)
  printable path url h hurl := by
    rw [percentUrl, if_pos h.absolute] at hurl
    obtain rfl := Option.some.inj hurl
    rw [String.toList_ofList, String.toList_ofList]
    refine ⟨⟨'/' :: '/' :: path.flatMap percentByte, rfl⟩, fun c hc => ?_⟩
    rw [List.mem_append, List.mem_flatMap] at hc
    rcases hc with hc | ⟨b, -, hc⟩
    · have hscheme : ("file://".toList.all fun c => 0x20 ≤ c.toNat && c.toNat < 0x7F) = true := by
        decide
      simpa using List.all_eq_true.mp hscheme c hc
    · exact printable_percentByte b c hc

/-- Two files, with a blank, a number sign, a line feed and a byte that is no text. -/
def oddFiles : FileSelection := ⟨.cut, [asBytes "/a #\nb", [0x2F, 0xFF]]⟩

/-- Names that need encoding are read back. -/
theorem publishFiles_roundTrip_odd : ∃ offer,
    publishFilesSync percentUrl oddFiles 4096 = .ok offer ∧
      FilesRoundTrip .percent .empty percentUrl (· = ·) oddFiles offer := by
  have hplain : ∀ path ∈ oddFiles.paths, PlainPath path := by
    refine List.forall_mem_cons.mpr ⟨⟨by decide, by decide⟩, ?_⟩
    exact List.forall_mem_singleton.mpr ⟨by decide, by decide⟩
  obtain ⟨⟨uriList, hencode, hsize⟩, hround⟩ := publishFiles_roundTrip .percent .empty percentUrl
    (· = ·) percent_writes oddFiles 4096 (by decide) hplain
  have hlist : encodeFileUris percentUrl oddFiles.paths =
      .ok (asBytes "file:///a%20%23%0Ab\r\nfile:///%FF\r\n") := by decide +kernel
  obtain rfl := Except.ok.inj (hencode.symm.trans hlist)
  obtain ⟨offer, hoffer⟩ := hsize.mpr (by decide +kernel)
  exact ⟨offer, hoffer, hround offer hoffer⟩

end ClipDaemon
