import ClipDaemon.History.Publish
import ClipDaemon.Lines

/-!
# The files an entry shows

The details of an entry show the files its payload names.  The payload is cut at a byte
limit first, and the cut can fall anywhere: inside a character, inside a URI, or after the
first of several files.  A cut inside a URI can name a file that the entry does not contain,
and a cut after one image can show the entry as that image.

`details_files_iff` says exactly which cuts do no harm.
-/

namespace ClipDaemon

/-! ## Files on lines -/

/-- The lines that count: no blank ones and no comments. -/
def countedLines (ls : List String) : List String :=
  ls.filter fun l => l ≠ "" ∧ l.toList.head? ≠ some '#'

/-- The operation the lines begin with. -/
def headerOperation (mime : String) (ls : List String) : String :=
  if mime = "x-special/gnome-copied-files" then
    match countedLines ls with
    | [] => "copy"
    | header :: _ => if header = "copy" ∨ header = "cut" then header else "copy"
  else "copy"

/-- The lines that may be URIs. -/
def uriLines (mime : String) (ls : List String) : List String :=
  if mime = "x-special/gnome-copied-files" then (countedLines ls).tail else countedLines ls

/-- All files that lines name. -/
def named (P : Platform) (W : World) (mime : String) (ls : List String) : List FilePreview :=
  (uriLines mime ls).filterMap (filePreview P W (headerOperation mime ls))

/-- The files that further lines name. -/
def namedAfter (P : Platform) (W : World) (mime : String) (before ls : List String) :
    List FilePreview :=
  (named P W mime (before ++ ls)).drop (named P W mime before).length

section Named

variable {P : Platform} {W : World} {mime : String}

theorem parseFiles_eq (bytes : Bytes) : parseFiles P W mime bytes =
    match fromUtf8 bytes with
    | none => []
    | some text => (named P W mime (lines text)).take (MAX_FILES + 1) := by
  unfold parseFiles
  cases fromUtf8 bytes with
  | none => rfl
  | some text =>
      dsimp only
      have hlines : fileLines mime text =
          (headerOperation mime (lines text), uriLines mime (lines text)) := by
        simp only [fileLines, headerOperation, uriLines, countedLines]
        split
        · generalize (lines text).filter _ = counted
          cases counted <;> rfl
        · rfl
      rw [hlines]
      rfl

/-- Further lines only add files, at most one each. -/
theorem named_append_some (before ls : List String) : ∃ more,
    named P W mime (before ++ ls) = named P W mime before ++ more ∧
      more.length ≤ (countedLines ls).length := by
  have hcounted : countedLines (before ++ ls) = countedLines before ++ countedLines ls :=
    List.filter_append ..
  simp only [named, uriLines, headerOperation, hcounted]
  split
  · cases countedLines before with
    | nil =>
        refine ⟨_, rfl, (List.length_filterMap_le _ _).trans ?_⟩
        rw [List.nil_append, List.length_tail]
        exact Nat.sub_le _ _
    | cons header rest =>
        simp only [List.cons_append, List.tail_cons, List.filterMap_append]
        exact ⟨_, rfl, List.length_filterMap_le _ _⟩
  · rw [List.filterMap_append]
    exact ⟨_, rfl, List.length_filterMap_le _ _⟩

theorem named_append (before ls : List String) :
    named P W mime (before ++ ls) = named P W mime before ++ namedAfter P W mime before ls := by
  obtain ⟨more, hmore, -⟩ := named_append_some (P := P) (W := W) before ls
  rw [namedAfter, hmore, List.drop_left]

theorem length_namedAfter_le (before ls : List String) :
    (namedAfter P W mime before ls).length ≤ (countedLines ls).length := by
  obtain ⟨more, hmore, hle⟩ := named_append_some (P := P) (W := W) before ls
  rwa [namedAfter, hmore, List.drop_left]

/-- A blank line names nothing. -/
theorem namedAfter_blank (before : List String) : namedAfter P W mime before [""] = [] :=
  List.length_eq_zero_iff.mp (Nat.le_zero.mp (length_namedAfter_le before [""]))

end Named

/-! ## Specification -/

/-- The payload a client is shown: cut at a limit. -/
def shownBytes (stored : Database.StoredEntry) (maxTextBytes : Nat) : Bytes :=
  stored.bytes.take (min maxTextBytes MAX_DETAILS_BYTES)

/-- The files shown are the first ones of the complete payload, and a local image is shown
only if the complete payload designates it. -/
structure ShowsContained (P : Platform) (W : World) (stored : Database.StoredEntry)
    (maxTextBytes : Nat) : Prop where
  count : (entryDetails P W stored maxTextBytes).files.length ≤ MAX_FILES
  files : (entryDetails P W stored maxTextBytes).files <+:
    (ResolvedContent.resolve P W stored.mime stored.bytes MAX_THUMBNAIL_BYTES).files
  image : ∀ source,
    (ResolvedContent.resolve P W stored.mime (shownBytes stored maxTextBytes)
      MAX_THUMBNAIL_BYTES).localImage = some source →
    (ResolvedContent.resolve P W stored.mime stored.bytes MAX_THUMBNAIL_BYTES).localImage =
      some source

/-- A type whose payload may name files. -/
def NamesFiles (mime : String) : Prop :=
  mime = "text/uri-list" ∨ mime = "x-special/gnome-copied-files" ∨ mime = "text/plain"

/-- The cut is harmless for a text of files: what its last line names, if it is one of the
first files, is what the complete payload names there, and no file follows a single image. -/
structure CutsWell (P : Platform) (W : World) (mime text full : String) : Prop where
  uri : MAX_FILES ≤ (named P W mime (completeLines text)).length ∨
    ∀ file ∈ namedAfter P W mime (completeLines text) [fragment text],
      (namedAfter P W mime (completeLines text) (lines (String.ofList
        ((fragment text).toList ++ full.toList.drop text.toList.length)))).head? = some file
  single : (localImageSourceFromFiles P W (named P W mime (lines text))
      MAX_THUMBNAIL_BYTES).isSome = true →
    (namedAfter P W mime (completeLines text) (lines (String.ofList
        ((fragment text).toList ++ full.toList.drop text.toList.length)))).length ≤
      (namedAfter P W mime (completeLines text) [fragment text]).length

/-- The cut is harmless: nothing of what is left names a file, or the complete payload is a
text and the cut falls well. -/
def CutHarmless (P : Platform) (W : World) (stored : Database.StoredEntry) (maxTextBytes : Nat) :
    Prop :=
  NamesFiles (canonicalMime (storedMimeOr stored.mime)) →
    P.guessFormat (shownBytes stored maxTextBytes) = none →
    ∀ text, fromUtf8 (shownBytes stored maxTextBytes) = some text →
      named P W (canonicalMime (storedMimeOr stored.mime)) (lines text) = [] ∨
      ∃ full, fromUtf8 stored.bytes = some full ∧
        CutsWell P W (canonicalMime (storedMimeOr stored.mime)) text full

/-! ## Reading a payload -/

section Reading

variable {P : Platform} {W : World} {mime : String} {bytes : Bytes} {limit : Nat}

/-- The files a payload of a type names. -/
def filesOf (P : Platform) (W : World) (mime : String) (bytes : Bytes) : List FilePreview :=
  let semanticMime := canonicalMime (storedMimeOr mime)
  if semanticMime = "text/uri-list" ∨ semanticMime = "x-special/gnome-copied-files" ∨
    semanticMime = "text/plain" then parseFiles P W semanticMime bytes else []

theorem filesOf_eq (bytes : Bytes) (h : NamesFiles (canonicalMime (storedMimeOr mime))) :
    filesOf P W mime bytes = parseFiles P W (canonicalMime (storedMimeOr mime)) bytes := by
  rw [filesOf]
  generalize canonicalMime (storedMimeOr mime) = semanticMime at h ⊢
  exact if_pos h

theorem filesOf_eq_nil (h : ¬NamesFiles (canonicalMime (storedMimeOr mime))) :
    filesOf P W mime bytes = [] := by
  rw [filesOf]
  generalize canonicalMime (storedMimeOr mime) = semanticMime at h ⊢
  exact if_neg h

theorem resolve_plain_files (mime : String) (limit : Nat) (hguess : P.guessFormat bytes = none) :
    (ResolvedContent.resolve P W mime bytes limit).files = filesOf P W mime bytes ∧
      (ResolvedContent.resolve P W mime bytes limit).localImage =
        localImageSourceFromFiles P W (filesOf P W mime bytes) limit := by
  unfold ResolvedContent.resolve
  rw [hguess]
  dsimp only
  rw [← filesOf]
  generalize filesOf P W mime bytes = files
  cases localImageSourceFromFiles P W files limit <;> exact ⟨rfl, rfl⟩

/-- Only one file designates an image, so a cap on the files does not matter. -/
theorem localImage_take (files : List FilePreview) :
    localImageSourceFromFiles P W (files.take (MAX_FILES + 1)) limit =
      localImageSourceFromFiles P W files limit := by
  match files with
  | [] => rfl
  | [_] => rfl
  | _ :: _ :: _ => rfl

theorem singleton_of_localImage {files : List FilePreview} {source : LocalImageSource}
    (h : localImageSourceFromFiles P W files limit = some source) : ∃ file, files = [file] := by
  unfold localImageSourceFromFiles at h
  split at h
  next file => exact ⟨file, rfl⟩
  next => cases h

end Reading

/-! ## Lists that share a beginning -/

section Shared

variable {α : Type*} {shared cut rest : List α}

theorem take_prefix_iff {n : Nat} (hcut : cut.length ≤ 1) :
    (shared ++ cut).take n <+: (shared ++ rest).take (n + 1) ↔
      n ≤ shared.length ∨ ∀ a ∈ cut, rest.head? = some a := by
  constructor
  · intro hinitial
    by_cases hlong : n ≤ shared.length
    · exact .inl hlong
    · refine .inr fun a ha => ?_
      obtain ⟨b, rfl⟩ : ∃ b, cut = [b] := List.length_eq_one_iff.mp
        (Nat.le_antisymm hcut (List.length_pos_of_mem ha))
      obtain rfl := List.mem_singleton.mp ha
      rw [List.take_of_length_le (by rw [List.length_append, List.length_singleton]; omega)]
        at hinitial
      have hrest := (List.prefix_append_right_inj shared).mp (hinitial.trans (List.take_prefix _ _))
      obtain ⟨more, hmore⟩ := hrest
      rw [← hmore]
      rfl
  · rintro (hlong | hhead)
    · rw [List.take_append_of_le_length hlong]
      have htake : (shared ++ rest).take n = shared.take n := List.take_append_of_le_length hlong
      rw [← htake]
      exact List.take_prefix_take_left (Nat.le_succ n)
    · have hinitial : cut <+: rest := by
        match cut, hcut, hhead with
        | [], _, _ => exact List.nil_prefix
        | [a], _, hhead =>
            obtain ⟨more, rfl⟩ : ∃ more, rest = a :: more :=
              List.head?_eq_some_iff.mp (hhead a (List.mem_singleton_self a))
            exact ⟨more, rfl⟩
      have htake := ((List.prefix_append_right_inj shared).mpr hinitial).take n
      exact htake.trans (List.take_prefix_take_left (Nat.le_succ n))

/-- A single element stays single when what follows the cut adds none. -/
theorem append_eq_singleton {n : Nat} {a : α} (hsingle : shared ++ cut = [a]) (hn : 1 < n)
    (hhead : n ≤ shared.length ∨ ∀ a ∈ cut, rest.head? = some a) (hle : rest.length ≤ cut.length) :
    shared ++ rest = [a] := by
  have hlength := congrArg List.length hsingle
  rw [List.length_append, List.length_singleton] at hlength
  have hhead := hhead.resolve_left (by omega)
  match cut, hhead with
  | [], _ => rw [List.length_eq_zero_iff.mp (Nat.le_zero.mp hle), hsingle]
  | b :: bs, hhead =>
      obtain ⟨more, rfl⟩ : ∃ more, rest = b :: more :=
        List.head?_eq_some_iff.mp (hhead b (List.mem_cons_self ..))
      simp only [List.length_cons] at hlength hle
      obtain rfl : bs = [] := List.length_eq_zero_iff.mp (by omega)
      obtain rfl : more = [] := List.length_eq_zero_iff.mp (by simpa using hle)
      exact hsingle

end Shared

/-! ## The cut -/

section Cut

variable {P : Platform} {W : World} {stored : Database.StoredEntry} {maxTextBytes : Nat}

/-- A cut without files shows nothing else. -/
theorem showsContained_of_nil
    (hfiles : (ResolvedContent.resolve P W stored.mime (shownBytes stored maxTextBytes)
      MAX_THUMBNAIL_BYTES).files = [])
    (himage : (ResolvedContent.resolve P W stored.mime (shownBytes stored maxTextBytes)
      MAX_THUMBNAIL_BYTES).localImage = none) : ShowsContained P W stored maxTextBytes := by
  have hdetails : (entryDetails P W stored maxTextBytes).files = [] := by
    change List.take _ (ResolvedContent.resolve P W stored.mime (shownBytes stored maxTextBytes)
      MAX_THUMBNAIL_BYTES).files = []
    rw [hfiles, List.take_nil]
  refine ⟨?_, ?_, fun source hsource => ?_⟩
  · rw [hdetails]
    exact Nat.zero_le _
  · rw [hdetails]
    exact List.nil_prefix
  · rw [himage] at hsource
    cases hsource

/-- The lines of a payload that continues a text. -/
theorem named_full (mime : String) {text full : String} {rest : Bytes}
    (htext : fromUtf8 (shownBytes stored maxTextBytes) = some text)
    (hrest : stored.bytes = shownBytes stored maxTextBytes ++ rest)
    (hfull : fromUtf8 stored.bytes = some full) :
    named P W mime (lines full) = named P W mime (completeLines text) ++
      namedAfter P W mime (completeLines text) (lines (String.ofList
        ((fragment text).toList ++ full.toList.drop text.toList.length))) := by
  rw [hrest, fromUtf8_append htext] at hfull
  obtain ⟨more, -, rfl⟩ := Option.map_eq_some_iff.mp hfull
  rw [String.toList_ofList, List.drop_left, lines_append, named_append]

theorem named_cut (mime text : String) :
    named P W mime (lines text) = named P W mime (completeLines text) ++
      namedAfter P W mime (completeLines text) [fragment text] := by
  rw [lines_eq]
  split
  next hblank => rw [hblank, namedAfter_blank, List.append_nil, List.append_nil]
  next => exact named_append _ _

/-- For a text of files, the files shown are the first ones of the payload exactly when the
cut falls well. -/
theorem showsContained_iff_cutsWell {text full : String} {rest : Bytes}
    (hmime : NamesFiles (canonicalMime (storedMimeOr stored.mime)))
    (hinline : P.guessFormat stored.bytes = none)
    (hguess : P.guessFormat (shownBytes stored maxTextBytes) = none)
    (htext : fromUtf8 (shownBytes stored maxTextBytes) = some text)
    (hrest : stored.bytes = shownBytes stored maxTextBytes ++ rest)
    (hfull : fromUtf8 stored.bytes = some full) :
    ShowsContained P W stored maxTextBytes ↔
      CutsWell P W (canonicalMime (storedMimeOr stored.mime)) text full := by
  obtain ⟨hcutFiles, hcutImage⟩ := resolve_plain_files (P := P) (W := W) stored.mime
    MAX_THUMBNAIL_BYTES hguess
  obtain ⟨hfullFiles, hfullImage⟩ := resolve_plain_files (P := P) (W := W) stored.mime
    MAX_THUMBNAIL_BYTES hinline
  have hdetails : (entryDetails P W stored maxTextBytes).files =
      (filesOf P W stored.mime (shownBytes stored maxTextBytes)).take MAX_FILES := by
    rw [← hcutFiles]
    rfl
  have hfiles : ∀ bytes, filesOf P W stored.mime bytes =
      parseFiles P W (canonicalMime (storedMimeOr stored.mime)) bytes :=
    fun bytes => filesOf_eq bytes hmime
  generalize canonicalMime (storedMimeOr stored.mime) = semanticMime at hmime hfiles ⊢
  have hcut := named_cut (P := P) (W := W) semanticMime text
  have hall := named_full (P := P) (W := W) semanticMime htext hrest hfull
  rw [hfiles, parseFiles_eq, htext] at hcutFiles hcutImage hdetails
  rw [hfiles, parseFiles_eq, hfull] at hfullFiles hfullImage
  dsimp only at hcutFiles hcutImage hdetails hfullFiles hfullImage
  rw [localImage_take] at hcutImage hfullImage
  rw [List.take_take, Nat.min_eq_left (Nat.le_succ _)] at hdetails
  generalize hshared : named P W semanticMime (completeLines text) = shared at hcut hall
  generalize hfragment : namedAfter P W semanticMime (completeLines text) [fragment text] =
    cut at hcut
  generalize hafter : namedAfter P W semanticMime (completeLines text) (lines (String.ofList
    ((fragment text).toList ++ full.toList.drop text.toList.length))) = after at hall
  have hcutLength : cut.length ≤ 1 := by
    rw [← hfragment]
    exact (length_namedAfter_le _ _).trans (List.length_filter_le _ _)
  have huri : (entryDetails P W stored maxTextBytes).files <+:
      (ResolvedContent.resolve P W stored.mime stored.bytes MAX_THUMBNAIL_BYTES).files ↔
        MAX_FILES ≤ shared.length ∨ ∀ file ∈ cut, after.head? = some file := by
    rw [hdetails, hfullFiles, hcut, hall]
    exact take_prefix_iff hcutLength
  constructor
  · rintro ⟨-, hinitial, himage⟩
    refine ⟨?_, fun hsome => ?_⟩
    · rw [hshared, hfragment, hafter]
      exact huri.mp hinitial
    · rw [hfragment, hafter]
      obtain ⟨source, hsource⟩ := Option.isSome_iff_exists.mp hsome
      have hwhole := himage source (hcutImage.trans hsource)
      obtain ⟨file, hfile⟩ := singleton_of_localImage hsource
      obtain ⟨file', hfile'⟩ := singleton_of_localImage (hfullImage.symm.trans hwhole)
      have hlength := congrArg List.length (hcut.symm.trans hfile)
      have hlength' := congrArg List.length (hall.symm.trans hfile')
      rw [List.length_append, List.length_singleton] at hlength hlength'
      omega
  · rintro ⟨hwell, hsingle⟩
    rw [hshared, hfragment, hafter] at hwell
    rw [hfragment, hafter] at hsingle
    refine ⟨?_, huri.mpr hwell, fun source hsource => ?_⟩
    · rw [hdetails, List.length_take]
      exact Nat.min_le_left _ _
    · have hcutSource := hcutImage.symm.trans hsource
      obtain ⟨file, hfile⟩ := singleton_of_localImage hcutSource
      have hwhole := append_eq_singleton (hcut.symm.trans hfile) (by decide) hwell
        (hsingle (by rw [hcutSource]; rfl))
      rw [hfullImage, hall, hwhole, ← hfile, hcutSource]

end Cut

/-- An entry that is no inline image shows only files of its payload, and is shown as a local
image only if the payload is one, exactly when the cut is harmless. -/
theorem details_files_iff (P : Platform) (W : World) (stored : Database.StoredEntry)
    (maxTextBytes : Nat) (hinline : P.guessFormat stored.bytes = none) :
    ShowsContained P W stored maxTextBytes ↔ CutHarmless P W stored maxTextBytes := by
  cases hguess : P.guessFormat (shownBytes stored maxTextBytes) with
  | some detected =>
      refine iff_of_true
        (showsContained_of_nil ?_ (ResolvedContent.localImage_of_guessFormat hguess))
        fun _ hnone => by rw [hguess] at hnone; cases hnone
      simp [ResolvedContent.resolve, hguess]
  | none =>
      obtain ⟨hfiles, himage⟩ := resolve_plain_files (P := P) (W := W) stored.mime
        MAX_THUMBNAIL_BYTES hguess
      have hnil : filesOf P W stored.mime (shownBytes stored maxTextBytes) = [] →
          ShowsContained P W stored maxTextBytes := fun hempty => by
        refine showsContained_of_nil (hfiles.trans hempty) ?_
        rw [himage, hempty]
        rfl
      by_cases hmime : NamesFiles (canonicalMime (storedMimeOr stored.mime))
      · have hnamed := filesOf_eq (P := P) (W := W) (shownBytes stored maxTextBytes) hmime
        rw [parseFiles_eq] at hnamed
        cases htext : fromUtf8 (shownBytes stored maxTextBytes) with
        | none =>
            rw [htext] at hnamed
            exact iff_of_true (hnil hnamed) fun _ _ text hno => by rw [htext] at hno; cases hno
        | some text =>
            rw [htext] at hnamed
            dsimp only at hnamed
            have hempty : named P W (canonicalMime (storedMimeOr stored.mime)) (lines text) = [] →
                ShowsContained P W stored maxTextBytes := fun hno => by
              rw [hno] at hnamed
              exact hnil hnamed
            have hharmless : CutHarmless P W stored maxTextBytes ↔
                named P W (canonicalMime (storedMimeOr stored.mime)) (lines text) = [] ∨
                ∃ full, fromUtf8 stored.bytes = some full ∧
                  CutsWell P W (canonicalMime (storedMimeOr stored.mime)) text full := by
              refine ⟨fun h => h hmime hguess text htext, fun h _ _ text' htext' => ?_⟩
              rw [htext] at htext'
              exact Option.some.inj htext' ▸ h
            rw [hharmless]
            cases hfull : fromUtf8 stored.bytes with
            | none =>
                refine ⟨fun h => .inl ?_, fun h => hempty (h.resolve_right ?_)⟩
                · obtain ⟨hwhole, -⟩ := resolve_plain_files (P := P) (W := W) stored.mime
                    MAX_THUMBNAIL_BYTES hinline
                  have hnone : filesOf P W stored.mime stored.bytes = [] := by
                    rw [filesOf_eq _ hmime, parseFiles_eq, hfull]
                  have hinitial := h.files
                  rw [hwhole, hnone, List.prefix_nil] at hinitial
                  have hdetails : (entryDetails P W stored maxTextBytes).files =
                      (filesOf P W stored.mime (shownBytes stored maxTextBytes)).take
                        MAX_FILES := by
                    rw [← hfiles]
                    rfl
                  rw [hdetails, hnamed] at hinitial
                  simpa [MAX_FILES] using hinitial
                · rintro ⟨full, hno, -⟩
                  cases hno
            | some full =>
                have hrest : stored.bytes = shownBytes stored maxTextBytes ++
                    stored.bytes.drop (min maxTextBytes MAX_DETAILS_BYTES) :=
                  (List.take_append_drop _ _).symm
                have hwell := showsContained_iff_cutsWell
                  (W := W) hmime hinline hguess htext hrest hfull
                constructor
                · exact fun h => .inr ⟨full, rfl, hwell.mp h⟩
                · rintro (hno | ⟨full', hfull', h⟩)
                  · exact hempty hno
                  · exact hwell.mpr (Option.some.inj hfull' ▸ h)
      · exact iff_of_true (hnil (filesOf_eq_nil hmime)) fun hno => absurd hno hmime

/-- A stored list of files. -/
def listed (text : String) : Database.StoredEntry where
  summary := ⟨"entry-1", 1, .files, "text/uri-list", byteLen text, false, true, ""⟩
  mime := "text/uri-list"
  bytes := asBytes text

/-- A cut between two files shows the first one. -/
theorem details_files_iff_between :
    ShowsContained .png .empty (listed "file:///a\nfile:///b\n") 10 := by
  refine (details_files_iff .png .empty _ 10 (by decide)).mpr fun _ _ text htext => .inr ?_
  have htext' :
      fromUtf8 (shownBytes (listed "file:///a\nfile:///b\n") 10) = some "file:///a\n" := by
    decide +kernel
  obtain rfl := Option.some.inj (htext.symm.trans htext')
  refine ⟨"file:///a\nfile:///b\n", by decide +kernel, .inr (by decide +kernel), ?_⟩
  decide +kernel

/-- A cut inside a URI names a file that the payload does not, and a cut after an image shows
a list of two files as that image. -/
theorem details_foreign_file :
    (Platform.png.guessFormat (listed "file:///ab").bytes = none ∧
      (entryDetails .png .empty (listed "file:///ab") 9).files.map (·.uri) = ["file:///a"] ∧
      ¬ShowsContained .png .empty (listed "file:///ab") 9) ∧
    Platform.png.guessFormat (listed "file:///p.png\nfile:///b").bytes = none ∧
      (entryDetails .png .generated (listed "file:///p.png\nfile:///b") 13).image.isSome ∧
      ¬ShowsContained .png .generated (listed "file:///p.png\nfile:///b") 13 := by
  have huris : (entryDetails .png .empty (listed "file:///ab") 9).files.map (·.uri) =
        ["file:///a"] ∧
      (ResolvedContent.resolve .png .empty "text/uri-list" (asBytes "file:///ab")
        MAX_THUMBNAIL_BYTES).files.map (·.uri) = ["file:///ab"] := by decide +kernel
  have himages :
      (entryDetails .png .generated (listed "file:///p.png\nfile:///b") 13).image.isSome ∧
      (ResolvedContent.resolve .png .generated "text/uri-list"
        (shownBytes (listed "file:///p.png\nfile:///b") 13) MAX_THUMBNAIL_BYTES).localImage.isSome ∧
      (ResolvedContent.resolve .png .generated "text/uri-list"
        (asBytes "file:///p.png\nfile:///b") MAX_THUMBNAIL_BYTES).localImage = none := by
    decide +kernel
  refine ⟨⟨by decide +kernel, huris.1, fun h => ?_⟩, by decide +kernel, himages.1, fun h => ?_⟩
  · have hinitial := h.files.map (·.uri)
    rw [huris.1] at hinitial
    change _ <+: (ResolvedContent.resolve .png .empty "text/uri-list" (asBytes "file:///ab")
      MAX_THUMBNAIL_BYTES).files.map (·.uri) at hinitial
    rw [huris.2] at hinitial
    exact absurd hinitial (by decide)
  · obtain ⟨source, hsource⟩ := Option.isSome_iff_exists.mp himages.2.1
    have hwhole := h.image source hsource
    exact nomatch himages.2.2.symm.trans hwhole

end ClipDaemon
