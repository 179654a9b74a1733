import ClipDaemon.History.RoundTrip

/-!
# Thumbnails

A thumbnail is rendered once and kept in a directory of the cache (`history/content.rs`), in
a file named after the entry, its revision and the edge.  A request looks for the file
first, and renders only when there is none an image reader can open.

An entry and a revision never stand for two contents (`Tables.snapshot` advances), so the
kept files are a memo table that stays fresh under every step of the history.  What they do not
follow is the file that an entry points to: `thumbnails_agree` holds of the runs that leave
it alone once a thumbnail of it is kept, and in `thumbnail_outlives_file` it is removed.
-/

namespace ClipDaemon

open Transition

/-! ## Rendering -/

/-- What the image library does with a decoded image. -/
structure Imaging (Img : Type) where
  /-- Decoding within the daemon's limits. -/
  decode : Bytes → Option Img
  /-- `DynamicImage::thumbnail` with one edge for both dimensions. -/
  thumbnail : Img → Nat → Img
  dimensions : Img → ImageMetadata
  /-- The bytes of the PNG an image is saved as. -/
  png : Img → Bytes

/-- A thumbnail that was saved is read with its dimensions. -/
def Imaging.ReadsBack {Img : Type} (P : Platform) (I : Imaging Img) : Prop :=
  ∀ image edge, 32 ≤ edge → edge ≤ 1024 →
    P.intoDimensions (I.png (I.thumbnail image edge)) = some (I.dimensions (I.thumbnail image edge))

/-- The thumbnail that is returned. -/
structure EntryThumbnail where
  entryId : String
  revision : Nat
  path : String
  width : Nat
  height : Nat
deriving DecidableEq

/-- `edge.clamp(32, 1024)`. -/
def clampEdge (edge : Nat) : Nat := max 32 (min edge 1024)

/-- The name of the kept file. -/
def thumbnailName (id : String) (revision edge : Nat) : String :=
  id ++ "-" ++ revision.repr ++ "-" ++ edge.repr ++ ".png"

/-- What is returned for the file that was kept. -/
def entryThumbnail (summary : EntrySummary) (edge : Nat) (dimensions : ImageMetadata) :
    EntryThumbnail where
  entryId := summary.id
  revision := summary.revision
  path := thumbnailName summary.id summary.revision edge
  width := dimensions.width
  height := dimensions.height

section Source

variable {Img : Type} (P : Platform) (I : Imaging Img) (W : World)

/-- The image is decoded, or it is none. -/
def decodeImage (source : Bytes) : BackendResult Img :=
  match I.decode source with
  | some image => .ok image
  | none => .error (invalidData "Clipboard image could not be decoded")

/-- The image of an entry: its payload, or the file that the payload points to. -/
def sourceImage (byteSize : Nat) (bytes : Bytes) : Option ResolvedImage → BackendResult Img
  | some (.inline _ _) =>
      if byteSize ≤ MAX_THUMBNAIL_BYTES then decodeImage I bytes
      else .error (invalidData "Clipboard entry cannot be thumbnailed")
  | some (.localFile source) => do
      let bytes ← readPath W source.path MAX_THUMBNAIL_BYTES
      decodeImage I bytes
  | none => .error (invalidData "Clipboard entry cannot be thumbnailed")

/-- The image an entry is resolved to. -/
def resolvedImage (mime : String) (bytes : Bytes) : Option ResolvedImage :=
  (ResolvedContent.resolve P W mime bytes MAX_THUMBNAIL_BYTES).image

/-- What rendering an entry gives: the reply and the bytes of the image. -/
def rendering (t : Tables) (id : String) (expected : Option Nat) (edge : Nat) :
    BackendResult (EntryThumbnail × Bytes) := do
  let (stored, _) ← (Database.get id expected).eval t
  let image ← sourceImage I W stored.summary.byteSize stored.bytes
    (resolvedImage P W stored.mime stored.bytes)
  let thumbnail := I.thumbnail image (clampEdge edge)
  pure (entryThumbnail stored.summary (clampEdge edge) (I.dimensions thumbnail), I.png thumbnail)

end Source

/-! ## The cache -/

/-- A file of the thumbnail directory. -/
structure CachedFile where
  name : String
  isFile : Bool
  modified : Option Nat
  bytes : Bytes
deriving DecidableEq

/-- How saving a thumbnail ends.  A failed save leaves the former file or some bytes. -/
inductive Saving
  | written
  | failed (left : Option Bytes)
deriving DecidableEq

/-- A request, with what it meets outside the history. -/
structure ThumbnailRequest where
  id : String
  expected : Option Nat
  edge : Nat
  /-- The store opens. -/
  store : BackendResult Unit
  /-- The place of the cache is known. -/
  cacheRoot : Bool
  /-- The thumbnail directory is there and private. -/
  directory : Bool
  /-- The directory can be listed. -/
  listed : Bool
  /-- The files that can be removed. -/
  removes : String → Bool
  /-- The kept file can be opened. -/
  opens : Bool
  saving : Saving
  /-- The time of the save. -/
  now : Option Nat
  /-- The saved file was made private. -/
  isPrivate : Bool

/-- `str::parse` of an unsigned number below a bound. -/
def parseUnsigned (bound : Nat) (cs : List Char) : Option Nat :=
  let digits := if cs.head? = some '+' then cs.tail else cs
  if digits ≠ [] ∧ digits.all Char.isDigit ∧ Nat.ofDigitChars 10 digits 0 < bound then
    some (Nat.ofDigitChars 10 digits 0)
  else none

/-- `entry-<uuid>-<revision>-<edge>.png`; any character may stand behind the UUID. -/
def thumbnailFile (isUuid : String → Bool) (name : String) : Bool :=
  let rest := name.toList.drop 6
  let middle := rest.take (rest.length - 4)
  "entry-".toList.isPrefixOf name.toList && ".png".toList.isSuffixOf rest &&
    36 ≤ middle.length && isUuid (String.ofList (middle.take 36)) &&
    match middle.drop 36 with
    | [] => false
    | separator :: rest => separator.toNat < 0x80 &&
        (splitOnce ['-'] rest).any fun (revision, edge) =>
          (parseUnsigned (2 ^ 64) revision).isSome && (parseUnsigned (2 ^ 32) edge).isSome

/-- The order of modification times; a file without one comes first. -/
def modifiedOrder (a b : CachedFile) : Prop :=
  ∀ m ∈ a.modified, ∃ n ∈ b.modified, m ≤ n

instance : DecidableRel modifiedOrder := fun a b =>
  match ha : a.modified, hb : b.modified with
  | none, _ => .isTrue (by simp [modifiedOrder, ha])
  | some _, none => .isFalse (by simp [modifiedOrder, ha, hb])
  | some m, some n => decidable_of_iff (m ≤ n) (by simp [modifiedOrder, ha, hb])

/-- Of the first files of the directory, all thumbnails but the newest are removed. -/
def pruneThumbnailCache (isUuid : String → Bool) (removes : String → Bool)
    (cache : List CachedFile) : List CachedFile :=
  let cached := ((cache.take 1024).filter fun file =>
    thumbnailFile isUuid file.name && file.isFile).insertionSort modifiedOrder
  let removed := (cached.take (cached.length - 255)).map (·.name)
  cache.filter fun file => !(removed.contains file.name && removes file.name)

/-- The directory of thumbnails, which is pruned first. -/
def thumbnailDirectory (isUuid : String → Bool) (q : ThumbnailRequest) (cache : List CachedFile) :
    BackendResult (List CachedFile) :=
  if !q.cacheRoot then .error (.unavailable "Clipboard cache directory is unavailable")
  else if !q.directory then .error (.unavailable "Clipboard thumbnail cache is unavailable")
  else if q.listed then .ok (pruneThumbnailCache isUuid q.removes cache)
  else .ok cache

/-- What is kept under a name. -/
def cachedBytes (cache : List CachedFile) (name : String) : Option Bytes :=
  (cache.find? fun file => file.name = name).map (·.bytes)

/-- The dimensions of a kept thumbnail that opens. -/
def cachedDimensions (P : Platform) (q : ThumbnailRequest) (cache : List CachedFile)
    (name : String) : Option ImageMetadata :=
  if q.opens then (cachedBytes cache name).bind P.intoDimensions else none

/-- A file is written in the place of the former one. -/
def overwrite (q : ThumbnailRequest) (name : String) (bytes : Bytes) (cache : List CachedFile) :
    List CachedFile :=
  (cache.filter fun file => file.name ≠ name) ++ [⟨name, true, q.now, bytes⟩]

/-- `save_with_format` and the permissions of the file. -/
def saveThumbnail (q : ThumbnailRequest) (name : String) (bytes : Bytes)
    (cache : List CachedFile) : BackendResult Unit × List CachedFile :=
  match q.saving with
  | .failed none => (.error (invalidData "Clipboard thumbnail could not be written"), cache)
  | .failed (some left) =>
      (.error (invalidData "Clipboard thumbnail could not be written"), overwrite q name left cache)
  | .written =>
      (if q.isPrivate then .ok ()
        else .error (.unavailable "Clipboard thumbnail cache is unavailable"),
        overwrite q name bytes cache)

/-- The cache is tried, and what it does not hold is rendered and saved. -/
def thumbnailSync {Img : Type} (P : Platform) (I : Imaging Img) (isUuid : String → Bool) (W : World)
    (t : Tables) (q : ThumbnailRequest) (cache : List CachedFile) :
    BackendResult EntryThumbnail × List CachedFile :=
  match q.store.bind fun _ => (Database.get q.id q.expected).eval t with
  | .error error => (.error error, cache)
  | .ok (stored, _) =>
      let content := resolvedImage P W stored.mime stored.bytes
      let edge := clampEdge q.edge
      match thumbnailDirectory isUuid q cache with
      | .error error => (.error error, cache)
      | .ok cache =>
          let path := thumbnailName stored.summary.id stored.summary.revision edge
          match cachedDimensions P q cache path with
          | some dimensions => (.ok (entryThumbnail stored.summary edge dimensions), cache)
          | none =>
              match sourceImage I W stored.summary.byteSize stored.bytes content with
              | .error error => (.error error, cache)
              | .ok image =>
                  let thumbnail := I.thumbnail image edge
                  let (saved, cache) := saveThumbnail q path (I.png thumbnail) cache
                  (saved.map fun _ => entryThumbnail stored.summary edge (I.dimensions thumbnail),
                    cache)

/-! ## What a request does to the cache -/

theorem thumbnailName_inj {id id' : String} {revision revision' edge edge' : Nat}
    (h : thumbnailName id revision edge = thumbnailName id' revision' edge') :
    id = id' ∧ revision = revision' ∧ edge = edge' := by
  have hrepr : ∀ {m n : Nat}, m.repr = n.repr → m = n := by
    intro m n hmn
    have hlist := congrArg String.toList hmn
    rw [Nat.toList_repr, Nat.toList_repr] at hlist
    have hnumber := congrArg (Nat.ofDigitChars 10 · 0) hlist
    simpa only [Nat.ofDigitChars_ten_toDigits] using hnumber
  have hdash : ∀ n : Nat, '-' ∉ n.repr.toList := by
    intro n hn
    rw [Nat.toList_repr] at hn
    exact absurd (Nat.isDigit_of_mem_toDigits (by decide) (by decide) hn) (by decide)
  have hname : ∀ (id : String) (revision edge : Nat), rsplitOnce '-'
      (thumbnailName id revision edge) =
      some (id ++ "-" ++ revision.repr, edge.repr ++ ".png") := by
    intro id revision edge
    have hlast : '-' ∉ (edge.repr ++ ".png").toList := by
      rw [String.toList_append, List.mem_append, not_or]
      exact ⟨hdash edge, by decide⟩
    rw [thumbnailName, String.append_assoc]
    exact rsplitOnce_append _ _ hlast
  have hparts := (hname id revision edge).symm.trans (h ▸ hname id' revision' edge')
  obtain ⟨hfirst, hlast⟩ := Prod.mk.inj (Option.some.inj hparts)
  have hsplit := (rsplitOnce_append id revision.repr (hdash revision)).symm.trans
    ((congrArg (rsplitOnce '-') hfirst).trans (rsplitOnce_append id' _ (hdash revision')))
  obtain ⟨hid, hrevision⟩ := Prod.mk.inj (Option.some.inj hsplit)
  have hedge := (String.append_left_inj _).mp hlast
  exact ⟨hid, hrepr hrevision, hrepr hedge⟩

theorem clampEdge_bounds (edge : Nat) : 32 ≤ clampEdge edge ∧ clampEdge edge ≤ 1024 := by
  unfold clampEdge
  omega

section Cache

variable {q : ThumbnailRequest} {cache cache' : List CachedFile} {name : String} {bytes : Bytes}

theorem cachedBytes_mem (h : cachedBytes cache name = some bytes) :
    ∃ file ∈ cache, file.name = name ∧ file.bytes = bytes := by
  obtain ⟨file, hfind, rfl⟩ := Option.map_eq_some_iff.mp h
  have hname := List.find?_some hfind
  exact ⟨file, List.mem_of_find?_eq_some hfind, of_decide_eq_true hname, rfl⟩

theorem cachedBytes_overwrite : cachedBytes (overwrite q name bytes cache) name = some bytes := by
  have hnone : (cache.filter fun file => file.name ≠ name).find? (fun file => file.name = name) =
      none := by
    rw [List.find?_eq_none]
    intro file hfile
    simpa using (List.mem_filter.mp hfile).2
  rw [cachedBytes, overwrite, List.find?_append, hnone]
  simp

theorem mem_overwrite {file : CachedFile} (h : file ∈ overwrite q name bytes cache) :
    file ∈ cache ∨ file.name = name ∧ file.bytes = bytes := by
  rcases List.mem_append.mp h with h | h
  · exact .inl (List.mem_filter.mp h).1
  · obtain rfl := List.mem_singleton.mp h
    exact .inr ⟨rfl, rfl⟩

/-- What a save leaves: former files, the written image, and what is left of it. -/
theorem mem_saveThumbnail {file : CachedFile} (h : file ∈ (saveThumbnail q name bytes cache).2) :
    file ∈ cache ∨ q.saving = .failed (some file.bytes) ∨
      file.name = name ∧ file.bytes = bytes := by
  unfold saveThumbnail at h
  split at h
  next => exact .inl h
  next left hsaving =>
    rcases mem_overwrite h with h | ⟨-, rfl⟩
    · exact .inl h
    · exact .inr (.inl hsaving)
  next =>
    rcases mem_overwrite h with h | h
    · exact .inl h
    · exact .inr (.inr h)

theorem saveThumbnail_ok (h : (saveThumbnail q name bytes cache).1 = .ok ()) :
    cachedBytes (saveThumbnail q name bytes cache).2 name = some bytes := by
  unfold saveThumbnail at h ⊢
  split at h
  next => cases h
  next => cases h
  next hsaving => exact cachedBytes_overwrite

theorem thumbnailDirectory_subset {isUuid : String → Bool}
    (h : thumbnailDirectory isUuid q cache = .ok cache') : cache' ⊆ cache := by
  unfold thumbnailDirectory at h
  split at h
  · cases h
  · split at h
    · cases h
    · split at h
      · obtain rfl := Except.ok.inj h
        exact List.filter_sublist.subset
      · obtain rfl := Except.ok.inj h
        exact List.Subset.refl _

end Cache

/-- How a request is served: it fails early, a kept file is found, or the entry is rendered. -/
inductive Served {Img : Type} (P : Platform) (I : Imaging Img) (W : World) (t : Tables)
    (q : ThumbnailRequest) (cache : List CachedFile) :
    BackendResult EntryThumbnail × List CachedFile → Prop
  | refused (error : BackendError) (left : List CachedFile) (hleft : left ⊆ cache) :
      Served P I W t q cache (.error error, left)
  | found (stored : Database.StoredEntry) (left : List CachedFile) (bytes : Bytes)
      (dimensions : ImageMetadata) (hleft : left ⊆ cache)
      (hget : (Database.get q.id q.expected).eval t = .ok (stored, t))
      (hkept : cachedBytes left
        (thumbnailName stored.summary.id stored.summary.revision (clampEdge q.edge)) = some bytes)
      (hdimensions : P.intoDimensions bytes = some dimensions) :
      Served P I W t q cache
        (.ok (entryThumbnail stored.summary (clampEdge q.edge) dimensions), left)
  | rendered (stored : Database.StoredEntry) (left : List CachedFile) (image : Img)
      (hleft : left ⊆ cache) (hget : (Database.get q.id q.expected).eval t = .ok (stored, t))
      (himage : sourceImage I W stored.summary.byteSize stored.bytes
        (resolvedImage P W stored.mime stored.bytes) = .ok image) :
      Served P I W t q cache
        ((saveThumbnail q
            (thumbnailName stored.summary.id stored.summary.revision (clampEdge q.edge))
            (I.png (I.thumbnail image (clampEdge q.edge))) left).1.map
          (fun _ => entryThumbnail stored.summary (clampEdge q.edge)
            (I.dimensions (I.thumbnail image (clampEdge q.edge)))),
          (saveThumbnail q
            (thumbnailName stored.summary.id stored.summary.revision (clampEdge q.edge))
            (I.png (I.thumbnail image (clampEdge q.edge))) left).2)

section Request

variable {Img : Type} (P : Platform) (I : Imaging Img) (isUuid : String → Bool) (W : World)
  (t : Tables) (q : ThumbnailRequest) (cache : List CachedFile)

theorem thumbnailSync_served : Served P I W t q cache (thumbnailSync P I isUuid W t q cache) := by
  unfold thumbnailSync
  split
  next error _ => exact .refused error cache (List.Subset.refl _)
  next stored t' hstored =>
    have hget : (Database.get q.id q.expected).eval t = .ok (stored, t) := by
      cases hstore : q.store with
      | error error =>
          rw [hstore] at hstored
          cases hstored
      | ok _ =>
          rw [hstore] at hstored
          change (Database.get q.id q.expected).eval t = .ok (stored, t') at hstored
          obtain ⟨e, -, heq⟩ := get_ok hstored
          obtain ⟨-, rfl⟩ := Prod.mk.inj heq
          exact hstored
    split
    next error _ => exact .refused error cache (List.Subset.refl _)
    next left hleft =>
      have hleft := thumbnailDirectory_subset hleft
      dsimp only
      split
      next dimensions hdimensions =>
        unfold cachedDimensions at hdimensions
        split at hdimensions
        · obtain ⟨bytes, hkept, hdimensions⟩ := Option.bind_eq_some_iff.mp hdimensions
          exact .found stored left bytes dimensions hleft hget hkept hdimensions
        · cases hdimensions
      next =>
        split
        next error _ => exact .refused error left hleft
        next image himage => exact .rendered stored left image hleft hget himage

end Request

/-! ## Runs -/

/-- The history, the files around it and the thumbnail directory. -/
structure Gallery where
  store : Store
  files : World
  cache : List CachedFile

/-- A thumbnail is requested, the history takes a step, or files are changed from outside. -/
inductive GalleryTurn
  | thumbnail (q : ThumbnailRequest)
  | store (op : DatabaseOp)
  | files (files : World) (cache : List CachedFile)

/-- What an entry points to is the same in two states of the files. -/
structure SameSource (P : Platform) (W W' : World) (mime : String) (bytes : Bytes) : Prop where
  image : resolvedImage P W' mime bytes = resolvedImage P W mime bytes
  read : ∀ source, resolvedImage P W mime bytes = some (.localFile source) →
    readPath W' source.path MAX_THUMBNAIL_BYTES = readPath W source.path MAX_THUMBNAIL_BYTES

/-- A thumbnail is kept that an image reader can open. -/
def Holds (P : Platform) (cache : List CachedFile) (id : String) (revision edge : Nat)
    (bytes : Bytes) : Prop :=
  (∃ file ∈ cache, file.name = thumbnailName id revision edge ∧ file.bytes = bytes) ∧
    (P.intoDimensions bytes).isSome

/-! ## Kept thumbnails are fresh -/

/-- The payload of an item. -/
def Item.bytes (i : Item) : Bytes := ((i.payload.head?).map (·.bytes)).getD []

/-- What rendering an item at an edge gives. -/
def Renders {Img : Type} (P : Platform) (I : Imaging Img) (W : World) (i : Item) (edge : Nat)
    (bytes : Bytes) : Prop :=
  ∃ image, sourceImage I W i.bytes.length i.bytes (resolvedImage P W i.mime i.bytes) = .ok image ∧
    bytes = I.png (I.thumbnail image edge)

section Items

variable {Img : Type} {P : Platform} {I : Imaging Img} {W W' : World} {t : Tables}

theorem SameSource.sourceImage_eq {mime : String} {bytes : Bytes} {byteSize : Nat}
    (h : SameSource P W W' mime bytes) :
    sourceImage I W' byteSize bytes (resolvedImage P W' mime bytes) =
      sourceImage I W byteSize bytes (resolvedImage P W mime bytes) := by
  rw [h.image]
  cases hresolved : resolvedImage P W mime bytes with
  | none => rfl
  | some image =>
      cases image with
      | inline _ _ => rfl
      | localFile source => simp only [sourceImage, h.read source hresolved]

/-- A stored entry that was read is an item, and its size is the length of its payload. -/
theorem get_item {id : String} {expected : Option Nat} {stored : Database.StoredEntry}
    (hw : WellFormed P t) (h : (Database.get id expected).eval t = .ok (stored, t)) :
    ∃ e ∈ t.entries, stored.summary.id = e.id ∧ stored.summary.revision = e.revision ∧
      stored.mime = (t.item e).mime ∧ stored.bytes = (t.item e).bytes ∧
      stored.summary.byteSize = (t.item e).bytes.length := by
  obtain ⟨e, hfind, heq⟩ := get_ok h
  obtain ⟨he, rfl⟩ := Database.findEntry_some hfind
  obtain ⟨rfl, -⟩ := Prod.mk.inj heq
  obtain ⟨content, hc⟩ := hw.contents
  have hsize : e.byteSize = (t.bytesOf e.id).length := by
    rw [bytesOf_eq hc hw.stamped he, hc.size e he]
  exact ⟨e, he, rfl, rfl, rfl, rfl, hsize⟩

end Items

namespace Gallery

variable {Img : Type}

/-- An empty store, and no thumbnails. -/
def start (W : World) : Gallery := ⟨.fresh, W, []⟩

def step (P : Platform) (I : Imaging Img) (isUuid : String → Bool) (g : Gallery) :
    GalleryTurn → Gallery
  | .thumbnail q =>
      { g with cache := (thumbnailSync P I isUuid g.files g.store.committed q g.cache).2 }
  | .store op => { g with store := g.store.step P op }
  | .files files cache => { g with files, cache }

/-- A failed save leaves nothing that opens as an image.  From outside, thumbnails are only
removed, and the file that an entry points to is left alone once a thumbnail of it is kept. -/
def Undisturbed (P : Platform) (g : Gallery) : GalleryTurn → Prop
  | .thumbnail q => ∀ left, q.saving = .failed (some left) → P.intoDimensions left = none
  | .store _ => True
  | .files files cache => cache ⊆ g.cache ∧ ∀ e ∈ g.store.committed.entries,
      (∃ edge bytes, Holds P g.cache e.id e.revision edge bytes) →
        SameSource P g.files files e.mime (g.store.committed.bytesOf e.id)

/-- A request that succeeds gives what rendering gives, and the image of that is kept where
the reply says. -/
def Agrees (P : Platform) (I : Imaging Img) (isUuid : String → Bool) (g : Gallery)
    (q : ThumbnailRequest) : Prop :=
  ∀ thumbnail cache,
    thumbnailSync P I isUuid g.files g.store.committed q g.cache = (.ok thumbnail, cache) →
      ∃ bytes, rendering P I g.files g.store.committed q.id q.expected q.edge =
          .ok (thumbnail, bytes) ∧
        cachedBytes cache thumbnail.path = some bytes

variable {P : Platform} {I : Imaging Img} {isUuid : String → Bool} {g : Gallery}

/-- What holds in every state of an undisturbed run. -/
structure Inv (P : Platform) (I : Imaging Img) (g : Gallery) : Prop where
  wellFormed : WellFormed P g.store.committed
  fresh : Versions.Fresh Item.id Item.revision (Renders P I g.files) g.store.committed.snapshot
    (Holds P g.cache)

theorem start_inv (W : World) : Inv P I (start W) where
  wellFormed := Tables.fresh_wellFormed P
  fresh :=
    ⟨fun _ _ _ _ h => absurd h.1 (by simp [start]), fun _ _ _ _ h => absurd h.1 (by simp [start])⟩

theorem holds_mono {cache cache' : List CachedFile} (hsub : cache' ⊆ cache) {id : String}
    {revision edge : Nat} {bytes : Bytes} (h : Holds P cache' id revision edge bytes) :
    Holds P cache id revision edge bytes := by
  obtain ⟨⟨file, hfile, hname⟩, hreads⟩ := h
  exact ⟨⟨file, hsub hfile, hname⟩, hreads⟩

theorem Inv.step (h : Inv P I g) {turn : GalleryTurn} (hok : Undisturbed P g turn) :
    Inv P I (g.step P I isUuid turn) := by
  cases turn with
  | store op =>
      have hchange := Store.step_change P g.store op
      exact ⟨hchange.wellFormed h.wellFormed, h.fresh.advance (hchange.advances h.wellFormed)⟩
  | files files cache =>
      refine ⟨h.wellFormed, (h.fresh.revalue ?_).drop fun _ _ _ _ => holds_mono hok.1⟩
      rintro i hi ⟨edge, bytes, hheld⟩ a v ⟨image, himage, hv⟩
      obtain ⟨e, he, rfl⟩ := List.mem_map.mp hi
      have hsame := hok.2 e he ⟨edge, bytes, hheld⟩
      exact ⟨image, (hsame.sourceImage_eq (I := I)).trans himage, hv⟩
  | thumbnail q =>
      refine ⟨h.wellFormed, ?_⟩
      change Versions.Fresh _ _ _ _
        (Holds P (thumbnailSync P I isUuid g.files g.store.committed q g.cache).2)
      have hserved := thumbnailSync_served P I isUuid g.files g.store.committed q g.cache
      generalize thumbnailSync P I isUuid g.files g.store.committed q g.cache = r at hserved
      cases hserved with
      | refused error left hleft => exact h.fresh.drop fun _ _ _ _ => holds_mono hleft
      | found stored left bytes dimensions hleft _ _ _ =>
          exact h.fresh.drop fun _ _ _ _ => holds_mono hleft
      | rendered stored left image hleft hget himage =>
          obtain ⟨e, he, hid, hrevision, hmime, hbytes, hsize⟩ := get_item h.wellFormed hget
          have hkeys : (g.store.committed.snapshot.items.map Item.id).Nodup := by
            simpa [Tables.snapshot, Tables.item, Function.comp_def] using
              h.wellFormed.stamped.ids
          refine h.fresh.add hkeys (i := g.store.committed.item e) (b := clampEdge q.edge)
            (List.mem_map_of_mem he) (h.wellFormed.stamped.revision_le e he) ?_
          rintro k n a v ⟨⟨file, hfile, hname, rfl⟩, hreads⟩
          rcases mem_saveThumbnail hfile with hfile | hfailed | ⟨hname', hpng⟩
          · exact .inl ⟨⟨file, hleft hfile, hname, rfl⟩, hreads⟩
          · rw [hok _ hfailed] at hreads
            cases hreads
          · obtain ⟨rfl, rfl, rfl⟩ := thumbnailName_inj (hname.symm.trans hname')
            rw [hmime, hbytes, hsize] at himage
            exact .inr ⟨hid, hrevision, rfl, image, himage, hpng⟩

theorem rendering_eq {W : World} {t : Tables} {id : String} {expected : Option Nat} {edge : Nat}
    {stored : Database.StoredEntry} {image : Img}
    (hget : (Database.get id expected).eval t = .ok (stored, t))
    (himage : sourceImage I W stored.summary.byteSize stored.bytes
      (resolvedImage P W stored.mime stored.bytes) = .ok image) :
    rendering P I W t id expected edge =
      .ok (entryThumbnail stored.summary (clampEdge edge)
        (I.dimensions (I.thumbnail image (clampEdge edge))),
        I.png (I.thumbnail image (clampEdge edge))) := by
  rw [rendering, hget]
  change (sourceImage I W stored.summary.byteSize stored.bytes
    (resolvedImage P W stored.mime stored.bytes)).bind _ = _
  rw [himage]
  rfl

theorem Inv.agrees (h : Inv P I g) (hI : I.ReadsBack P) (q : ThumbnailRequest) :
    Agrees P I isUuid g q := by
  intro thumbnail cache hreply
  have hserved := thumbnailSync_served P I isUuid g.files g.store.committed q g.cache
  rw [hreply] at hserved
  generalize hr : ((.ok thumbnail, cache) : BackendResult EntryThumbnail × List CachedFile) = r
    at hserved
  cases hserved with
  | refused error left _ => cases hr
  | found stored left bytes dimensions hleft hget hkept hdimensions =>
      obtain ⟨hthumbnail, rfl⟩ := Prod.mk.inj hr
      obtain rfl := Except.ok.inj hthumbnail
      obtain ⟨e, he, hid, hrevision, hmime, hbytes, hsize⟩ := get_item h.wellFormed hget
      obtain ⟨file, hfile, hname, hfilebytes⟩ := cachedBytes_mem hkept
      have hheld : Holds P g.cache (g.store.committed.item e).id
          (g.store.committed.item e).revision (clampEdge q.edge) bytes :=
        ⟨⟨file, hleft hfile, by rw [hname, hid, hrevision]; rfl, hfilebytes⟩,
          by rw [hdimensions]; rfl⟩
      obtain ⟨image, himage, rfl⟩ :=
        h.fresh.agrees _ (List.mem_map_of_mem he) (clampEdge q.edge) bytes hheld
      rw [← hsize, ← hmime, ← hbytes] at himage
      have hsame :=
        (hI image (clampEdge q.edge) (clampEdge_bounds _).1 (clampEdge_bounds _).2).symm.trans
        hdimensions
      obtain rfl := Option.some.inj hsame
      exact ⟨_, rendering_eq hget himage, hkept⟩
  | rendered stored left image hleft hget himage =>
      obtain ⟨hthumbnail, rfl⟩ := Prod.mk.inj hr
      cases hsaved : (saveThumbnail q
          (thumbnailName stored.summary.id stored.summary.revision (clampEdge q.edge))
          (I.png (I.thumbnail image (clampEdge q.edge))) left).1 with
      | error error =>
          rw [hsaved] at hthumbnail
          cases hthumbnail
      | ok _ =>
          rw [hsaved] at hthumbnail
          obtain rfl := Except.ok.inj hthumbnail
          exact ⟨_, rendering_eq hget himage, saveThumbnail_ok hsaved⟩

/-- In every undisturbed run, a request for a thumbnail that succeeds returns what rendering
the entry gives now, and keeps the image of that under the path it returns. -/
theorem thumbnails_agree (P : Platform) {I : Imaging Img} (hI : I.ReadsBack P)
    (isUuid : String → Bool) (W : World) (turns : List GalleryTurn)
    (hturns : Throughout (step P I isUuid) (Undisturbed P) (start W) turns)
    (q : ThumbnailRequest) :
    Agrees P I isUuid (turns.foldl (step P I isUuid) (start W)) q :=
  (foldl_invariant_of (fun _ _ h hok => h.step hok) hturns (start_inv W)).agrees hI q

/-- The PNG of a square, as far as its dimensions. -/
def squarePng (edge : Nat) : Bytes :=
  let number := [edge / 2 ^ 24, edge / 2 ^ 16, edge / 2 ^ 8, edge].map UInt8.ofNat
  picture.take 16 ++ number ++ number

/-- A library that knows squares of one colour, which it scales to the edge. -/
def squares : Imaging Nat where
  decode bytes := (Png.dimensions bytes).map (·.width)
  thumbnail _ edge := edge
  dimensions edge := ⟨edge, edge⟩
  png := squarePng

theorem dimensions_squarePng {edge : Nat} (h : edge < 2 ^ 32) :
    Png.dimensions (squarePng edge) = some ⟨edge, edge⟩ := by
  have hformat : Png.format (squarePng edge) = some "image/png" := rfl
  rw [Png.dimensions, hformat]
  simp [squarePng, picture, Png.signature, Png.number]
  omega

theorem squares_readsBack : squares.ReadsBack .png := fun image edge _ hedge =>
  dimensions_squarePng (show edge < 2 ^ 32 by omega)

/-- The thumbnail of the captured file, in a cache where nothing fails. -/
def asked : ThumbnailRequest where
  id := "entry-e"
  expected := none
  edge := 64
  store := .ok ()
  cacheRoot := true
  directory := true
  listed := true
  removes _ := true
  opens := true
  saving := .written
  now := some 1
  isPrivate := true

/-- A URI of an image file is captured, and a thumbnail of it is requested. -/
def captureAndAsk : List GalleryTurn :=
  [.store (.request (.applyPolicy { StorePolicy.default with admission := true }) ⟨.empty, "0"⟩
    .none), .store captureFile, .thumbnail asked]

/-- The second request finds the thumbnail that the first one kept. -/
theorem thumbnails_agree_again : ∃ bytes,
    let g := captureAndAsk.foldl (step .png squares fun _ => true) (start .generated)
    rendering .png squares g.files g.store.committed "entry-e" none 64 =
        .ok (⟨"entry-e", 2, "entry-e-2-64.png", 64, 64⟩, bytes) ∧
      cachedBytes g.cache "entry-e-2-64.png" = some bytes := by
  have hundisturbed : Throughout (step .png squares fun _ => true) (Undisturbed .png)
      (start .generated) captureAndAsk :=
    ⟨trivial, ⟨trivial, ⟨fun _ hleft => Saving.noConfusion hleft, trivial⟩⟩⟩
  exact thumbnails_agree .png squares_readsBack (fun _ => true) .generated captureAndAsk
    hundisturbed asked _ _ (by decide +kernel)

/-- The file is removed: there is nothing to render, and the kept thumbnail is returned. -/
theorem thumbnail_outlives_file :
    let g := (captureAndAsk ++
        [GalleryTurn.files .empty [⟨"entry-e-2-64.png", true, some 1, squarePng 64⟩]]).foldl
      (step .png squares fun _ => true) (start .generated)
    rendering .png squares g.files g.store.committed "entry-e" none 64 =
        .error (invalidData "Clipboard entry cannot be thumbnailed") ∧
      (thumbnailSync .png squares (fun _ => true) g.files g.store.committed asked g.cache).1 =
        .ok ⟨"entry-e", 2, "entry-e-2-64.png", 64, 64⟩ := by
  decide +kernel

end Gallery

end ClipDaemon
