import ClipDaemon.Store.Schema
import ClipDaemon.Lib.Program
import ClipDaemon.Lib.Grams

/-!
# The operations of the history database

The bodies of the store's operations as programs of SQL statements
(`history_store/database.rs`).  A program fails where a statement is refused or where
the source returns an error.  The transaction around a program and the failures of the
engine are added in `Store.Engine`.
-/

namespace ClipDaemon

open Eviction Grams

/-- A program of statements on the database. -/
abbrev Sql (α : Type) : Type 1 := Prog Tables BackendError α

/-- Execute a statement that writes. -/
def exec (f : Tables → BackendResult Tables) : Sql Unit := Prog.update f

/-- Execute a statement that reads. -/
def rows {α : Type} (f : Tables → α) : Sql α := Prog.query fun t => .ok (f t)

/-- What an operation takes from outside: the file system and the next random UUID. -/
structure Env where
  world : World
  uuid : String

namespace Database

/-! ## Counters and policy -/

/-- The revision of the catalog. -/
def revision : Sql Nat := rows (·.storeMeta.revision)

/-- The revision is counted on. -/
def bump : Sql Nat := do
  exec Tables.incrementRevision
  revision

/-- The number of the last insertion is counted on. -/
def sequence : Sql Nat := do
  exec Tables.incrementSequence
  rows (·.storeMeta.sequence)

/-- The policy in effect. -/
def policy : Sql StorePolicy := rows (·.effectivePolicy)

/-! ## Reading one entry -/

/-- `SELECT max(recency) FROM entries`. -/
def maxRecency (t : Tables) : Nat := (t.entries.map (·.recency)).foldr max 0

/-- The selected columns of an entry. -/
def decodeSummary (t : Tables) (e : EntryRow) : EntrySummary where
  id := e.id
  revision := e.revision
  kind := e.kind
  mime := e.resolvedMime
  byteSize := e.byteSize
  favorite := e.favorite
  current := e.recency = maxRecency t
  preview := e.preview

/-- The entry with an id. -/
def findEntry (id : String) (t : Tables) : Option EntryRow := t.entries.find? fun e => e.id = id

/-- The entry at the revision that is expected. -/
def summary (id : String) (expected : Option Nat) : Sql EntrySummary := do
  match ← rows fun t => (findEntry id t).map (decodeSummary t) with
  | none => throw (.notFound "Clipboard entry does not exist")
  | some summary =>
      if expected.any fun revision => revision ≠ summary.revision then
        throw (.stale "Clipboard entry revision changed")
      else pure summary

/-- An entry with its captured type and its payload. -/
structure StoredEntry where
  summary : EntrySummary
  mime : String
  bytes : Bytes
deriving DecidableEq

/-- The entry with its payload. -/
def get (id : String) (expected : Option Nat) : Sql StoredEntry := do
  let summary ← summary id expected
  match ← rows fun t => (t.payloads.find? fun p => p.entryId = id).bind fun p =>
      (findEntry id t).map fun e => (p.bytes, e.mime) with
  | none => throw (invalidData "Clipboard payload is missing")
  | some (bytes, mime) =>
      if bytes.length ≠ summary.byteSize then
        throw (invalidData "Clipboard payload length mismatch")
      else pure { summary, mime, bytes }

/-! ## Retention -/

/-- The order of eviction within a category: the protected entry first, then the most
recent ones. -/
def categoryOrder (protectedId : String) (a b : EntryRow) : Prop :=
  (a.id = protectedId ∧ b.id ≠ protectedId) ∨
    ((a.id = protectedId ↔ b.id = protectedId) ∧
      (b.recency < a.recency ∨ (a.recency = b.recency ∧ a.id ≤ b.id)))

instance (protectedId : String) : DecidableRel (categoryOrder protectedId) :=
  fun _ _ => inferInstanceAs (Decidable (_ ∨ _))

/-- The order of eviction for the byte budget: favorites go last. -/
def budgetOrder (protectedId : String) (a b : EntryRow) : Prop :=
  (a.id = protectedId ∧ b.id ≠ protectedId) ∨
    ((a.id = protectedId ↔ b.id = protectedId) ∧
      ((a.favorite = true ∧ b.favorite = false) ∨
        (a.favorite = b.favorite ∧
          (b.recency < a.recency ∨ (a.recency = b.recency ∧ a.id ≤ b.id)))))

instance (protectedId : String) : DecidableRel (budgetOrder protectedId) :=
  fun _ _ => inferInstanceAs (Decidable (_ ∨ _))

/-- `DELETE FROM entries WHERE id IN (SELECT …)`. -/
def deleteWhere (select : Tables → List String) : Sql Unit :=
  exec fun t => .ok (t.deleteEntries (select t))

/-- The entries over the size limit, the protected one excepted. -/
def oversized (maxEntryBytes : Nat) (protectedId : String) (t : Tables) : List String :=
  t.entryIds fun e => maxEntryBytes < e.byteSize && e.id ≠ protectedId

/-- The entries of a category past its limit. -/
def pastCategory (favorite : Bool) (limit : Nat) (protectedId : String) (t : Tables) :
    List String :=
  pastLimit (categoryOrder protectedId) (·.id) (fun e => e.favorite = favorite) limit t.entries

/-- The entries past the byte budget. -/
def pastBudget (maxTotalBytes : Nat) (protectedId : String) (t : Tables) : List String :=
  overBudget (budgetOrder protectedId) (·.id) (·.byteSize) maxTotalBytes t.entries

/-- Retention; the protected entry stays. -/
def retain (policy : StorePolicy) (protectedEntry : Option String) : Sql Unit := do
  let protectedId := protectedEntry.getD ""
  deleteWhere (oversized policy.maxEntryBytes protectedId)
  [(false, policy.maxEntries), (true, policy.maxFavorites)].forM fun (favorite, limit) =>
    deleteWhere (pastCategory favorite limit protectedId)
  deleteWhere (pastBudget policy.maxTotalBytes protectedId)
  if protectedId = "" then pure ()
  else do
    let _ ← summary protectedId none

/-- A policy that is the one in effect changes nothing. -/
def applyPolicy (next : StorePolicy) : Sql Unit := do
  if (← policy) = next then pure ()
  else do
    exec (Tables.setPolicy next)
    retain next none
    let _ ← bump

/-- The checks of a policy before it reaches the database. -/
def validPolicy (policy : StorePolicy) : Bool :=
  policy.maxEntries ≤ 100000 && policy.maxFavorites ≤ 10000 && policy.maxEntryBytes ≠ 0 &&
    policy.maxEntryBytes ≤ MAX_ENTRY_BYTES && policy.maxTotalBytes ≠ 0 &&
    policy.maxTotalBytes ≤ I64_MAX

/-! ## Writing content -/

/-- The payload is within the limits. -/
def allowedPayload (policy : StorePolicy) (bytes : Bytes) : Sql Unit :=
  if bytes.length > policy.maxEntryBytes ∨ bytes.length > policy.maxTotalBytes then
    throw (invalidData "Clipboard entry exceeds effective storage limits")
  else pure ()

/-- The search row of an entry: a text over 64 KiB is kept out of the index. -/
def searchRow (P : Platform) (id mime : String) (bytes : Bytes) : SearchRow :=
  let content := searchText P mime bytes
  let complete := byteLen content ≤ 64 * 1024
  { entryId := id, content, indexedContent := if complete then content else ""
    indexedComplete := complete }

/-- The registered owner of a path. -/
def artifactGet (path : FilePath) : Sql (Option ArtifactRecord) :=
  rows fun t => t.artifacts.find? fun a => a.path = path

/-- Does the file at a path match its registration? -/
def ownsFile (W : World) (path : FilePath) (record : ArtifactRecord) : Bool :=
  (W.symlinkMetadata path).any fun m =>
    m.isFile && m.dev = record.device && m.ino = record.inode && m.uid = record.owner

/-- The image of a file is the registered one. -/
def matchesRecord (P : Platform) (W : World) (source : LocalImageSource)
    (record : ArtifactRecord) : Bool :=
  ownsFile W source.path record && source.identity P W = some record.imageIdentity

/-- An entry that is exactly one registered image file, with the image it was registered
with, becomes an echo of the entry the file was made from. -/
def linkSource (P : Platform) (W : World) (id : String) (resolved : ResolvedContent) : Sql Unit :=
  match resolved.localImage with
  | none => pure ()
  | some source =>
      match toStr source.path with
      | none => pure ()
      | some path => do
          match ← artifactGet path with
          | none => pure ()
          | some record =>
              if record.sourceEntryId = id then pure ()
              else do
                let count ← rows fun t => (t.entryIds fun e => e.id = record.sourceEntryId).length
                if count = 1 ∧ matchesRecord P W source record then
                  exec (Tables.linkEcho record.sourceEntryId id)
                else pure ()

/-- The rows of a content, and its link. -/
def writeContent (P : Platform) (W : World) (id mime : String) (bytes : Bytes)
    (resolved : ResolvedContent) : Sql Unit := do
  exec (Tables.insertPayload ⟨id, bytes⟩)
  exec (Tables.insertSearch (searchRow P id mime bytes))
  (artifactPaths P bytes).forM fun path => exec (Tables.insertEntryArtifact ⟨id, path⟩)
  linkSource P W id resolved

/-! ## Insert -/

/-- The most recent entry with exactly this type and these bytes. -/
def duplicate (P : Platform) (mime : String) (bytes : Bytes) (t : Tables) : Option String :=
  ((t.entries.filter fun e =>
      e.digest = P.sha256 bytes && e.mime = mime && e.byteSize = bytes.length &&
        (⟨e.id, bytes⟩ : PayloadRow) ∈ t.payloads).insertionSort
    fun a b => b.recency ≤ a.recency).head?.map (·.id)

/-- The row of a new entry. -/
def newEntry (P : Platform) (W : World) (id mime : String) (bytes : Bytes)
    (revision recency : Nat) : EntryRow :=
  let content := ResolvedContent.resolve P W mime bytes MAX_ENTRY_BYTES
  { id, revision, favorite := false, recency, mime, resolvedMime := content.mime
    echoSourceId := none, byteSize := bytes.length, digest := P.sha256 bytes
    preview := boundedPreview bytes INSPECTION_LIMIT, kind := content.kind }

/-- The row of a new entry, and its content. -/
def create (P : Platform) (env : Env) (policy : StorePolicy) (mime : String) (bytes : Bytes)
    (revision recency : Nat) : Sql String :=
  if policy.maxEntries = 0 then throw (invalidData "Clipboard main history capacity is zero")
  else do
    let id := "entry-" ++ env.uuid
    exec (Tables.insertEntry (newEntry P env.world id mime bytes revision recency))
    writeContent P env.world id mime bytes
      (ResolvedContent.resolve P env.world mime bytes MAX_ENTRY_BYTES)
    pure id

/-- An identical entry becomes the most recent one. -/
def promote (id : String) (revision recency : Nat) : Sql String := do
  exec (Tables.updateEntries (·.id = id) fun e => { e with revision, recency })
  pure id

/-- The part of `insert` that changes the history. -/
def place (P : Platform) (env : Env) (policy : StorePolicy) (mime : String) (bytes : Bytes)
    (candidate : Option String) : Sql EntrySummary := do
  let revision ← bump
  let recency ← sequence
  let id ← (match candidate with
    | some id => promote id revision recency
    | none => create P env policy mime bytes revision recency)
  retain policy (some id)
  summary id none

/-- An identical entry is promoted, or a new one is made. -/
def insert (P : Platform) (env : Env) (mime : String) (bytes : Bytes) : Sql EntrySummary := do
  let policy ← policy
  if !policy.admission then throw (.unavailable "Clipboard history admission is closed")
  else do
    allowedPayload policy bytes
    match ← rows (duplicate P mime bytes) with
    | none => place P env policy mime bytes none
    | some id => do
        let existing ← summary id none
        -- observing the current content again changes nothing
        if existing.current then pure existing else place P env policy mime bytes (some id)

/-! ## Replace, favorite, remove, wipe -/

/-- The entry gets another content, and loses its links. -/
def replace (P : Platform) (env : Env) (id : String) (expected : Nat) (mime : String)
    (bytes : Bytes) : Sql EntrySummary := do
  let _ ← summary id (some expected)
  let policy ← policy
  allowedPayload policy bytes
  let revision ← bump
  let content := ResolvedContent.resolve P env.world mime bytes MAX_ENTRY_BYTES
  exec (Tables.updateEntries (fun e => e.id = id && (e.revision : Int) = asI64 expected) fun e =>
    { e with
      revision, mime, byteSize := bytes.length, digest := P.sha256 bytes
      preview := boundedPreview bytes INSPECTION_LIMIT, kind := content.kind
      resolvedMime := content.mime, echoSourceId := none })
  exec (Tables.updateEntries (·.echoSourceId = some id) fun e => { e with echoSourceId := none })
  exec fun t => .ok (t.deletePayload id)
  exec fun t => .ok (t.deleteSearch id)
  exec fun t => .ok (t.deleteEntryArtifacts id)
  writeContent P env.world id mime bytes content
  retain policy (some id)
  summary id none

/-- The entry becomes a favorite, or is none any more. -/
def favorite (id : String) (expected : Nat) (value : Bool) : Sql Unit := do
  let summary ← summary id (some expected)
  if summary.favorite = value then pure ()
  else do
    let policy ← policy
    if (value ∧ policy.maxFavorites = 0) ∨ (!value ∧ policy.maxEntries = 0) then
      throw (invalidData "Requested history category has zero capacity")
    else do
      let revision ← bump
      exec (Tables.updateEntries (fun e => e.id = id && (e.revision : Int) = asI64 expected)
        fun e => { e with favorite := value, revision })
      retain policy (some id)

/-- `SELECT count(*) FROM targets t JOIN entries e ON p t e`. -/
def countJoin (p : EntryTarget → EntryRow → Bool) (targets : List EntryTarget) (t : Tables) : Nat :=
  (targets.map fun target => (t.entries.filter (p target)).length).sum

/-- All targets are there at their revisions, or none is deleted. -/
def removeMany (targets : List EntryTarget) : Sql Unit := do
  let valid ← rows (countJoin (fun target e => e.id = target.opaqueId &&
    (e.revision : Int) = asI64 target.expectedRevision.toNat) targets)
  if valid ≠ targets.length then do
    let present ← rows (countJoin (fun target e => e.id = target.opaqueId) targets)
    if present ≠ targets.length then throw (.notFound "Clipboard entry does not exist")
    else throw (.stale "Clipboard entry revision changed")
  else do
    deleteWhere fun t => t.entryIds fun e => e.id ∈ targets.map (·.opaqueId)
    let _ ← bump

/-- All entries go. -/
def wipe : Sql Unit := do
  deleteWhere fun t => t.entryIds fun _ => true
  exec fun t => .ok t.deleteInlineEchoes
  let _ ← bump

/-! ## Registries -/

/-- The checks of an ownership record before it reaches the database. -/
def validArtifact (record : ArtifactRecord) : BackendResult Unit :=
  match toStr record.path with
  | none => .error (invalidData "Artifact path must be UTF-8")
  | some path =>
      if path.head? ≠ some 0x2F ∨ path.length > 32768 ∨ byteLen record.imageIdentity > 256 ∨
          byteLen record.sourceEntryId > 128 ∨ record.createdAt > I64_MAX then
        .error (invalidData "Invalid artifact metadata")
      else .ok ()

/-- A generated file is registered, up to a bound. -/
def registerArtifact (record : ArtifactRecord) : Sql Unit := do
  let count ← rows (·.artifacts.length)
  let present ← (if 4096 ≤ count then
      rows fun t => (t.artifacts.filter fun a => a.path = record.path).length
    else pure 1)
  if present = 0 then throw (invalidData "Artifact registry is full")
  else exec (Tables.upsertArtifact record)

/-- The registration goes. -/
def forgetArtifact (path : FilePath) : Sql Unit := exec fun t => .ok (t.deleteArtifact path)

/-- The checks of an inline echo before it reaches the database. -/
def validInlineEcho (record : InlineEchoRecord) : Bool :=
  byteLen record.imageIdentity ≤ 256 && byteLen record.sourceEntryId ≤ 128 &&
    record.createdAt ≤ I64_MAX

/-- The image that a file was made from is remembered. -/
def registerInlineEcho (record : InlineEchoRecord) : Sql Unit := do
  exec (Tables.upsertInlineEcho record)
  exec fun t => .ok t.trimInlineEchoes

/-- Nothing is remembered. -/
def clearInlineEchoes : Sql Unit := exec fun t => .ok t.deleteInlineEchoes

/-! ## Query -/

/-- The terms of a needle: at most 32 of the three character pieces of its words. -/
def searchTerms (U : Unicode) (needle : List Char) : List (List Char) :=
  (collect 32 []
    ((splitChars (fun c => !U.isAlphanumeric c) needle).flatMap (windows 3))).insertionSort
    fun a b => a ≤ b

/-- A conjunction of quoted terms. -/
def conjunction (terms : List (List Char)) : String :=
  String.ofList (List.intercalate " AND ".toList (terms.map fun t => '"' :: t ++ ['"']))

/-- The query of the index, if the needle is long enough. -/
def searchGram (U : Unicode) (needle : List Char) : Option String :=
  let terms := searchTerms U needle
  if terms = [] then none else some (conjunction terms)

/-- `ORDER BY recency DESC,id`. -/
def recencyOrder (a b : EntryRow) : Prop :=
  b.recency < a.recency ∨ (a.recency = b.recency ∧ a.id ≤ b.id)

instance : DecidableRel recencyOrder := fun _ _ => inferInstanceAs (Decidable (_ ∨ _))

/-- `ORDER BY e.favorite DESC,e.recency DESC,e.id`. -/
def pageOrder (a b : EntryRow) : Prop :=
  (a.favorite = true ∧ b.favorite = false) ∨ (a.favorite = b.favorite ∧ recencyOrder a b)

instance : DecidableRel pageOrder := fun _ _ => inferInstanceAs (Decidable (_ ∨ _))

/-- The needle a query is searched with. -/
def HistoryQuery.needle (P : Platform) (query : HistoryQuery) : String :=
  toLowercase P.unicode (trim query.query)

/-- The current entry: with collapse on, an echo stands for its source. -/
def currentEntry (collapse : Bool) (t : Tables) : Option EntrySummary := do
  let newest ← (t.entries.insertionSort recencyOrder).head?
  let id := if collapse then newest.echoSourceId.getD newest.id else newest.id
  let e ← findEntry id t
  pure { decodeSummary t e with current := true }

/-- Is the entry listed, whatever the needle is? -/
def notCollapsed (collapse : Bool) (e : EntryRow) : Bool := !collapse || e.echoSourceId.isNone

/-- The search rows a full text query narrows to, and the unindexed ones. -/
def candidates (P : Platform) (gram : String) (t : Tables) : List String :=
  (t.searchContent.filter fun s => P.ftsMatch s.indexedContent gram).map (·.entryId) ++
    (t.searchContent.filter fun s => !s.indexedComplete).map (·.entryId)

/-- The rows `FROM entries e … WHERE …` selects. -/
def selected (P : Platform) (needle : String) (collapse : Bool) (t : Tables) : List EntryRow :=
  if needle = "" then t.entries.filter (notCollapsed collapse)
  else
    let joined := t.entries.flatMap fun e =>
      (t.searchContent.filter fun s =>
        s.entryId = e.id && decide (needle.toList <:+: s.content.toList)).map fun _ => e
    match searchGram P.unicode needle.toList with
    | none => joined.filter (notCollapsed collapse)
    | some gram => joined.filter fun e => notCollapsed collapse e && e.id ∈ candidates P gram t

/-- `LIMIT limit+1 OFFSET offset`. -/
def pageRows (limit offset : Nat) (selected : List EntryRow) : List EntryRow :=
  ((selected.insertionSort pageOrder).drop offset).take (limit + 1)

/-- A page of what matches, most recent first. -/
def query (P : Platform) (query : HistoryQuery) : Sql HistoryPage := do
  let needle := HistoryQuery.needle P query
  let limit := min query.limit MAX_QUERY_LIMIT
  let offset := if query.offset ≤ I64_MAX then query.offset else I64_MAX
  let current ← rows (currentEntry query.collapseSelfEchoes)
  let page ← rows fun t =>
    (pageRows limit offset (selected P needle query.collapseSelfEchoes t)).map (decodeSummary t)
  let total ← rows fun t => (selected P needle query.collapseSelfEchoes t).length
  let hasMore := limit < page.length
  let entries := (page.take limit).map fun e =>
    { e with current := current.any fun c => c.id = e.id }
  let revision ← revision
  pure {
    revision, total, generation := query.generation, current, entries, hasMore
    nextOffset :=
      if hasMore ∧ 0 < limit ∧ query.offset + entries.length < 2 ^ 64 then
        some (query.offset + entries.length)
      else none }

end Database
end ClipDaemon
