import ClipDaemon.Content
import ClipDaemon.Lib.Eviction

/-!
# The tables of the history database

The relational state of the store and the statements that change it
(`history_store/schema.rs`).  A table is the list of its rows; the order of the list is
not observable, since every query that returns rows sorts them.

A statement that writes checks the constraints of the rows it writes: the `CHECK`
clauses, the primary keys and the foreign keys.  Deleting an entry deletes its rows in
the side tables (`ON DELETE CASCADE`) and clears the echo links that name it
(`ON DELETE SET NULL`).
-/

namespace ClipDaemon

open Eviction

/-! ## Rows -/

/-- The row of `store_meta`. -/
structure StoreMeta where
  revision : Nat
  sequence : Nat
deriving DecidableEq

/-- The row of `effective_policy`. -/
structure StorePolicy where
  admission : Bool
  maxEntries : Nat
  maxFavorites : Nat
  maxEntryBytes : Nat
  maxTotalBytes : Nat
deriving DecidableEq

/-- `StorePolicy::default`, which is also the policy of a fresh database. -/
def StorePolicy.default : StorePolicy where
  admission := false
  maxEntries := 1000
  maxFavorites := 100
  maxEntryBytes := 16 * 1024 * 1024
  maxTotalBytes := 256 * 1024 * 1024

/-- A row of `entries`. -/
structure EntryRow where
  id : String
  revision : Nat
  favorite : Bool
  recency : Nat
  mime : String
  resolvedMime : String
  echoSourceId : Option String
  byteSize : Nat
  digest : Bytes
  preview : String
  kind : EntryKind
deriving DecidableEq

/-- A row of `payloads`. -/
structure PayloadRow where
  entryId : String
  bytes : Bytes
deriving DecidableEq

/-- A row of `search_content`. -/
structure SearchRow where
  entryId : String
  content : String
  indexedContent : String
  indexedComplete : Bool
deriving DecidableEq

/-- A row of `entry_artifacts`. -/
structure EntryArtifactRow where
  entryId : String
  path : FilePath
deriving DecidableEq

/-- The registered owner of a generated image file. -/
structure ArtifactRecord where
  path : FilePath
  sourceEntryId : String
  imageIdentity : String
  createdAt : Nat
  device : Nat
  inode : Nat
  owner : Nat
deriving DecidableEq

/-- A row of `inline_echoes`. -/
structure InlineEchoRecord where
  sourceEntryId : String
  imageIdentity : String
  createdAt : Nat
deriving DecidableEq

/-- The committed state of the database. -/
structure Tables where
  storeMeta : StoreMeta
  effectivePolicy : StorePolicy
  entries : List EntryRow
  payloads : List PayloadRow
  searchContent : List SearchRow
  entryArtifacts : List EntryArtifactRow
  artifacts : List ArtifactRecord
  inlineEchoes : List InlineEchoRecord
deriving DecidableEq

/-- What the schema creates. -/
def Tables.fresh : Tables where
  storeMeta := ⟨0, 0⟩
  effectivePolicy := StorePolicy.default
  entries := []
  payloads := []
  searchContent := []
  entryArtifacts := []
  artifacts := []
  inlineEchoes := []

/-! ## Constraints -/

/-- A statement that a constraint refuses. -/
def constraintFailed (name : String) : BackendError :=
  operationError (name ++ " constraint failed")

/-- `length` of a text, which counts characters up to a NUL. -/
def sqlLength (s : String) : Nat := (s.toList.takeWhile (· ≠ '\x00')).length

/-- The `CHECK` clauses of `entries`. -/
def EntryRow.check (e : EntryRow) : Bool :=
  0 < e.revision && 0 < e.recency && sqlLength e.mime ≤ 255 && sqlLength e.resolvedMime ≤ 255 &&
    e.byteSize ≤ MAX_ENTRY_BYTES && e.digest.length = 32

/-- The bound of `store_meta.revision`. -/
def MAX_REVISION : Nat := 9007199254740991

/-- The row after the entries `ids` are gone: a link to one of them is cleared. -/
def EntryRow.unlink (ids : List String) (e : EntryRow) : EntryRow :=
  if e.echoSourceId.any fun source => source ∈ ids then { e with echoSourceId := none } else e

/-- A `u64` read as an `i64`. -/
def asI64 (n : Nat) : Int := if n ≤ I64_MAX then n else (n : Int) - 2 ^ 64

namespace Tables

/-! ## Statements on the metadata -/

/-- `UPDATE store_meta SET revision=revision+1`. -/
def incrementRevision (t : Tables) : BackendResult Tables :=
  if t.storeMeta.revision + 1 < MAX_REVISION then
    .ok { t with storeMeta.revision := t.storeMeta.revision + 1 }
  else .error (constraintFailed "CHECK")

/-- `UPDATE store_meta SET sequence=sequence+1`. -/
def incrementSequence (t : Tables) : BackendResult Tables :=
  if t.storeMeta.sequence + 1 ≤ I64_MAX then
    .ok { t with storeMeta.sequence := t.storeMeta.sequence + 1 }
  else .error (constraintFailed "CHECK")

/-- `UPDATE effective_policy`. -/
def setPolicy (policy : StorePolicy) (t : Tables) : BackendResult Tables :=
  if policy.maxEntries ≤ 100000 ∧ policy.maxFavorites ≤ 10000 ∧ 1 ≤ policy.maxEntryBytes ∧
      policy.maxEntryBytes ≤ MAX_ENTRY_BYTES ∧ 0 < policy.maxTotalBytes then
    .ok { t with effectivePolicy := policy }
  else .error (constraintFailed "CHECK")

/-- `UPDATE effective_policy SET admission=0`. -/
def closeAdmission (t : Tables) : Tables := { t with effectivePolicy.admission := false }

/-! ## Statements on the entries -/

/-- Is there an entry with this id? -/
def hasEntry (t : Tables) (id : String) : Bool := t.entries.any fun e => e.id = id

/-- `UPDATE entries SET … WHERE p`, for assignments that set no echo link but to `NULL`. -/
def updateEntries (p : EntryRow → Bool) (set : EntryRow → EntryRow) (t : Tables) :
    BackendResult Tables :=
  if (t.entries.filter p).all fun e => (set e).check then
    .ok { t with entries := t.entries.map fun e => if p e then set e else e }
  else .error (constraintFailed "CHECK")

/-- `UPDATE entries SET echo_source_id=?1 WHERE id=?2`. -/
def linkEcho (source id : String) (t : Tables) : BackendResult Tables :=
  if t.hasEntry source then
    .ok { t with
      entries := t.entries.map fun e => if e.id = id then { e with echoSourceId := some source }
        else e }
  else .error (constraintFailed "FOREIGN KEY")

/-- `INSERT INTO entries`. -/
def insertEntry (row : EntryRow) (t : Tables) : BackendResult Tables :=
  if t.hasEntry row.id then .error (constraintFailed "UNIQUE")
  else if row.check then .ok { t with entries := t.entries ++ [row] }
  else .error (constraintFailed "CHECK")

/-- The entries `ids` and everything that belongs to them are deleted. -/
def deleteEntries (ids : List String) (t : Tables) : Tables :=
  { t with
    entries := (deleteKeys (·.id) ids t.entries).map (EntryRow.unlink ids)
    payloads := deleteKeys (·.entryId) ids t.payloads
    searchContent := deleteKeys (·.entryId) ids t.searchContent
    entryArtifacts := deleteKeys (·.entryId) ids t.entryArtifacts }

/-- The ids of the entries with `p`. -/
def entryIds (p : EntryRow → Bool) (t : Tables) : List String := (t.entries.filter p).map (·.id)

/-! ## Statements on the side tables -/

/-- `INSERT INTO payloads`. -/
def insertPayload (row : PayloadRow) (t : Tables) : BackendResult Tables :=
  if t.payloads.any fun p => p.entryId = row.entryId then .error (constraintFailed "UNIQUE")
  else if !t.hasEntry row.entryId then .error (constraintFailed "FOREIGN KEY")
  else if row.bytes.length ≤ MAX_ENTRY_BYTES then .ok { t with payloads := t.payloads ++ [row] }
  else .error (constraintFailed "CHECK")

/-- `INSERT INTO search_content`. -/
def insertSearch (row : SearchRow) (t : Tables) : BackendResult Tables :=
  if t.searchContent.any fun s => s.entryId = row.entryId then .error (constraintFailed "UNIQUE")
  else if !t.hasEntry row.entryId then .error (constraintFailed "FOREIGN KEY")
  else .ok { t with searchContent := t.searchContent ++ [row] }

/-- `INSERT INTO entry_artifacts`. -/
def insertEntryArtifact (row : EntryArtifactRow) (t : Tables) : BackendResult Tables :=
  if row ∈ t.entryArtifacts then .error (constraintFailed "UNIQUE")
  else if !t.hasEntry row.entryId then .error (constraintFailed "FOREIGN KEY")
  else .ok { t with entryArtifacts := t.entryArtifacts ++ [row] }

/-- `DELETE FROM payloads WHERE entry_id=?1`. -/
def deletePayload (id : String) (t : Tables) : Tables :=
  { t with payloads := t.payloads.filter fun p => p.entryId ≠ id }

/-- `DELETE FROM search_content WHERE entry_id=?1`. -/
def deleteSearch (id : String) (t : Tables) : Tables :=
  { t with searchContent := t.searchContent.filter fun s => s.entryId ≠ id }

/-- `DELETE FROM entry_artifacts WHERE entry_id=?1`. -/
def deleteEntryArtifacts (id : String) (t : Tables) : Tables :=
  { t with entryArtifacts := t.entryArtifacts.filter fun a => a.entryId ≠ id }

/-! ## Statements on the registries -/

/-- `INSERT INTO artifacts … ON CONFLICT(path) DO UPDATE`. -/
def upsertArtifact (record : ArtifactRecord) (t : Tables) : BackendResult Tables :=
  .ok { t with artifacts := t.artifacts.filter (fun a => a.path ≠ record.path) ++ [record] }

/-- `DELETE FROM artifacts WHERE path=?1`. -/
def deleteArtifact (path : FilePath) (t : Tables) : Tables :=
  { t with artifacts := t.artifacts.filter fun a => a.path ≠ path }

/-- `INSERT INTO inline_echoes … ON CONFLICT(image_identity) DO UPDATE`. -/
def upsertInlineEcho (record : InlineEchoRecord) (t : Tables) : BackendResult Tables :=
  .ok { t with
    inlineEchoes :=
      t.inlineEchoes.filter (fun r => r.imageIdentity ≠ record.imageIdentity) ++ [record] }

/-- `ORDER BY created_at DESC,image_identity`. -/
def inlineEchoOrder (a b : InlineEchoRecord) : Prop :=
  b.createdAt < a.createdAt ∨ (a.createdAt = b.createdAt ∧ a.imageIdentity ≤ b.imageIdentity)

instance : DecidableRel inlineEchoOrder := fun _ _ => inferInstanceAs (Decidable (_ ∨ _))

/-- Only the newest 4096 inline echoes stay. -/
def trimInlineEchoes (t : Tables) : Tables :=
  { t with
    inlineEchoes :=
      deleteKeys (·.imageIdentity)
        (pastLimit inlineEchoOrder (·.imageIdentity) (fun _ => true) 4096 t.inlineEchoes)
        t.inlineEchoes }

/-- `DELETE FROM inline_echoes`. -/
def deleteInlineEchoes (t : Tables) : Tables := { t with inlineEchoes := [] }

end Tables
end ClipDaemon
