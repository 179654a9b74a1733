import ClipDaemon.Capture.Transfer
import ClipDaemon.Store.Search
import ClipDaemon.Store.Service

/-!
# Admitting captured bytes

The sink reads the memory file of a transfer and inserts what it read
(`history/capture.rs`, `read_selection`).  It inspects the length, reads to the end with
one byte to spare, and reads once more: a file that grew or shrank is refused.

The file is read while others may change it, so a read sees what the file holds at that
moment.  What is admitted has the length the file had when it was inspected, consists of
bytes the file held at their places, and the file ended there after the last read
(`admitBytes_some`).  So growth and shrinking never store a part of the captured bytes
(`captured_whole`).  A change that keeps the length is not looked for
(`captured_overwritten`).
-/

namespace ClipDaemon.Capture

/-- A file as its reader meets it: what it holds at each access, the accesses that fail,
and the room a read has in its buffer, less one. -/
structure CaptureFile where
  content : Nat → Bytes
  fails : Nat → Bool
  room : Nat → Nat

/-- `Read::take(remaining).read_to_end`, from the given access on: the bytes and the next
access.  Every read but the last one brings a byte, so `fuel` reads are enough for `fuel`
bytes. -/
def CaptureFile.readToEnd (file : CaptureFile) (access : Nat) (bytes : Bytes) :
    Nat → Nat → BackendResult (Bytes × Nat)
  | 0, _ => .ok (bytes, access)
  | fuel + 1, remaining =>
      if remaining = 0 then .ok (bytes, access)
      else if file.fails access then .error (operationError "read failed")
      else
        match ((file.content access).drop bytes.length).take
            (min (file.room access + 1) remaining) with
        | [] => .ok (bytes, access + 1)
        | b :: chunk =>
            file.readToEnd (access + 1) (bytes ++ b :: chunk) fuel
              (remaining - (b :: chunk).length)

/-- The advertised size and the bytes read must both be within the limit. -/
def readSelection (file : CaptureFile) (access size configuredLimit : Nat) :
    BackendResult (Bytes × Nat) := do
  validateSize size configuredLimit
  let limit := effectiveLimit configuredLimit
  let (bytes, access) ← file.readToEnd access [] (limit + 1) (limit + 1)
  validateSize bytes.length configuredLimit
  pure (bytes, access)

/-- The bytes a file is admitted with, if any: access 0 inspects it and access 1 rewinds
it. -/
def admitBytes (policy : StorePolicy) (file : CaptureFile) : Except String (Option Bytes) :=
  if !policy.admission then .ok none
  else if file.fails 0 then .error "Could not inspect captured bytes"
  else
    let size := (file.content 0).length
    if size = 0 ∨ size > policy.maxEntryBytes then .ok none
    else if file.fails 1 then .error "Could not rewind captured bytes"
    else
      match readSelection file 2 size policy.maxEntryBytes with
      | .error error => .error error.message
      | .ok (bytes, access) =>
          if bytes.length ≠ size then .error "Captured bytes changed during admission"
          else if file.fails access then .error "Could not inspect captured bytes"
          else if (file.content access).drop bytes.length ≠ [] then
            .error "Captured bytes changed during admission"
          else .ok (some bytes)

/-- The MIME type captured text is stored under. -/
def captureMime (mime : String) : String :=
  if mime = "UTF8_STRING" ∨ mime = "STRING" ∨ mime = "TEXT" then "text/plain" else mime

/-- What a call of `ingest` meets. -/
structure IngestCall where
  /-- The backend runs and its transaction lock is not poisoned. -/
  running : Except String Unit
  policy : BackendResult StorePolicy
  file : CaptureFile
  /-- The queue of the store takes the request. -/
  submitted : BackendResult Unit
  env : Env
  faults : Faults
  /-- The policy after a refused insertion. -/
  later : BackendResult StorePolicy
  /-- What the artifact registry makes of the selection. -/
  observed : Except String Unit

/-- Closing admission concurrently is normal. -/
def IngestCall.refused (call : IngestCall) (error : BackendError) : Except String Unit :=
  match call.later with
  | .error later => .error later.message
  | .ok policy => if policy.admission then .error error.message else .ok ()

/-- What the sink does with a payload. -/
def ingest (P : Platform) (call : IngestCall) (mime : String) (s : Store) :
    Except String Unit × Store :=
  match call.running, call.policy with
  | .error error, _ => (.error error, s)
  | .ok (), .error error => (.error error.message, s)
  | .ok (), .ok policy =>
      match admitBytes policy call.file with
      | .error error => (.error error, s)
      | .ok none => (.ok (), s)
      | .ok (some bytes) =>
          let request := Request.insert (captureMime mime) bytes
          match request.validate, call.submitted with
          | .error error, _ => (call.refused error, s)
          | .ok (), .error error => (call.refused error, s)
          | .ok (), .ok () =>
              match (s.db.execute call.faults (request.job P call.env)).1 with
              | .ok _ => (call.observed, s.step P (.request request call.env call.faults))
              | .error error =>
                  (call.refused error, s.step P (.request request call.env call.faults))

/-! ## What is read -/

/-- Every byte is one the file held at its place. -/
def CaptureFile.Holds (file : CaptureFile) (bytes : Bytes) : Prop :=
  ∀ (i : Nat) (b : UInt8), bytes[i]? = some b → ∃ access, (file.content access)[i]? = some b

theorem CaptureFile.Holds.append {file : CaptureFile} {bytes chunk : Bytes} {access count : Nat}
    (h : file.Holds bytes)
    (hchunk : ((file.content access).drop bytes.length).take count = chunk) :
    file.Holds (bytes ++ chunk) := by
  intro i b hb
  rw [List.getElem?_append] at hb
  split at hb
  · exact h i b hb
  next hlong =>
    refine ⟨access, ?_⟩
    rw [← hchunk] at hb
    rw [List.getElem?_take] at hb
    split at hb
    · rwa [List.getElem?_drop, Nat.add_sub_cancel' (by omega)] at hb
    · cases hb

/-- Reading to the end brings bytes the file held at their places. -/
theorem readToEnd_holds {file : CaptureFile} {access fuel remaining : Nat} {bytes : Bytes}
    {r : Bytes × Nat} (h : file.Holds bytes)
    (hread : file.readToEnd access bytes fuel remaining = .ok r) : file.Holds r.1 := by
  induction fuel generalizing access bytes remaining with
  | zero => exact Except.ok.inj hread ▸ h
  | succ fuel ih =>
      rw [CaptureFile.readToEnd] at hread
      split at hread
      · exact Except.ok.inj hread ▸ h
      · split at hread
        · cases hread
        · split at hread
          · exact Except.ok.inj hread ▸ h
          next hchunk => exact ih (h.append hchunk) hread

theorem readSelection_ok {file : CaptureFile} {access size limit : Nat} {r : Bytes × Nat}
    (h : readSelection file access size limit = .ok r) :
    file.readToEnd access [] (effectiveLimit limit + 1) (effectiveLimit limit + 1) = .ok r := by
  simp only [readSelection] at h
  cases hvalid : validateSize size limit with
  | error error =>
      rw [hvalid] at h
      cases h
  | ok _ =>
      rw [hvalid] at h
      simp only [bind, Except.bind] at h
      split at h
      · cases h
      next read hread =>
        split at h
        · cases h
        · rw [hread]
          exact h

/-- What is admitted has the length the file had when it was inspected, consists of bytes
the file held at their places, and the file ended there after the last read. -/
theorem admitBytes_some {policy : StorePolicy} {file : CaptureFile} {bytes : Bytes}
    (h : admitBytes policy file = .ok (some bytes)) :
    bytes ≠ [] ∧ bytes.length ≤ policy.maxEntryBytes ∧
      bytes.length = (file.content 0).length ∧ file.Holds bytes ∧
      ∃ access, (file.content access).length ≤ bytes.length := by
  simp only [admitBytes] at h
  split at h
  · cases h
  · split at h
    · cases h
    · split at h
      · cases h
      next hsize =>
        split at h
        · cases h
        · split at h
          · cases h
          next read access hread =>
            split at h
            · cases h
            next hlength =>
              split at h
              · cases h
              · split at h
                · cases h
                next hend =>
                  obtain rfl : read = bytes := by simpa using h
                  rw [not_or, Nat.not_lt] at hsize
                  have hlength : read.length = (file.content 0).length := by simpa using hlength
                  refine ⟨?_, hlength ▸ hsize.2, hlength, ?_, access, ?_⟩
                  · intro hnil
                    rw [hnil] at hlength
                    exact hsize.1 hlength.symm
                  · exact readToEnd_holds (by simp [CaptureFile.Holds]) (readSelection_ok hread)
                  · simpa [List.drop_eq_nil_iff] using hend

/-- A file that held the stream when it was inspected and only grows or shrinks is
admitted whole. -/
theorem admitBytes_stream {policy : StorePolicy} {file : CaptureFile} {stream bytes : Bytes}
    (hstart : file.content 0 = stream)
    (hchange : ∀ access, file.content access <+: stream ∨ stream <+: file.content access)
    (h : admitBytes policy file = .ok (some bytes)) : bytes = stream := by
  obtain ⟨-, -, hlength, hholds, -⟩ := admitBytes_some h
  rw [hstart] at hlength
  refine List.ext_getElem? fun i => ?_
  rcases Nat.lt_or_ge i bytes.length with hi | hi
  · obtain ⟨access, haccess⟩ := hholds i bytes[i] (List.getElem?_eq_getElem hi)
    rw [List.getElem?_eq_getElem hi, ← haccess]
    rcases hchange access with ⟨rest, hrest⟩ | ⟨rest, hrest⟩
    · have hlt : i < (file.content access).length := (List.getElem?_eq_some_iff.mp haccess).1
      rw [← hrest, List.getElem?_append_left hlt]
    · rw [← hrest, List.getElem?_append_left (hlength ▸ hi)]
  · rw [List.getElem?_eq_none hi, List.getElem?_eq_none (hlength ▸ hi)]

/-! ## What is stored -/

/-- Retention stores no payload. -/
theorem payloads_retained (policy : StorePolicy) (protectedId : String) (t : Tables) :
    (t.retained policy protectedId).payloads ⊆ t.payloads := by
  have hdelete (t : Tables) (ids : List String) : (t.deleteEntries ids).payloads ⊆ t.payloads := by
    intro p hp
    rw [Tables.deleteEntries, Eviction.mem_deleteKeys] at hp
    exact hp.1
  obtain ⟨a, b, c, d, hretained⟩ : ∃ a b c d, t.retained policy protectedId =
      (((t.deleteEntries a).deleteEntries b).deleteEntries c).deleteEntries d := ⟨_, _, _, _, rfl⟩
  rw [hretained]
  intro p hp
  exact hdelete t a (hdelete _ b (hdelete _ c (hdelete _ d hp)))

/-- An insertion stores its bytes and nothing else. -/
theorem payloads_insert {P : Platform} {env : Env} {mime : String} {bytes : Bytes} {t t' : Tables}
    {reply : Reply} (h : (Request.insert mime bytes).effect P env t = .ok (reply, t')) :
    ∀ p ∈ t'.payloads, p ∈ t.payloads ∨ p.bytes = bytes := by
  intro p hp
  obtain ⟨summary, -, hinsert⟩ := Request.entry_ok h
  obtain ⟨-, -, -, ⟨id, e, -, -, -, hr⟩ | ⟨-, -, id, e, -, -, hr⟩⟩ := Database.insert_ok hinsert
  · cases hr
    exact .inl hp
  · rcases hr with ⟨-, hr⟩ | ⟨-, -, -, -, hr⟩
    · have hr : t' = (t.promoted id).retained t.effectivePolicy id := hr
      rw [hr] at hp
      have hp := payloads_retained _ _ _ hp
      exact .inl hp
    · have hr : t' = (t.created P env mime bytes).retained t.effectivePolicy id := hr
      rw [hr] at hp
      have hp := payloads_retained _ _ _ hp
      simp only [Tables.created, Tables.written, payloads_linked, Tables.withContent,
        Tables.withEntry, List.mem_append, List.mem_singleton] at hp
      rcases hp with hp | rfl
      · exact .inl hp
      · exact .inr rfl

/-- A call of `ingest` leaves the store alone or inserts the admitted bytes. -/
theorem ingest_store (P : Platform) (call : IngestCall) (mime : String) (s : Store) :
    (ingest P call mime s).2 = s ∨ ∃ policy bytes, admitBytes policy call.file = .ok (some bytes) ∧
      (ingest P call mime s).2 =
        s.step P (.request (.insert (captureMime mime) bytes) call.env call.faults) := by
  simp only [ingest]
  split
  · exact .inl rfl
  · exact .inl rfl
  next policy _ _ =>
    split
    · exact .inl rfl
    · exact .inl rfl
    next bytes hadmit =>
      split
      · exact .inl rfl
      · exact .inl rfl
      · refine .inr ⟨policy, bytes, hadmit, ?_⟩
        split <;> rfl

/-! ## Captured whole -/

/-- Captured bytes are stored whole or not at all.  Whatever the stream, the limit and the
ticks are:

* a run that reports the end of the stream has collected the whole stream, within the
  limit; it is blank exactly when all of it is white space, and else handed over whole;
* a stream longer than the limit is never reported to end;
* a tick 5 seconds after the last bytes, or 15 seconds after the start, ends the run;
* an `ingest` of a file that held the stream when it was inspected, and that others only
  let grow or shrink, stores the whole stream, or nothing. -/
theorem captured_whole (P : Platform) (stream : Bytes) (limit started : Nat) (ticks : List Tick) :
    (∀ t, pump ticks (.new stream limit started) = .ended t →
      t.data = stream ∧ stream.length ≤ limit ∧
      ∀ rewinds, (t.finish rewinds = .ok .blank ↔ ∀ b ∈ stream, isAsciiWhitespace b = true) ∧
        ∀ file, t.finish rewinds = .ok (.complete file) → file = stream) ∧
    (limit < stream.length → ∀ t, pump ticks (.new stream limit started) ≠ .ended t) ∧
    (∀ t, pump ticks (.new stream limit started) = .running t → ∀ tick later,
      (IDLE ≤ tick.now - t.progress ∨ TOTAL ≤ tick.now - started →
        pump (ticks ++ tick :: later) (.new stream limit started) = .rejected .timedOut) ∧
      ∀ t', t.receive tick = .ok (false, t') →
        t'.progress = if t'.data = t.data then t.progress else tick.now) ∧
    ∀ (call : IngestCall) (mime : String) (s : Store), call.file.content 0 = stream →
      (∀ access, call.file.content access <+: stream ∨ stream <+: call.file.content access) →
      let s' := (ingest P call mime s).2
      s'.committed = s.committed ∨
        (∃ reply, (Request.insert (captureMime mime) stream).effect P call.env s.committed =
          .ok (reply, s'.committed)) ∧
        ∀ p ∈ s'.committed.payloads, p ∈ s.committed.payloads ∨ p.bytes = stream := by
  have hnew := Transfer.collects_new stream limit started
  refine ⟨fun t h => ?_, fun hlong t h => ?_, fun t h tick later => ⟨fun hlate => ?_, fun t' => ?_⟩,
    fun call mime s hstart hchange => ?_⟩
  · obtain ⟨hdata, hlength, hblank⟩ := pump_ended hnew h
    refine ⟨hdata, hlength, fun rewinds => ⟨?_, fun file hfile => ?_⟩⟩
    · have hall : t.nonblank = false ↔ ∀ b ∈ stream, isAsciiWhitespace b = true := by
        rw [hblank]
        simp
      rw [← hall, Transfer.finish]
      cases t.nonblank <;> cases rewinds <;> simp
    · rw [Transfer.finish] at hfile
      rw [← hdata]
      cases hnonblank : t.nonblank <;> cases rewinds <;> simp_all
  · obtain ⟨-, hlength, -⟩ := pump_ended hnew h
    omega
  · have hbegun := (pump_running hnew h).begun
    rw [pump_append h, pump, Transfer.receive_late (hbegun ▸ hlate)]
  · exact Transfer.receive_progress
  · intro s'
    rcases ingest_store P call mime s with h | ⟨policy, bytes, hadmit, h⟩
    · exact .inl (congrArg Store.committed h)
    · obtain rfl := admitBytes_stream hstart hchange hadmit
      have hs' : s'.committed = _ := congrArg Store.committed h
      rw [hs']
      rcases Store.request_durable P s (.insert (captureMime mime) bytes) call.env call.faults with
        h | ⟨reply, h⟩
      · exact .inl h
      · exact .inr ⟨⟨reply, h⟩, payloads_insert h⟩

/-- A file that held two bytes when it was inspected, and other two when it was read. -/
def overwritten : CaptureFile where
  content access := if access < 2 then asBytes "ab" else asBytes "xy"
  fails _ := false
  room _ := 8

/-- An open store, and a call that finds the file. -/
def openPolicy : StorePolicy := { Tables.fresh.effectivePolicy with admission := true }

def openStore (P : Platform) : Store :=
  Store.fresh.step P (.request (.applyPolicy openPolicy) ⟨World.empty, "0"⟩ Faults.none)

def overwrittenCall : IngestCall where
  running := .ok ()
  policy := .ok openPolicy
  file := overwritten
  submitted := .ok ()
  env := ⟨World.empty, "1"⟩
  faults := Faults.none
  later := .ok openPolicy
  observed := .ok ()

/-- Bytes written over the captured ones while they are read are stored in their place. -/
theorem captured_overwritten :
    overwrittenCall.file.content 0 = asBytes "ab" ∧
    ((ingest Platform.plain overwrittenCall "TEXT"
      (openStore Platform.plain)).2.committed.payloads.map
      (·.bytes)) = [asBytes "xy"] := by
  constructor <;> decide +kernel

/-- The same call for a file nobody touches. -/
theorem captured_whole_untouched :
    pump [⟨0, .ready 0, true⟩, ⟨1, .wouldBlock, true⟩, ⟨2, .ready 7, true⟩, ⟨3, .ready 0, true⟩]
        (.new (asBytes "ab") 4 0) = .ended ⟨[], asBytes "ab", 2, 4, true, 0, 2⟩ ∧
    let s' := (ingest Platform.plain { overwrittenCall with file.content := fun _ => asBytes "ab" }
      "TEXT" (openStore Platform.plain)).2
    ∀ p ∈ s'.committed.payloads, p.bytes = asBytes "ab" := by
  obtain ⟨-, -, -, hingest⟩ := captured_whole Platform.plain (asBytes "ab") 4 0 []
  refine ⟨by decide +kernel, fun p hp => ?_⟩
  have hempty : (openStore Platform.plain).committed.payloads = [] := by decide +kernel
  rcases hingest { overwrittenCall with file.content := fun _ => asBytes "ab" } "TEXT"
      (openStore Platform.plain) rfl (fun _ => .inl (List.prefix_refl _)) with h | ⟨-, h⟩
  · rw [h, hempty] at hp
    cases hp
  · rcases h p hp with h | h
    · rw [hempty] at h
      cases h
    · exact h

end ClipDaemon.Capture
