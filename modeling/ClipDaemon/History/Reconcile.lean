import ClipDaemon.History.Artifacts
import ClipDaemon.Store.Echo

/-!
# What a cleanup may unlink

A cleanup reads its candidates in one query and then goes through them file by file.  It holds
the lock of the backend, so what can happen in between is little: entries disappear, and
nothing that it looked at comes back (`Still`).  With that each file it unlinks is owned,
unreferenced and inactive at that moment (`cleanup_unlinks_owned`).

One reference is missed.  The database finds the entries that name a file by comparing texts,
and a text may name the same file with a doubled slash (`doubled_slash_missed`).
-/

namespace ClipDaemon

open SideTable
open Thread (attempt outcome result)
open Capture (captureMime)

/-! ## Changes of the tables -/

/-- The payloads of `t'` are those of `t`, and perhaps `bytes`, and its records are those of `t`. -/
structure Stores (bytes : Option Bytes) (t t' : Tables) : Prop where
  payloads : ∀ p ∈ t'.payloads, p ∈ t.payloads ∨ bytes = some p.bytes
  artifacts : t'.artifacts = t.artifacts

namespace Stores

variable {bytes : Option Bytes} {t t' : Tables}

theorem refl (bytes : Option Bytes) (t : Tables) : Stores bytes t t := ⟨fun _ h => .inl h, rfl⟩

theorem same (bytes : Option Bytes) (hp : t'.payloads = t.payloads)
    (ha : t'.artifacts = t.artifacts) : Stores bytes t t' :=
  ⟨fun _ h => .inl (hp ▸ h), ha⟩

theorem deleteEntries (h : Stores bytes t t') (ids : List String) :
    Stores bytes t (t'.deleteEntries ids) where
  payloads p hp := h.payloads p (List.mem_filter.mp hp).1
  artifacts := h.artifacts

theorem retained (h : Stores bytes t t') (policy : StorePolicy) (id : String) :
    Stores bytes t (t'.retained policy id) :=
  (((h.deleteEntries _).deleteEntries _).deleteEntries _).deleteEntries _

theorem bumped (h : Stores bytes t t') : Stores bytes t t'.bumped := ⟨h.payloads, h.artifacts⟩

/-- A content is written into tables that hold no other payloads than before. -/
theorem written {P : Platform} {env : Env} {id mime : String} {content : Bytes}
    (hp : ∀ p ∈ t'.payloads, p ∈ t.payloads) (ha : t'.artifacts = t.artifacts) :
    Stores (some content) t (t'.written P env id mime content) := by
  have hlinked (link : Option String) (u : Tables) :
      (u.linked link id).payloads = u.payloads ∧ (u.linked link id).artifacts = u.artifacts := by
    cases link <;> exact ⟨rfl, rfl⟩
  constructor
  · intro p hmem
    rw [Tables.written, (hlinked _ _).1] at hmem
    rcases List.mem_append.mp hmem with hmem | hmem
    · exact .inl (hp p hmem)
    · rw [List.mem_singleton.mp hmem]
      exact .inr rfl
  · rw [Tables.written, (hlinked _ _).2]
    exact ha

end Stores

namespace Request

/-- The payload that a request stores. -/
def stored : Request → Option Bytes
  | .insert _ bytes => some bytes
  | .replace _ _ _ bytes => some bytes
  | _ => none

variable {P : Platform} {env : Env} {t t' : Tables} {reply : Reply}

/-- A request that is not about the records keeps them, and stores its payload at most. -/
theorem effect_stores {request : Request} (h : request.effect P env t = .ok (reply, t'))
    (hregister : ∀ record, request ≠ .registerArtifact record)
    (hforget : ∀ path, request ≠ .forgetArtifact path) : Stores request.stored t t' := by
  unfold effect at h
  cases request with
  | applyPolicy next =>
      simp only [job] at h
      split at h
      · rcases Database.applyPolicy_ok (unit_ok h).2 with ⟨-, ht⟩ | ⟨-, -, -, -, -, -, ht⟩
        · simp only at ht
          exact ht ▸ .refl _ _
        · simp only at ht
          subst ht
          have hs : Stores none t ({ t with effectivePolicy := next } : Tables) := .same _ rfl rfl
          exact (hs.retained next "").bumped
      · exact direct_ok h ▸ .refl _ _
  | insert mime bytes =>
      obtain ⟨summary, -, hbody⟩ := entry_ok h
      obtain ⟨-, -, -, hcases⟩ := Database.insert_ok hbody
      rcases hcases with ⟨_, _, -, -, -, ht⟩ | ⟨-, -, id, e, -, -, hplaced⟩
      · cases ht
        exact .refl _ _
      · rcases hplaced with ⟨-, ht⟩ | ⟨-, -, -, -, ht⟩
        · simp only at ht
          subst ht
          have hs : Stores (some bytes) t (t.promoted id) := .same _ rfl rfl
          exact hs.retained _ _
        · simp only at ht
          subst ht
          have hs : Stores (some bytes) t (t.created P env mime bytes) :=
            Stores.written (fun _ hp => hp) rfl
          exact hs.retained _ _
  | replace id expected mime bytes =>
      obtain ⟨summary, -, hbody⟩ := entry_ok h
      obtain ⟨e, -, -, -, -, -, ht, -⟩ := Database.replace_ok hbody
      simp only at ht
      subst ht
      have hs : Stores (some bytes) t (t.replaced P env id expected mime bytes) :=
        Stores.written (fun _ hp => (List.mem_filter.mp hp).1) rfl
      exact hs.retained _ _
  | favorite id expected value =>
      obtain ⟨e, -, -, hcases⟩ := Database.favorite_ok (unit_ok h).2
      rcases hcases with ⟨-, ht⟩ | ⟨-, -, ht⟩
      · simp only at ht
        exact ht ▸ .refl _ _
      · simp only at ht
        subst ht
        have hs : Stores none t (t.favorited id expected value) := .same _ rfl rfl
        exact hs.retained _ _
  | removeMany targets =>
      simp only [job] at h
      split at h
      · exact direct_ok h ▸ .refl _ _
      · obtain ⟨-, -, ht⟩ := Database.removeMany_ok (unit_ok h).2
        simp only at ht
        exact ht ▸ ((Stores.refl _ _).deleteEntries _).bumped
  | wipe =>
      obtain ⟨-, ht⟩ := Database.wipe_ok (unit_ok h).2
      simp only at ht
      subst ht
      exact ⟨((Stores.refl none t).deleteEntries _).payloads, rfl⟩
  | registerArtifact record => exact absurd rfl (hregister record)
  | forgetArtifact path => exact absurd rfl (hforget path)
  | registerInlineEcho record =>
      simp only [job] at h
      split at h
      · have hbody := (unit_ok h).2
        simp only [Database.registerInlineEcho, Prog.eval_bind, eval_exec, Tables.upsertInlineEcho,
          Except.map] at hbody
        cases hbody
        exact .same _ rfl rfl
      · exact direct_ok h ▸ .refl _ _
  | clearInlineEchoes =>
      have hbody := (unit_ok h).2
      rw [Database.clearInlineEchoes, exec_ok] at hbody
      cases hbody
      exact .same _ rfl rfl
  | _ => exact direct_ok h ▸ .refl _ _

theorem effect_register {record : ArtifactRecord}
    (h : (Request.registerArtifact record).effect P env t = .ok (reply, t')) :
    Database.validArtifact record = .ok () ∧
      t' = { t with
        artifacts := t.artifacts.filter (fun a => a.path ≠ record.path) ++ [record] } := by
  simp only [effect, job] at h
  split at h
  · cases h
  next hvalid => exact ⟨hvalid, Database.registerArtifact_ok (unit_ok h).2⟩

theorem effect_forget {path : FilePath}
    (h : (Request.forgetArtifact path).effect P env t = .ok (reply, t')) :
    t' = t.deleteArtifact path := by
  simp only [effect, job] at h
  split at h
  · cases h
  next hpath =>
    obtain ⟨text, -, rfl⟩ := Option.map_eq_some_iff.mp hpath
    have hbody := (unit_ok h).2
    rw [Database.forgetArtifact, exec_ok] at hbody
    exact (Except.ok.inj hbody).symm

end Request

/-- Entries and references have disappeared at most. -/
structure Shrinks (t t' : Tables) : Prop where
  entries : ∀ id, t'.hasEntry id = true → t.hasEntry id = true
  references : ∀ row ∈ t'.entryArtifacts, row ∈ t.entryArtifacts

theorem Shrinks.refl (t : Tables) : Shrinks t t := ⟨fun _ h => h, fun _ h => h⟩

theorem Shrinks.trans {t t' t'' : Tables} (h : Shrinks t t') (h' : Shrinks t' t'') :
    Shrinks t t'' :=
  ⟨fun id hid => h.entries id (h'.entries id hid),
    fun row hrow => h.references row (h'.references row hrow)⟩

theorem Shrinks.deleteEntries {t t' : Tables} (h : Shrinks t t') (ids : List String) :
    Shrinks t (t'.deleteEntries ids) where
  entries id hid := by
    obtain ⟨e, he, rfl⟩ := hasEntry_iff.mp hid
    obtain ⟨e', he', -, rfl⟩ := (mem_deleteEntries ids).mp he
    exact h.entries _ (hasEntry_iff.mpr ⟨e', he', by simp⟩)
  references row hrow := h.references row (List.mem_filter.mp hrow).1

theorem Shrinks.retained {t t' : Tables} (h : Shrinks t t') (policy : StorePolicy) (id : String) :
    Shrinks t (t'.retained policy id) :=
  (((h.deleteEntries _).deleteEntries _).deleteEntries _).deleteEntries _

/-- What the operations without the lock of the backend do to the tables. -/
structure Quits (t t' : Tables) : Prop where
  stores : Stores none t t'
  shrinks : Shrinks t t'

namespace Store

theorem closeAdmission_quits (t : Tables) : Quits t t.closeAdmission :=
  ⟨.same _ rfl rfl, fun _ h => h, fun _ h => h⟩

theorem applyPolicy_quits (P : Platform) (s : Store) (next : StorePolicy) (env : Env)
    (faults : Faults) :
    Quits s.committed (s.step P (.request (.applyPolicy next) env faults)).committed := by
  rcases request_durable P s (.applyPolicy next) env faults with h | ⟨reply, h⟩
  · rw [h]
    exact ⟨.refl _ _, .refl _⟩
  · refine ⟨Request.effect_stores h (fun _ h => nomatch h) (fun _ h => nomatch h), ?_⟩
    simp only [Request.effect, Request.job] at h
    split at h
    · rcases Database.applyPolicy_ok (Request.unit_ok h).2 with ⟨-, ht⟩ | ⟨-, -, -, -, -, -, ht⟩
      · simp only at ht
        exact ht ▸ .refl _
      · simp only at ht
        rw [ht]
        have hs : Shrinks s.committed { s.committed with effectivePolicy := next } :=
          ⟨fun _ h => h, fun _ h => h⟩
        exact ⟨(hs.retained next "").entries, (hs.retained next "").references⟩
    · exact Request.direct_ok h ▸ .refl _

theorem transaction_quits (faults : Faults) (db : Database) :
    Quits db.durable (db.transaction faults Database.closeAdmission).2.durable := by
  rcases Database.transaction_durable faults Database.closeAdmission db with h | ⟨value, h⟩
  · rw [h]
    exact ⟨.refl _ _, .refl _⟩
  · rw [Database.eval_closeAdmission, Except.ok.injEq, Prod.mk.injEq] at h
    rw [← h.2]
    exact closeAdmission_quits _

theorem shutdown_quits (P : Platform) (s : Store) (checkpoint : Bool) (faults : Faults) :
    Quits s.committed (s.step P (.shutdown checkpoint faults)).committed := by
  simp only [step, committed]
  split
  · simp only [Database.shutdown]
    split
    · exact ⟨.refl _ _, .refl _⟩
    · have h := transaction_quits faults s.db
      split
      next heq => rw [heq] at h; exact h
      next heq =>
        rw [heq] at h
        split <;> exact h
  · exact ⟨.refl _ _, .refl _⟩

theorem reopen_quits (P : Platform) (s : Store) (before after : Bool) (faults : Faults) :
    Quits s.committed (s.step P (.reopen before after faults)).committed := by
  simp only [step, committed, Database.openExisting]
  split
  · exact ⟨.refl _ _, .refl _⟩
  · have h := transaction_quits faults (Database.recovered s.db.durable)
    split
    next heq => rw [heq] at h; exact h
    next heq =>
      rw [heq] at h
      split <;> exact h

end Store

namespace Artifacts

variable {F : Type}

/-! ## Statement -/

/-- A line of the payload parses to a file URI of the path. -/
def Names (P : Platform) (bytes : Bytes) (path : FilePath) : Prop :=
  ∃ p ∈ filePaths P bytes, samePath p path = true

/-- The path lies directly in the real private directory of the daemon, under a generated
name. -/
def Owned (H : Host F) (files : F) (path : FilePath) : Prop :=
  ∃ root real metadata, H.root = some root ∧ hasParent path root = true ∧
    H.canonicalize files root = some real ∧ samePath real root = true ∧
    H.symlinkMetadata files root = .ok metadata ∧ metadata.isDir = true ∧
    metadata.uid = H.euid ∧ metadata.mode &&& 0o022 = 0 ∧ H.generatedFile path = true

/-- The path holds the regular file, with no other link, that the record was made for. -/
def Recorded (H : Host F) (files : F) (record : ArtifactRecord) : Prop :=
  ∃ metadata, H.symlinkMetadata files record.path = .ok metadata ∧ metadata.isFile = true ∧
    metadata.nlink = 1 ∧ metadata.dev = record.device ∧ metadata.ino = record.inode ∧
    metadata.uid = record.owner ∧ record.owner = H.euid

/-- At that moment the cleanup may unlink the file of the record. -/
structure Provable (P : Platform) (H : Host F) (m : Moment F) (cleanup : Cleanup)
    (record : ArtifactRecord) : Prop where
  registered : record ∈ m.tables.artifacts
  owned : Owned H m.files record.path
  file : Recorded H m.files record
  inactive : ∀ path, m.active = some path → samePath path record.path = false
  orphan : m.tables.hasEntry record.sourceEntryId = false
  unreferenced : ∀ e ∈ m.tables.entries, ∀ p ∈ m.tables.payloads, p.entryId = e.id →
    ¬ Names P p.bytes record.path
  aged : ∀ now, cleanup = .reconcile now → record.createdAt + 60 ≤ now

/-- A payload that names a generated file spells its path as the daemon does. -/
def Spelled (P : Platform) (H : Host F) (bytes : Bytes) : Prop :=
  ∀ p ∈ filePaths P bytes, ∀ directory name, H.root = some directory →
    H.generatedFile (joinPath directory name) = true →
    samePath p (joinPath directory name) = true → p = joinPath directory name

/-- What the surroundings owe to a cleanup: the daemon's own spelling of its files, and a
clock that was set. -/
def Event.Fair (P : Platform) (H : Host F) : Event F → Prop
  | .stored bytes => Spelled P H bytes
  | .began now => 60 ≤ now
  | _ => True

def Fair (P : Platform) (H : Host F) (log : List (Event F)) : Prop := ∀ e ∈ log, e.Fair P H

/-- The store refused to forget the record of the path, or the daemon was killed at work. -/
def Event.Hinders (path : FilePath) : Event F → Prop
  | .refused p => p = path
  | .killed => True
  | _ => False

/-- Nothing has kept the daemon from forgetting the record of the path. -/
def Unhindered (path : FilePath) (log : List (Event F)) : Prop := ∀ e ∈ log, ¬ e.Hinders path

/-- Was the path lost, after this event? -/
def Event.lose (path : FilePath) (lost : Bool) : Event F → Bool
  | .registered p => lost && p ≠ path
  | .found p => lost || p = path
  | _ => lost

/-- The record of the path was found replaced or no longer provable, and the path was not
registered since. -/
def lost (path : FilePath) (log : List (Event F)) : Bool := log.foldl (Event.lose path) false

@[simp] theorem lost_append (path : FilePath) (log : List (Event F)) (e : Event F) :
    lost path (log ++ [e]) = e.lose path (lost path log) := by
  simp [lost]

/-! ## The invariant -/

/-- A path that the daemon has made up. -/
def Generated (H : Host F) (path : FilePath) : Prop :=
  ∃ directory name, H.root = some directory ∧ path = joinPath directory name ∧
    H.generatedFile path = true

/-- The file was provably owned and unreferenced when it was unlinked after such a log, and its
record was not one to forget. -/
def Rightful (P : Platform) (H : Host F) (before : List (Event F)) (cleanup : Cleanup)
    (record : ArtifactRecord) (moment : Moment F) : Prop :=
  (Fair P H before → Provable P H moment cleanup record) ∧
    (Unhindered record.path before → lost record.path before = false)

/-- Every file that a cleanup has unlinked was unlinked rightfully. -/
def Justified (P : Platform) (H : Host F) (log : List (Event F)) : Prop :=
  ∀ before cleanup record moment after, log = before ++ .unlinked cleanup record moment :: after →
    cleanup ≠ .rollback → Rightful P H before cleanup record moment

/-- The last event of the log is no record found replaced. -/
def Quiet (s : Backend F) : Prop := ∀ path, s.log.getLast? ≠ some (.found path)

/-- A record that was found replaced is about to be forgotten. -/
def Forgets (s : Backend F) : Prop :=
  ∀ a ∈ s.committed.artifacts, Unhindered a.path s.log → lost a.path s.log = true →
    s.log.getLast? = some (.found a.path)

/-- What holds of the backend in every state that can be reached. -/
structure Valid (P : Platform) (H : Host F) (s : Backend F) : Prop where
  wellFormed : WellFormed P s.committed
  settled : s.store.db.Settled
  paths : (s.committed.artifacts.map (·.path)).Nodup
  generated : ∀ a ∈ s.committed.artifacts, Generated H a.path ∧ toStr a.path = some a.path
  stored : ∀ p ∈ s.committed.payloads, .stored p.bytes ∈ s.log
  justified : Justified P H s.log
  forgets : Forgets s
  idle : s.transaction = none → Quiet s

theorem Unhindered.of_append {path : FilePath} {log : List (Event F)} {e : Event F}
    (h : Unhindered path (log ++ [e])) : Unhindered path log ∧ ¬ e.Hinders path :=
  ⟨fun e' he' => h e' (List.mem_append_left _ he'), h e (by simp)⟩

theorem Justified.append {P : Platform} {H : Host F} {log : List (Event F)} {e : Event F}
    (h : Justified P H log)
    (he : ∀ cleanup record moment, e = .unlinked cleanup record moment → cleanup ≠ .rollback →
      Rightful P H log cleanup record moment) :
    Justified P H (log ++ [e]) := by
  intro before cleanup record moment after hlog hcleanup
  rcases List.eq_nil_or_concat after with rfl | ⟨rest, last, rfl⟩
  · obtain ⟨rfl, hlast⟩ := List.append_inj' hlog rfl
    exact he cleanup record moment (List.singleton_injective hlast) hcleanup
  · rw [List.concat_eq_append, ← List.cons_append, ← List.append_assoc] at hlog
    exact h before cleanup record moment rest (List.append_inj' hlog rfl).1 hcleanup

section Valid

variable {P : Platform} {H : Host F} {s : Backend F}

/-- An event is added to the log. -/
theorem Valid.note (h : Valid P H s) {e : Event F} (hbusy : s.transaction ≠ none)
    (hunlinked : ∀ cleanup record moment, e = .unlinked cleanup record moment →
      cleanup ≠ .rollback → Rightful P H s.log cleanup record moment)
    (hlost : ∀ a ∈ s.committed.artifacts, Unhindered a.path s.log → ¬ e.Hinders a.path →
      e.lose a.path (lost a.path s.log) = true → e = .found a.path) :
    Valid P H (s.note e) where
  wellFormed := h.wellFormed
  settled := h.settled
  paths := h.paths
  generated := h.generated
  stored p hp := List.mem_append_left _ (h.stored p hp)
  justified := h.justified.append hunlinked
  forgets a ha hfree hl := by
    obtain ⟨hfree, he⟩ := Unhindered.of_append hfree
    rw [Backend.note, lost_append] at hl
    rw [hlost a ha hfree he hl]
    simp [Backend.note]
  idle hnone := absurd hnone hbusy

theorem Valid.not_lost (h : Valid P H s) (hquiet : Quiet s) {a : ArtifactRecord}
    (ha : a ∈ s.committed.artifacts) (hfree : Unhindered a.path s.log) :
    lost a.path s.log = false := by
  cases hlost : lost a.path s.log with
  | false => rfl
  | true => exact absurd (h.forgets a ha hfree hlost) (hquiet a.path)

/-- A change that is not of the store or of the log. -/
theorem Valid.congr {t : Backend F} (h : Valid P H s) (hstore : t.store = s.store)
    (hlog : t.log = s.log) (htransaction : t.transaction = none → s.transaction = none ∨ Quiet s) :
    Valid P H t := by
  have hcommitted : t.committed = s.committed := by
    rw [Backend.committed, hstore, Backend.committed]
  refine ⟨?_, ?_, ?_, ?_, ?_, ?_, ?_, fun hnone path => ?_⟩
  · rw [hcommitted]
    exact h.wellFormed
  · rw [hstore]
    exact h.settled
  · rw [hcommitted]
    exact h.paths
  · rw [hcommitted]
    exact h.generated
  · rw [hcommitted, hlog]
    exact h.stored
  · rw [hlog]
    exact h.justified
  · intro a ha hfree hlost
    rw [hlog] at hfree hlost
    rw [hcommitted] at ha
    rw [hlog]
    exact h.forgets a ha hfree hlost
  · rw [hlog]
    rcases htransaction hnone with hfree | hquiet
    · exact h.idle hfree path
    · exact hquiet path

/-- The store moves, and stores nothing but payloads of the log. -/
theorem Valid.store {store : Store} (h : Valid P H s)
    (hchange : Change P s.committed store.committed)
    (hsettled : store.db.Settled)
    (hpayloads : ∀ p ∈ store.committed.payloads, p ∈ s.committed.payloads ∨ .stored p.bytes ∈ s.log)
    (hpaths : (store.committed.artifacts.map (·.path)).Nodup)
    (hrecords : ∀ a ∈ store.committed.artifacts, a ∈ s.committed.artifacts ∨
      (Generated H a.path ∧ toStr a.path = some a.path) ∧ lost a.path s.log = false) :
    Valid P H { s with store } where
  wellFormed := hchange.wellFormed h.wellFormed
  settled := hsettled
  paths := hpaths
  generated a ha := by
    rcases hrecords a ha with ha | ⟨ha, -⟩
    · exact h.generated a ha
    · exact ha
  stored p hp := by
    rcases hpayloads p hp with hp | hp
    · exact h.stored p hp
    · exact hp
  justified := h.justified
  forgets a ha hfree hlost := by
    rcases hrecords a ha with ha | ⟨-, ha⟩
    · exact h.forgets a ha hfree hlost
    · rw [ha] at hlost
      cases hlost
  idle := h.idle

theorem Valid.stores {store : Store} {bytes : Option Bytes} (h : Valid P H s)
    (hchange : Change P s.committed store.committed) (hsettled : store.db.Settled)
    (hstores : Stores bytes s.committed store.committed)
    (hbytes : ∀ b, bytes = some b → .stored b ∈ s.log) : Valid P H { s with store } := by
  refine h.store hchange hsettled (fun p hp => ?_) ?_ fun a ha => .inl (hstores.artifacts ▸ ha)
  · rcases hstores.payloads p hp with hp | hp
    · exact .inl hp
    · exact .inr (hbytes _ hp)
  · rw [hstores.artifacts]
    exact h.paths

/-- What the log must hold before a request is made. -/
def Backed (H : Host F) (log : List (Event F)) : Request → Prop
  | .registerArtifact record => Generated H record.path ∧ lost record.path log = false
  | r => ∀ b, r.stored = some b → .stored b ∈ log

theorem Valid.request (h : Valid P H s) {r : Request} (hr : Backed H s.log r) (env : Env)
    (faults : Faults) : Valid P H { s with store := s.store.step P (.request r env faults) } := by
  have hchange := Store.step_change P s.store (.request r env faults)
  have hsettled := Store.settled_step P h.settled (.request r env faults)
  rcases Store.request_durable P s.store r env faults with heq | ⟨reply, heffect⟩
  · have hstores : Stores none s.committed (s.store.step P (.request r env faults)).committed :=
      .same _ (by rw [heq]; rfl) (by rw [heq]; rfl)
    exact h.stores hchange hsettled hstores fun b hb => nomatch hb
  generalize s.store.step P (.request r env faults) = store at *
  by_cases hregister : ∃ record, r = .registerArtifact record
  · obtain ⟨record, rfl⟩ := hregister
    obtain ⟨hvalid, htables⟩ := Request.effect_register heffect
    refine h.store hchange hsettled (fun p hp => ?_) ?_ fun a ha => ?_
    · rw [htables] at hp
      exact .inl hp
    · rw [htables, List.map_append]
      refine List.Nodup.append (h.paths.sublist (List.filter_sublist.map _))
        (List.nodup_singleton _) ?_
      intro path hpath hlast
      obtain ⟨a, ha, rfl⟩ := List.mem_map.mp hpath
      exact absurd (List.mem_singleton.mp hlast) (by simpa using (List.mem_filter.mp ha).2)
    · rw [htables] at ha
      rcases List.mem_append.mp ha with ha | ha
      · exact .inl (List.mem_filter.mp ha).1
      · rw [List.mem_singleton.mp ha]
        refine .inr ⟨⟨hr.1, ?_⟩, hr.2⟩
        unfold Database.validArtifact at hvalid
        split at hvalid
        · cases hvalid
        next hpath =>
          obtain ⟨text, htext, rfl⟩ := Option.map_eq_some_iff.mp hpath
          exact hpath
  by_cases hforget : ∃ path, r = .forgetArtifact path
  · obtain ⟨path, rfl⟩ := hforget
    have htables := Request.effect_forget heffect
    refine h.store hchange hsettled (fun p hp => ?_) ?_ fun a ha => ?_
    · rw [htables] at hp
      exact .inl hp
    · rw [htables]
      exact h.paths.sublist (List.filter_sublist.map _)
    · rw [htables] at ha
      exact .inl (List.mem_filter.mp ha).1
  push Not at hregister hforget
  refine h.stores hchange hsettled (Request.effect_stores heffect hregister hforget) ?_
  cases r with
  | registerArtifact record => exact absurd rfl (hregister record)
  | _ => exact hr

end Valid

/-! ## The discipline of the lock -/

/-- What the thread that holds the lock finds between two of its statements. -/
structure Still (s t : Backend F) : Prop where
  transaction : t.transaction = s.transaction
  active : t.active = s.active
  pass : t.pass = s.pass
  files : s.pass = true → t.files = s.files
  log : t.log = s.log
  artifacts : t.committed.artifacts = s.committed.artifacts
  shrinks : Shrinks s.committed t.committed

theorem Still.refl (s : Backend F) : Still s s :=
  ⟨rfl, rfl, rfl, fun _ => rfl, rfl, rfl, .refl _⟩

theorem Still.trans {s t u : Backend F} (h : Still s t) (h' : Still t u) : Still s u where
  transaction := h'.transaction.trans h.transaction
  active := h'.active.trans h.active
  pass := h'.pass.trans h.pass
  files hpass := (h'.files (h.pass.trans hpass)).trans (h.files hpass)
  log := h'.log.trans h.log
  artifacts := h'.artifacts.trans h.artifacts
  shrinks := h.shrinks.trans h'.shrinks

/-- Who holds the transaction lock has the backend to itself. -/
def discipline (P : Platform) (H : Host F) : Discipline (Backend F) where
  valid := Valid P H
  grows _ _ := True
  rely i s t := s.transaction = some i → Still s t
  fresh _ _ := True
  grows_refl _ := trivial
  grows_trans _ _ := trivial
  rely_refl _ s _ := .refl s
  rely_trans h h' hs := (h hs).trans (h' ((h hs).transaction.trans hs))
  fresh_rely _ _ := trivial

section Rules

variable {P : Platform} {H : Host F} {i : Nat} {s : Backend F} {α β : Type}

/-- Only the thread that holds the lock is concerned. -/
theorem allows_of_holder {t : Backend F} (hs : s.transaction = some i) (ht : Valid P H t) :
    (discipline P H).Allows i s t where
  valid := ht
  grows := trivial
  others _ hne hj := absurd (Option.some.inj (hj.symm.trans hs)) hne

/-- One statement of the thread that holds the lock. -/
theorem keeps_statement {op : Chance → Backend F → Option (BackendResult α × Backend F)}
    {Q : BackendResult α → Backend F → Prop} (hs : s.transaction = some i)
    (h : ∀ t, Valid P H t → Still s t → t.transaction = some i → ∀ c r u, op c t = some (r, u) →
      Valid P H u ∧ Q r u) : (attempt op).run.Keeps (discipline P H) i Q s := by
  refine Thread.keeps_attempt fun t ht hrely c r u hop => ?_
  have hstill := hrely hs
  have hholder := hstill.transaction.trans hs
  obtain ⟨hu, hQ⟩ := h t ht hstill hholder c r u hop
  exact ⟨allows_of_holder hholder hu, hQ⟩

theorem keeps_read {f : Backend F → α} {Q : BackendResult α → Backend F → Prop}
    (hs : s.transaction = some i)
    (h : ∀ t, Valid P H t → Still s t → t.transaction = some i → Q (.ok (f t)) t) :
    (read f).run.Keeps (discipline P H) i Q s := by
  refine keeps_statement hs fun t ht hstill hholder c r u hop => ?_
  cases hop
  exact ⟨ht, h t ht hstill hholder⟩

/-- A read, and what follows it. -/
theorem keeps_read_bind {f : Backend F → α} {k : α → Act F β}
    {Q : BackendResult β → Backend F → Prop} (hs : s.transaction = some i)
    (h : ∀ t, Valid P H t → Still s t → t.transaction = some i →
      (k (f t)).run.Keeps (discipline P H) i Q t) :
    (read f >>= k).run.Keeps (discipline P H) i Q s :=
  Thread.keeps_run_bind (keeps_read hs h)

theorem keeps_write {f : Backend F → Backend F} {Q : BackendResult Unit → Backend F → Prop}
    (hs : s.transaction = some i)
    (h : ∀ t, Valid P H t → Still s t → t.transaction = some i → Valid P H (f t) ∧
      Q (.ok ()) (f t)) :
    (write f).run.Keeps (discipline P H) i Q s := by
  refine keeps_statement hs fun t ht hstill hholder c r u hop => ?_
  cases hop
  exact h t ht hstill hholder

/-- What an answer of the store says about its state. -/
def Served (P : Platform) (r : Request) (t : Backend F) (answer : BackendResult Reply)
    (u : Backend F) : Prop :=
  (u = t ∧ ∃ error, answer = .error error) ∨
    ∃ env faults, u = { t with store := t.store.step P (.request r env faults) } ∧
      ∀ reply, answer = .ok reply → ∃ reply', r.effect P env t.committed = .ok (reply', u.committed)

theorem serve_request {c : Chance} {r : Request} {env : Env} {answer : BackendResult Reply}
    {u : Backend F} (hsettled : s.store.db.Settled)
    (h : s.serve (s.store.db.execute c.faults (r.job P env)) c = (answer, u)) :
    Served P r s answer u := by
  unfold Backend.serve at h
  split at h
  · cases h
    exact .inl ⟨rfl, _, rfl⟩
  split at h
  · cases h
    exact .inl ⟨rfl, _, rfl⟩
  next hopen =>
    split at h
    · cases h
      exact .inl ⟨rfl, _, rfl⟩
    next hblocked =>
      simp only [Bool.not_eq_true, Bool.not_eq_false'] at hopen hblocked
      have hstep : s.store.step P (.request r env c.faults) =
          { s.store with db := (s.store.db.execute c.faults (r.job P env)).2 } := by
        simp [Store.step, hopen]
      cases h
      refine .inr ⟨env, c.faults, by rw [hstep], fun reply hreply => ?_⟩
      have hready : s.store.db.Ready := ⟨hblocked, hsettled hblocked⟩
      have hcases := Database.execute_ready P c.faults ⟨r, env⟩ hready
      simp only [hreply] at hcases
      rcases hcases with ⟨-, happly, -⟩ | ⟨e, he, -⟩ | ⟨e, he, -⟩
      · unfold Call.apply at happly
        split at happly
        next reply' t' heffect =>
          cases happly
          exact ⟨reply', heffect⟩
        · cases happly
      · cases he
      · cases he

theorem keeps_request {r : Request} {Q : BackendResult Reply → Backend F → Prop}
    (hs : s.transaction = some i) (hr : Backed H s.log r)
    (h : ∀ t answer u, Valid P H t → Still s t → t.transaction = some i → Valid P H u →
      Served P r t answer u → Q answer u) :
    (request P H r).run.Keeps (discipline P H) i Q s := by
  refine keeps_statement hs fun t ht hstill hholder c answer u hop => ?_
  have hserved : Served P r t answer u := by
    split at hop
    · cases hop
      exact .inl ⟨rfl, _, rfl⟩
    · exact serve_request ht.settled (Option.some.inj hop)
  have hu : Valid P H u := by
    rcases hserved with ⟨rfl, -⟩ | ⟨env, faults, rfl, -⟩
    · exact ht
    · exact ht.request (hstill.log ▸ hr) env faults
  exact ⟨hu, h t answer u ht hstill hholder hu hserved⟩

/-! ## Requests that unlink nothing -/

/-- The thread holds the lock, and no record waits to be forgotten. -/
def Mine (i : Nat) (s : Backend F) : Prop := s.transaction = some i ∧ Quiet s

theorem Mine.still {t : Backend F} (h : Mine i s) (hstill : Still s t) : Mine i t :=
  ⟨hstill.transaction.trans h.1, fun path => hstill.log ▸ h.2 path⟩

/-- The program runs to its end with the lock in its hand. -/
def Safe (P : Platform) (H : Host F) (i : Nat) (m : Act F α) : Prop :=
  ∀ s, Mine i s → m.run.Keeps (discipline P H) i (fun _ u => Mine i u) s

theorem safe_pure (a : α) : Safe P H i (pure a : Act F α) := fun _ hs => hs

theorem safe_throw (e : BackendError) : Safe P H i (throw e : Act F α) := fun _ hs => hs

theorem safe_result (r : BackendResult α) : Safe P H i (result r : Act F α) := fun _ hs => hs

theorem safe_bind {m : Act F α} {k : α → Act F β} (hm : Safe P H i m)
    (hk : ∀ a, Safe P H i (k a)) : Safe P H i (m >>= k) := by
  intro s hs
  refine Thread.keeps_run_bind ((hm s hs).weaken fun r u hu => ?_)
  cases r with
  | ok a => exact hk a u hu
  | error e => exact hu

theorem safe_outcome {m : Act F α} (hm : Safe P H i m) : Safe P H i (outcome m) :=
  fun s hs => Thread.keeps_outcome (hm s hs)

/-- A statement that is not about the store or the log. -/
theorem keeps_plain {op : Chance → Backend F → Option (BackendResult α × Backend F)}
    {Q : BackendResult α → Prop} (hs : Mine i s)
    (h : ∀ c t r u, op c t = some (r, u) →
      (u.store = t.store ∧ u.log = t.log ∧ u.transaction = t.transaction) ∧ Q r) :
    (attempt op).run.Keeps (discipline P H) i (fun r u => Mine i u ∧ Q r) s := by
  refine keeps_statement hs.1 fun t ht hstill hholder c r u hop => ?_
  obtain ⟨⟨hstore, hlog, htransaction⟩, hr⟩ := h c t r u hop
  have hmine := hs.still hstill
  refine ⟨ht.congr hstore hlog fun _ => .inr hmine.2, ⟨htransaction.trans hmine.1, ?_⟩, hr⟩
  intro path
  rw [hlog]
  exact hmine.2 path

theorem safe_statement {op : Chance → Backend F → Option (BackendResult α × Backend F)}
    (h : ∀ c t r u, op c t = some (r, u) →
      u.store = t.store ∧ u.log = t.log ∧ u.transaction = t.transaction) :
    Safe P H i (attempt op) := fun _ hs =>
  (keeps_plain (Q := fun _ => True) hs fun c t r u hop => ⟨h c t r u hop, trivial⟩).weaken
    fun _ _ hu => hu.1

theorem safe_read (f : Backend F → α) : Safe P H i (read f) := by
  refine safe_statement fun c t r u hop => ?_
  cases hop
  exact ⟨rfl, rfl, rfl⟩

theorem safe_write {f : Backend F → Backend F}
    (h : ∀ t, (f t).store = t.store ∧ (f t).log = t.log ∧ (f t).transaction = t.transaction) :
    Safe P H i (write f) := by
  refine safe_statement fun c t r u hop => ?_
  cases hop
  exact h t

theorem Valid.note_quiet {t : Backend F} {e : Event F} (h : Valid P H t) (hmine : Mine i t)
    (hlose : ∀ path lost, e.lose path lost = true → lost = true)
    (hunlinked : ∀ cleanup record moment, e ≠ .unlinked cleanup record moment) :
    Valid P H (t.note e) := by
  refine h.note (by simp [hmine.1]) (fun cleanup record moment he => absurd he (hunlinked _ _ _)) ?_
  intro a ha hfree _ hlost
  have := h.not_lost hmine.2 ha hfree
  rw [hlose _ _ hlost] at this
  cases this

theorem Quiet.note {t : Backend F} {e : Event F} (he : ∀ path, e ≠ .found path) :
    Quiet (t.note e) := by
  intro path hlast
  rw [Backend.note, List.getLast?_append_of_ne_nil _ (List.cons_ne_nil _ _)] at hlast
  exact he path (Option.some.inj hlast)

/-- An event that makes no record suspect is written to the log. -/
theorem keeps_note {e : Event F} {Q : BackendResult Unit → Backend F → Prop} (hs : Mine i s)
    (hlose : ∀ path lost, e.lose path lost = true → lost = true)
    (hunlinked : ∀ cleanup record moment, e ≠ .unlinked cleanup record moment)
    (hfound : ∀ path, e ≠ .found path)
    (h : ∀ t, Still s t → Mine i (t.note e) → Q (.ok ()) (t.note e)) :
    (note e).run.Keeps (discipline P H) i Q s := by
  refine keeps_write hs.1 fun t ht hstill hholder => ?_
  have hmine := hs.still hstill
  exact ⟨ht.note_quiet hmine hlose hunlinked, h t hstill ⟨hmine.1, Quiet.note hfound⟩⟩

theorem keeps_backed {r : Request} (hs : Mine i s) (hr : Backed H s.log r) :
    (request P H r).run.Keeps (discipline P H) i (fun _ u => Mine i u) s := by
  refine keeps_request hs.1 hr fun t answer u _ hstill _ _ hserved => ?_
  have hmine := hs.still hstill
  rcases hserved with ⟨rfl, -⟩ | ⟨env, faults, rfl, -⟩
  · exact hmine
  · exact hmine

theorem safe_request {r : Request} (hr : ∀ log, Backed H log r) : Safe P H i (request P H r) :=
  fun s hs => keeps_backed hs (hr s.log)

theorem safe_ask {r : Request} (hr : ∀ log, Backed H log r) (pick : Reply → Option α) :
    Safe P H i (ask P H r pick) := by
  refine safe_bind (safe_request hr) fun reply => ?_
  cases pick reply with
  | none => exact safe_throw _
  | some a => exact safe_pure a

theorem backed_of {r : Request} (hstored : r.stored = none)
    (hregister : ∀ record, r ≠ .registerArtifact record) (log : List (Event F)) :
    Backed H log r := by
  have h : ∀ b, r.stored = some b → .stored b ∈ log := by simp [hstored]
  cases r with
  | registerArtifact record => exact absurd rfl (hregister record)
  | _ => exact h

theorem safe_policy : Safe P H i (policy P H) :=
  safe_ask (r := .policy) (backed_of rfl fun _ h => nomatch h) _

theorem safe_recordOf (path : FilePath) : Safe P H i (recordOf P H path) := by
  unfold recordOf
  split
  · exact safe_throw _
  next text _ =>
    exact safe_ask (r := .artifactGet text) (backed_of rfl fun _ h => nomatch h) _

theorem safe_activate (path : FilePath) : Safe P H i (activateIfGenerated P H path) :=
  safe_bind (safe_recordOf path) fun _ => safe_write fun _ => ⟨rfl, rfl, rfl⟩

theorem safe_clearActive : Safe P H i (clearActiveSelection : Act F Unit) :=
  safe_write fun _ => ⟨rfl, rfl, rfl⟩

theorem safe_observe (bytes : Bytes) : Safe P H i (observeSelection P bytes : Act F Unit) :=
  safe_write fun _ => ⟨rfl, rfl, rfl⟩

theorem safe_publish : Safe P H i (publish : Act F Unit) := by
  refine safe_statement fun c t r u hop => ?_
  cases hop
  exact ⟨rfl, rfl, rfl⟩

/-- A payload is noted before the store is asked to store it. -/
theorem safe_stored {bytes : Bytes} {k : Unit → Act F β}
    (hk : ∀ t, Mine i t → .stored bytes ∈ t.log →
      (k ()).run.Keeps (discipline P H) i (fun _ u => Mine i u) t) :
    Safe P H i (note (.stored bytes) >>= k) := by
  intro s hs
  refine Thread.keeps_run_bind (keeps_note hs (fun _ _ h => h) (fun _ _ _ h => nomatch h)
    (fun _ h => nomatch h) fun t hstill hmine => hk _ hmine ?_)
  simp [Backend.note]

end Rules

/-! ## References -/

theorem mem_artifactPaths {P : Platform} {bytes : Bytes} {path q : FilePath}
    (hq : q ∈ filePaths P bytes) (hpath : toStr q = some path) : path ∈ artifactPaths P bytes := by
  unfold filePaths at hq
  split at hq
  · cases hq
  next text htext =>
    obtain ⟨line, hline, hparse⟩ := List.mem_filterMap.mp hq
    obtain ⟨url, hurl, hfile⟩ := Option.bind_eq_some_iff.mp hparse
    unfold artifactPaths
    simp only [htext, List.mem_dedup, List.mem_filterMap]
    exact ⟨line, hline, by simp [hurl, hfile, hpath]⟩

/-- A record that may be removed: no entry refers to it in the tables. -/
structure Candidate (before : Nat) (t : Tables) (a : ArtifactRecord) : Prop where
  registered : a ∈ t.artifacts
  orphan : t.hasEntry a.sourceEntryId = false
  unreferenced : ∀ row ∈ t.entryArtifacts, row.path ≠ a.path
  age : a.createdAt ≤ before

theorem Candidate.shrinks {before : Nat} {t t' : Tables} {a : ArtifactRecord}
    (h : Candidate before t a) (hshrinks : Shrinks t t') (ha : a ∈ t'.artifacts) :
    Candidate before t' a where
  registered := ha
  orphan := by
    cases hentry : t'.hasEntry a.sourceEntryId with
    | false => rfl
    | true => rw [← h.orphan, hshrinks.entries _ hentry]
  unreferenced row hrow := h.unreferenced row (hshrinks.references row hrow)
  age := h.age

/-- No entry names the file, if every payload spells it as the daemon does. -/
theorem Valid.unreferenced {P : Platform} {H : Host F} {s : Backend F} {before : Nat}
    {a : ArtifactRecord} (h : Valid P H s) (hfair : Fair P H s.log)
    (ha : Candidate before s.committed a) :
    ∀ e ∈ s.committed.entries, ∀ p ∈ s.committed.payloads, p.entryId = e.id →
      ¬ Names P p.bytes a.path := by
  rintro e he p hp hid ⟨q, hq, hsame⟩
  obtain ⟨⟨directory, name, hroot, hpath, hgenerated⟩, htext⟩ := h.generated a ha.registered
  rw [hpath] at hsame hgenerated
  have hspelled : Spelled P H p.bytes := hfair _ (h.stored p hp)
  have hqa : q = a.path := (hspelled q hq directory name hroot hgenerated hsame).trans hpath.symm
  obtain ⟨bytes, hpayload, -, -, -, hrows⟩ := h.wellFormed.storeInvariant.sideRows e he
  have hbytes : p = ⟨e.id, bytes⟩ := by
    refine List.mem_singleton.mp (hpayload ▸ List.mem_filter.mpr ⟨hp, ?_⟩)
    simpa using hid
  have hrow : (⟨e.id, a.path⟩ : EntryArtifactRow) ∈ s.committed.entryArtifacts := by
    have hnamed : a.path ∈ artifactPaths P bytes := by
      rw [hbytes, hqa] at hq
      exact mem_artifactPaths hq htext
    exact List.mem_of_mem_filter (hrows.mem_iff.mpr (List.mem_map_of_mem hnamed))
  exact ha.unreferenced _ hrow rfl

/-! ## Removing a file -/

section Remove

variable {P : Platform} {H : Host F} {i : Nat} {s : Backend F} {α : Type}

/-- What is found about a path.  Within a pass the answers of the file system are of one
moment. -/
theorem keeps_ownedPath (path : FilePath) (hs : s.transaction = some i) :
    (ownedPath H path : Act F Bool).run.Keeps (discipline P H) i
      (fun r t => Still s t ∧ ∀ b, r = .ok b → b = true → H.generatedFile path = true ∧
        (s.pass = true → Owned H s.files path)) s := by
  have no : ∀ t, Still s t → Still s t ∧ ∀ b : Bool, (.ok false : BackendResult Bool) = .ok b →
      b = true → H.generatedFile path = true ∧ (s.pass = true → Owned H s.files path) := by
    intro t hstill
    refine ⟨hstill, fun b hb htrue => ?_⟩
    cases hb
    cases htrue
  unfold ownedPath
  split
  · exact no s (.refl s)
  next root hroot =>
    split
    · exact no s (.refl s)
    next hparent =>
      refine keeps_read_bind hs fun t ht hstill hholder => ?_
      split
      · exact no t hstill
      next hreal =>
        refine keeps_read_bind hholder fun u hu hstill' hholder' => ?_
        have hstill'' := hstill.trans hstill'
        split
        · exact no u hstill''
        next metadata hmetadata =>
          split
          · exact no u hstill''
          next hprivate =>
            refine ⟨hstill'', fun b hb htrue => ?_⟩
            cases hb
            refine ⟨htrue, fun hpass => ?_⟩
            rw [hstill.files hpass] at hreal
            rw [hstill''.files hpass] at hmetadata
            simp only [Bool.not_eq_true, Bool.not_eq_false', Bool.or_eq_false_iff,
              decide_eq_false_iff_not, not_not] at hparent hreal hprivate
            cases hcanonical : H.canonicalize s.files root with
            | none =>
                rw [hcanonical] at hreal
                cases hreal
            | some real =>
                rw [hcanonical] at hreal
                exact ⟨root, real, metadata, hroot, hparent, hcanonical, hreal, hmetadata,
                  hprivate.1.1, hprivate.1.2, hprivate.2, htrue⟩

/-- What is left when the record of `path` was dealt with. -/
structure Forward (path : FilePath) (s u : Backend F) : Prop where
  active : u.active = s.active
  pass : u.pass = s.pass
  log : ∀ e ∈ s.log, e ∈ u.log
  records : ∀ a ∈ s.committed.artifacts, a.path ≠ path → a ∈ u.committed.artifacts
  shrinks : Shrinks s.committed u.committed

theorem Still.forward {t : Backend F} (h : Still s t) (path : FilePath) : Forward path s t where
  active := h.active
  pass := h.pass
  log _ he := h.log.symm ▸ he
  records _ ha _ := h.artifacts.symm ▸ ha
  shrinks := h.shrinks

theorem Forward.trans {t u : Backend F} {path : FilePath} (h : Forward path s t)
    (h' : Forward path t u) : Forward path s u where
  active := h'.active.trans h.active
  pass := h'.pass.trans h.pass
  log e he := h'.log e (h.log e he)
  records a ha hne := h'.records a (h.records a ha hne) hne
  shrinks := h.shrinks.trans h'.shrinks

theorem Forward.note (path : FilePath) (t : Backend F) (e : Event F) :
    Forward path t (t.note e) where
  active := rfl
  pass := rfl
  log _ he := List.mem_append_left _ he
  records _ ha _ := ha
  shrinks := .refl _

/-- The store was asked to forget the record of the path. -/
theorem Served.forward {t u : Backend F} {path : FilePath} {answer : BackendResult Reply}
    (h : Served P (.forgetArtifact path) t answer u) {reply : Reply} (hok : answer = .ok reply) :
    Forward path t u ∧ u.log = t.log ∧ u.transaction = t.transaction ∧
      ∀ a ∈ u.committed.artifacts, a.path ≠ path := by
  rcases h with ⟨-, error, herror⟩ | ⟨env, faults, hu, heffect⟩
  · rw [herror] at hok
    cases hok
  obtain ⟨reply', heffect⟩ := heffect reply hok
  have htables := Request.effect_forget heffect
  have hmem : ∀ a, a ∈ u.committed.artifacts ↔ a ∈ t.committed.artifacts ∧ a.path ≠ path := by
    intro a
    rw [htables]
    simp [Tables.deleteArtifact]
  have hshrinks : Shrinks t.committed u.committed := by
    rw [htables]
    exact ⟨fun _ h => h, fun _ h => h⟩
  subst hu
  exact ⟨⟨rfl, rfl, fun _ he => he, fun a ha hne => (hmem a).mpr ⟨ha, hne⟩, hshrinks⟩, rfl, rfl,
    fun a ha => ((hmem a).mp ha).2⟩

theorem Served.same {t u : Backend F} {r : Request} {answer : BackendResult Reply}
    (h : Served P r t answer u) : u.log = t.log ∧ u.transaction = t.transaction := by
  rcases h with ⟨rfl, -⟩ | ⟨env, faults, rfl, -⟩ <;> exact ⟨rfl, rfl⟩

theorem keeps_disown {path : FilePath} (hs : Mine i s) :
    (disown P H path : Act F Bool).run.Keeps (discipline P H) i
      (fun r u => Mine i u ∧ ∀ b, r = .ok b → Forward path s u) s := by
  refine Thread.keeps_run_bind (keeps_write hs.1 fun t ht hstill hholder => ?_)
  have hmine := hs.still hstill
  have hbusy : t.transaction ≠ none := by simp [hholder]
  refine ⟨ht.note hbusy (fun _ _ _ h => nomatch h) fun a ha hfree _ hlost => ?_, ?_⟩
  · have hbefore := ht.not_lost hmine.2 ha hfree
    rw [hbefore, Event.lose, Bool.false_or, decide_eq_true_eq] at hlost
    rw [hlost]
  have hforward := (hstill.forward path).trans (.note path t (.found path))
  refine Thread.keeps_run_bind (Thread.keeps_outcome (keeps_request hholder
    (backed_of (r := .forgetArtifact path) rfl (fun _ h => nomatch h) _)
      fun u answer v _ hstill' hholder' hv hserved => ?_))
  have hlog : v.log = (t.note (.found path)).log := hserved.same.1.trans hstill'.log
  have hv' : v.transaction = some i := hserved.same.2.trans hholder'
  have hlast : v.log.getLast? = some (.found path) := by
    rw [hlog]
    simp [Backend.note]
  cases answer with
  | ok reply =>
      obtain ⟨hforward', -, -, hgone⟩ := hserved.forward rfl
      have hforward := hforward.trans ((hstill'.forward path).trans hforward')
      refine Thread.keeps_run_bind (keeps_write hv' fun w hw hstill'' hholder'' => ?_)
      constructor
      · refine hw.note (by simp [hholder'']) (fun _ _ _ h => nomatch h) fun a ha hfree _ hlost => ?_
        have hfound := hw.forgets a ha hfree hlost
        rw [hstill''.log, hlast] at hfound
        rw [hstill''.artifacts] at ha
        cases hfound
        exact absurd rfl (hgone a ha)
      · refine ⟨⟨hholder'', Quiet.note fun _ h => nomatch h⟩, fun b _ => ?_⟩
        exact hforward.trans ((hstill''.forward path).trans (.note path w _))
  | error error =>
      refine Thread.keeps_run_bind (keeps_write hv' fun w hw hstill'' hholder'' => ?_)
      constructor
      · refine hw.note (by simp [hholder''])
          (fun _ _ _ h => nomatch h) fun a ha hfree hheeds hlost => ?_
        have hfound := hw.forgets a ha hfree hlost
        rw [hstill''.log, hlast] at hfound
        cases hfound
        exact absurd rfl hheeds
      · exact ⟨⟨hholder'', Quiet.note fun _ h => nomatch h⟩, fun b hb => nomatch hb⟩

/-- What a pass knows of a record before it looks at the file. -/
structure Removable (P : Platform) (H : Host F) (before : Nat) (cleanup : Cleanup)
    (s : Backend F) (record : ArtifactRecord) : Prop where
  pass : s.pass = true
  inactive : ∀ path, s.active = some path → samePath path record.path = false
  candidate : Candidate before s.committed record
  aged : Fair P H s.log → ∀ now, cleanup = .reconcile now → before + 60 ≤ now

theorem Removable.still {t : Backend F} {before : Nat} {cleanup : Cleanup} {record : ArtifactRecord}
    (h : Removable P H before cleanup s record) (hstill : Still s t) :
    Removable P H before cleanup t record where
  pass := hstill.pass.trans h.pass
  inactive path hpath := h.inactive path (hstill.active ▸ hpath)
  candidate := h.candidate.shrinks hstill.shrinks (hstill.artifacts ▸ h.candidate.registered)
  aged hfair := h.aged (hstill.log ▸ hfair)

/-- What is known of a record and of its file is what the claim asks for. -/
theorem Removable.provable {before : Nat} {cleanup : Cleanup} {record : ArtifactRecord}
    (h : Removable P H before cleanup s record) (hs : Valid P H s) (hfair : Fair P H s.log)
    (howned : Owned H s.files record.path) (hfile : Recorded H s.files record) :
    Provable P H s.moment cleanup record where
  registered := h.candidate.registered
  owned := howned
  file := hfile
  inactive := h.inactive
  orphan := h.candidate.orphan
  unreferenced := hs.unreferenced hfair h.candidate
  aged now hnow := by
    have := h.aged hfair now hnow
    have := h.candidate.age
    omega

theorem recorded_of_replaced {files : F} {record : ArtifactRecord} {metadata : Metadata}
    (hmetadata : H.symlinkMetadata files record.path = .ok metadata)
    (h : replaced H record metadata = false) : Recorded H files record := by
  simp only [replaced, Bool.or_eq_false_iff, Bool.not_eq_false', decide_eq_false_iff_not,
    not_not] at h
  obtain ⟨⟨⟨⟨⟨hfile, hlinks⟩, hdevice⟩, hinode⟩, howner⟩, heuid⟩ := h
  exact ⟨metadata, hmetadata, hfile, hlinks, hdevice, hinode, howner, heuid⟩

theorem keeps_unlink (before : Nat) {cleanup : Cleanup} {record : ArtifactRecord} (hs : Mine i s)
    (hremovable : cleanup ≠ .rollback → Removable P H before cleanup s record)
    (hfile : cleanup ≠ .rollback → Owned H s.files record.path ∧ Recorded H s.files record) :
    (unlink H cleanup record).run.Keeps (discipline P H) i
      (fun r u => Mine i u ∧ ∀ x, r = .ok x → Forward record.path s u) s := by
  refine keeps_statement hs.1 fun t ht hstill hholder c r u hop => ?_
  have hmine := hs.still hstill
  split at hop
  · cases hop
    exact ⟨ht, hmine, fun x hx => nomatch hx⟩
  · cases hop
    have hnoted : Valid P H (t.note (.unlinked cleanup record t.moment)) := by
      refine ht.note (by simp [hholder]) (fun cleanup' record' moment heq hcleanup => ?_)
        fun a ha hfree _ hlost => ?_
      · cases heq
        have hr := hremovable hcleanup
        obtain ⟨howned, hrecorded⟩ := hfile hcleanup
        rw [← hstill.files hr.pass] at howned hrecorded
        have hr := hr.still hstill
        exact ⟨fun hfair => hr.provable ht hfair howned hrecorded,
          ht.not_lost hmine.2 hr.candidate.registered⟩
      · change lost a.path t.log = true at hlost
        rw [ht.not_lost hmine.2 ha hfree] at hlost
        cases hlost
    refine ⟨hnoted.congr rfl rfl fun hnone => absurd (hnone.symm.trans hholder) nofun,
      ⟨hholder, ?_⟩, fun x _ => ?_⟩
    · exact Quiet.note (t := t) fun _ h => nomatch h
    · have hforward := (hstill.forward record.path).trans
        (.note _ t (.unlinked cleanup record t.moment))
      exact ⟨hforward.active, hforward.pass, hforward.log, hforward.records, hforward.shrinks⟩

/-- A removal keeps the lock, and leaves the other records of the pass removable. -/
theorem keeps_remove (before : Nat) {cleanup : Cleanup} {record : ArtifactRecord} (hs : Mine i s)
    (hremovable : cleanup ≠ .rollback → Removable P H before cleanup s record) :
    (remove P H cleanup record).run.Keeps (discipline P H) i
      (fun r u => Mine i u ∧ ∀ b, r = .ok b → Forward record.path s u) s := by
  have hdisown : ∀ t, Still s t → (disown P H record.path : Act F Bool).run.Keeps (discipline P H) i
      (fun r u => Mine i u ∧ ∀ b, r = .ok b → Forward record.path s u) t := by
    intro t hstill
    refine (keeps_disown (hs.still hstill)).weaken fun r u hu => ⟨hu.1, fun b hb => ?_⟩
    exact (hstill.forward _).trans (hu.2 b hb)
  refine Thread.keeps_run_bind ((keeps_ownedPath record.path hs.1).weaken fun r t h => ?_)
  obtain ⟨hstill, howned⟩ := h
  cases r with
  | error error => exact ⟨hs.still hstill, fun b hb => nomatch hb⟩
  | ok owned =>
      dsimp only
      split
      · exact hdisown t hstill
      next htrue =>
        simp only [Bool.not_eq_true, Bool.not_eq_false'] at htrue
        refine keeps_read_bind (hs.still hstill).1 fun u hu hstill' hholder => ?_
        have hstill'' := hstill.trans hstill'
        split
        · exact hdisown u hstill''
        · exact ⟨hs.still hstill'', fun b hb => nomatch hb⟩
        next metadata hmetadata =>
          split
          · exact hdisown u hstill''
          next hreplaced =>
            simp only [Bool.not_eq_true] at hreplaced
            refine Thread.keeps_run_bind ((keeps_unlink before (hs.still hstill'')
              (fun h => (hremovable h).still hstill'') fun h => ?_).weaken fun r v hv => ?_)
            · have hpass := (hremovable h).pass
              refine ⟨?_, recorded_of_replaced hmetadata hreplaced⟩
              rw [hstill''.files hpass]
              exact (howned owned rfl htrue).2 hpass
            obtain ⟨hv, hforward⟩ := hv
            cases r with
            | error error => exact ⟨hv, fun b hb => nomatch hb⟩
            | ok x =>
                refine Thread.keeps_run_bind (keeps_request hv.1
                  (backed_of (r := .forgetArtifact record.path) rfl (fun _ h => nomatch h) _)
                  fun w answer x' _ hstill₃ hholder₃ _ hserved => ?_)
                have hmine : Mine i x' := by
                  obtain ⟨hlog, htransaction⟩ := hserved.same
                  exact ⟨htransaction.trans hholder₃, fun path => by
                    rw [hlog, hstill₃.log]; exact hv.2 path⟩
                cases answer with
                | error error => exact ⟨hmine, fun b hb => nomatch hb⟩
                | ok reply =>
                    refine ⟨hmine, fun b _ => ?_⟩
                    exact ((hstill''.forward _).trans (hforward x rfl)).trans
                      ((hstill₃.forward _).trans (hserved.forward rfl).1)

/-! ## A pass -/

theorem keeps_removeEach (before : Nat) {cleanup : Cleanup} {active : Option FilePath}
    {records : List ArtifactRecord} (hs : Mine i s) (hactive : s.active = active)
    (hpaths : (records.map (·.path)).Nodup)
    (hrecords : ∀ a ∈ records, s.pass = true ∧ Candidate before s.committed a ∧
      (Fair P H s.log → ∀ now, cleanup = .reconcile now → before + 60 ≤ now)) :
    (removeEach P H cleanup active records).run.Keeps (discipline P H) i
      (fun _ u => Mine i u) s := by
  induction records generalizing s with
  | nil => exact hs
  | cons record records ih =>
      rw [List.map_cons, List.nodup_cons] at hpaths
      unfold removeEach
      split
      · exact ih hs hactive hpaths.2 fun a ha => hrecords a (List.mem_cons_of_mem _ ha)
      next hinactive =>
        obtain ⟨hpass, hcandidate, haged⟩ := hrecords record List.mem_cons_self
        have hremovable : Removable P H before cleanup s record := by
          refine ⟨hpass, fun path hpath => ?_, hcandidate, haged⟩
          rw [hactive] at hpath
          simpa [hpath] using hinactive
        refine Thread.keeps_run_bind
          ((keeps_remove before hs fun _ => hremovable).weaken fun r u hu => ?_)
        cases r with
        | error error => exact hu.1
        | ok removed =>
            have hforward := hu.2 removed rfl
            refine Thread.keeps_run_bind ((ih hu.1 (hforward.active.trans hactive) hpaths.2
              fun a ha => ?_).weaken fun r v hv => ?_)
            · obtain ⟨hpass, hcandidate, haged⟩ := hrecords a (List.mem_cons_of_mem _ ha)
              have hne : a.path ≠ record.path := fun heq =>
                hpaths.1 (heq ▸ List.mem_map_of_mem ha)
              exact ⟨hforward.pass.trans hpass,
                hcandidate.shrinks hforward.shrinks (hforward.records a hcandidate.registered hne),
                fun hfair => haged fun e he => hfair e (hforward.log e he)⟩
            · cases r with
              | ok more => exact hv
              | error error => exact hv

/-- The candidates of a query: distinct records that no entry refers to. -/
theorem eval_artifactCandidates {before limit : Nat} {t : Tables} {records : List ArtifactRecord}
    {r : Tables} (h : (Database.artifactCandidates before limit).eval t = .ok (records, r))
    (hpaths : (t.artifacts.map (·.path)).Nodup) :
    (records.map (·.path)).Nodup ∧ ∀ a ∈ records, Candidate before t a := by
  rw [Database.artifactCandidates, eval_rows] at h
  cases h
  constructor
  · refine (List.Sublist.map _ (List.take_sublist _ _)).nodup ?_
    refine (List.Perm.nodup_iff ((List.perm_insertionSort _ _).map _)).mpr ?_
    exact hpaths.sublist (List.filter_sublist.map _)
  · intro a ha
    have hmem := (List.mem_insertionSort _).mp (List.mem_of_mem_take ha)
    obtain ⟨hregistered, hunreferenced⟩ := List.mem_filter.mp hmem
    simp only [Tables.unreferenced, Bool.and_eq_true, decide_eq_true_eq, Bool.not_eq_true',
      List.any_eq_false] at hunreferenced
    exact ⟨hregistered, hunreferenced.1.2, hunreferenced.2, by omega⟩

theorem keeps_prune {before : Nat} {cleanup : Cleanup} (hs : Mine i s) (hpass : s.pass = true)
    (haged : Fair P H s.log → ∀ now, cleanup = .reconcile now → before + 60 ≤ now) :
    (prune P H cleanup before).run.Keeps (discipline P H) i (fun _ u => Mine i u) s := by
  refine keeps_read_bind hs.1 fun t ht hstill hholder => ?_
  refine Thread.keeps_run_bind (keeps_statement hholder fun u hu hstill' hholder' c r v hop => ?_)
  have hstill'' := hstill.trans hstill'
  have hmine := hs.still hstill''
  have hserve := Option.some.inj hop
  unfold Backend.serve at hserve
  split at hserve
  · cases hserve
    exact ⟨hu, hmine⟩
  split at hserve
  · cases hserve
    exact ⟨hu, hmine⟩
  split at hserve
  · cases hserve
    exact ⟨hu, hmine⟩
  next hblocked =>
    cases hserve
    refine ⟨hu.congr rfl rfl fun _ => .inr hmine.2, ?_⟩
    have hpending : u.store.db.pending = none := hu.settled (by simpa using hblocked)
    rw [hpending, Option.getD_none]
    cases hexec : (Database.artifactCandidates before 128).exec c.faults.statements
        u.store.db.durable with
    | mk answer w =>
        cases answer with
        | error error => exact hmine
        | ok records =>
            obtain ⟨hpaths, hcandidates⟩ := eval_artifactCandidates (Prog.exec_ok hexec) hu.paths
            refine keeps_removeEach before hmine hstill'.active hpaths fun a ha => ?_
            exact ⟨hstill''.pass.trans hpass, hcandidates a ha,
              fun hfair => haged (hstill''.log ▸ hfair)⟩

/-- A pass keeps the lock and takes its mark back. -/
theorem safe_passing {m : Act F α}
    (hm : ∀ t, Mine i t → t.pass = true → m.run.Keeps (discipline P H) i (fun _ u => Mine i u) t) :
    Safe P H i (passing m) := by
  intro s hs
  refine Thread.keeps_run_bind (keeps_write hs.1 fun t ht hstill hholder => ?_)
  have hmine := hs.still hstill
  refine ⟨ht.congr rfl rfl fun _ => .inr hmine.2, ?_⟩
  have hmine' : Mine i { t with pass := true } := hmine
  refine Thread.keeps_run_bind (Thread.keeps_outcome ((hm _ hmine' rfl).weaken fun r u hu => ?_))
  have hrest : Safe P H i (do
      write fun s => { s with pass := false }
      (result r : Act F α)) :=
    safe_bind (safe_write fun _ => ⟨rfl, rfl, rfl⟩) fun _ => safe_result r
  exact hrest u hu

theorem safe_reconcile : Safe P H i (reconcile P H) := by
  refine safe_passing fun t hmine hpass => ?_
  refine Thread.keeps_run_bind (keeps_statement hmine.1 fun u hu hstill hholder c r v hop => ?_)
  cases hop
  have hmine := hmine.still hstill
  have hquiet : Quiet (u.note (.began u.clock)) := Quiet.note fun _ h => nomatch h
  refine ⟨hu.note_quiet hmine (fun _ _ h => h) (fun _ _ _ h => nomatch h), ?_⟩
  refine keeps_prune ⟨hholder, hquiet⟩ (hstill.pass.trans hpass) ?_
  intro hfair now hnow
  have hclock : (Event.began u.clock : Event F).Fair P H := hfair _ (by simp [Backend.note])
  cases hnow
  have : 60 ≤ u.clock := hclock
  omega

theorem safe_clearAll : Safe P H i (clearAll P H) :=
  safe_bind safe_clearActive fun _ => safe_passing fun _ hmine hpass =>
    keeps_prune hmine hpass fun _ _ h => nomatch h

/-! ## The requests -/

theorem safe_querySync (query : HistoryQuery) : Safe P H i (querySync P H query) :=
  safe_bind (safe_ask (r := .query query) (backed_of rfl fun _ h => nomatch h) _) fun page =>
    safe_bind (safe_outcome safe_reconcile) fun _ => safe_pure page

theorem safe_ingest (mime : String) (bytes : Bytes) : Safe P H i (ingest P H mime bytes) := by
  refine safe_bind safe_policy fun limits => ?_
  split
  · exact safe_pure ()
  split
  · exact safe_pure ()
  refine safe_stored fun t hmine hstored => ?_
  have hbacked : Backed H t.log (.insert (captureMime mime) bytes) := fun b hb =>
    Option.some.inj hb ▸ hstored
  refine Thread.keeps_run_bind (Thread.keeps_outcome ((keeps_backed hmine hbacked).weaken ?_))
  intro answer u hu
  cases answer with
  | ok reply => exact safe_observe bytes u hu
  | error error =>
      refine safe_bind safe_policy (fun later => ?_) u hu
      split
      · exact safe_throw error
      · exact safe_pure ()

theorem safe_edit (change : Edit) : Safe P H i (edit P H change) := by
  cases change with
  | replace id expected mime bytes =>
      refine safe_stored fun t hmine hstored => ?_
      have hbacked : Backed H t.log (.replace id expected mime bytes) := fun b hb =>
        Option.some.inj hb ▸ hstored
      refine Thread.keeps_run_bind ((keeps_backed hmine hbacked).weaken fun answer u hu => ?_)
      cases answer with
      | error error => exact hu
      | ok reply =>
          refine safe_bind (safe_outcome safe_publish) (fun published => ?_) u hu
          cases published with
          | ok _ => exact safe_clearActive
          | error error => exact safe_pure ()
  | favorite id expected value =>
      exact safe_bind (safe_request (r := .favorite id expected value)
        (backed_of rfl fun _ h => nomatch h)) fun _ => safe_pure ()
  | removeMany targets =>
      exact safe_bind (safe_request (r := .removeMany targets)
        (backed_of rfl fun _ h => nomatch h)) fun _ => safe_pure ()

/-- A file is registered under a path that the daemon has made up. -/
theorem safe_register {directory name : FilePath} {path : FilePath} {source mime : String}
    {bytes : Bytes} (hroot : H.root = some directory) (hpath : path = joinPath directory name) :
    Safe P H i (register P H path source mime bytes) := by
  intro s hs
  refine Thread.keeps_run_bind ((keeps_ownedPath path hs.1).weaken fun r t h => ?_)
  obtain ⟨hstill, howned⟩ := h
  have hmine := hs.still hstill
  cases r with
  | error error => exact hmine
  | ok owned =>
      dsimp only
      split
      · exact hmine
      next htrue =>
        simp only [Bool.not_eq_true, Bool.not_eq_false'] at htrue
        have hgenerated : Generated H path :=
          ⟨directory, name, hroot, hpath, (howned owned rfl htrue).1⟩
        refine keeps_read_bind hmine.1 fun u hu hstill' hholder => ?_
        have hmine := hmine.still hstill'
        split
        · exact hmine
        next metadata hmetadata =>
          split
          · exact hmine
          refine keeps_read_bind hmine.1 fun v hv hstill'' hholder' => ?_
          have hmine := hmine.still hstill''
          refine Thread.keeps_run_bind
            (keeps_note hmine (fun p lost h => ?_) (fun _ _ _ h => nomatch h)
            (fun _ h => nomatch h) fun w hstill₃ hmine => ?_)
          · exact (Bool.and_eq_true_iff.mp h).1
          have hlost : lost path (w.note (.registered path)).log = false := by
            simp [Backend.note, Event.lose]
          refine Thread.keeps_run_bind ((keeps_backed (r := .registerArtifact _) hmine
            ⟨hgenerated, hlost⟩).weaken fun answer x hx => ?_)
          cases answer with
          | ok reply => exact hx
          | error error => exact hx

theorem keeps_imageDirectory (hs : Mine i s) :
    (imageDirectory H).run.Keeps (discipline P H) i
      (fun r u => Mine i u ∧ ∀ directory, r = .ok directory → H.root = some directory) s := by
  refine keeps_plain hs fun c t r u hop => ?_
  split at hop
  · cases hop
    exact ⟨⟨rfl, rfl, rfl⟩, fun _ h => nomatch h⟩
  next root hroot =>
    split at hop
    · cases hop
      exact ⟨⟨rfl, rfl, rfl⟩, fun _ h => nomatch h⟩
    · cases hop
      refine ⟨⟨rfl, rfl, rfl⟩, fun directory h => ?_⟩
      cases h
      exact hroot

theorem keeps_uniquePath (directory : FilePath) (extension : String) (hs : Mine i s) :
    (uniquePath directory extension : Act F FilePath).run.Keeps (discipline P H) i
      (fun r u => Mine i u ∧ ∀ path, r = .ok path → ∃ name, path = joinPath directory name) s := by
  refine keeps_plain hs fun c t r u hop => ?_
  cases hop
  refine ⟨⟨rfl, rfl, rfl⟩, fun path h => ?_⟩
  cases h
  exact ⟨_, rfl⟩

theorem safe_createImageFile (source mime : String) (bytes : Bytes) :
    Safe P H i (createImageFile P H source mime bytes) := by
  intro s hs
  refine Thread.keeps_run_bind ((keeps_imageDirectory hs).weaken fun r t ht => ?_)
  cases r with
  | error error => exact ht.1
  | ok directory =>
      have hroot := ht.2 directory rfl
      refine Thread.keeps_run_bind ((keeps_uniquePath directory _ ht.1).weaken fun r u hu => ?_)
      cases r with
      | error error => exact hu.1
      | ok path =>
          obtain ⟨name, hpath⟩ := hu.2 path rfl
          have hwrite : Safe P H i (writePrivate H path bytes) := by
            refine safe_statement fun c t r u hop => ?_
            cases hop
            exact ⟨rfl, rfl, rfl⟩
          refine safe_bind hwrite (fun _ => ?_) u hu.1
          refine safe_bind (safe_outcome (safe_register hroot hpath)) fun r => ?_
          cases r with
          | ok _ => exact safe_pure path
          | error error =>
              exact safe_bind (safe_write fun _ => ⟨rfl, rfl, rfl⟩) fun _ => safe_throw error

theorem safe_removeRegistered (path : FilePath) : Safe P H i (removeRegistered P H path) := by
  refine safe_bind (safe_recordOf path) fun record => ?_
  have hactive : Safe P H i
      (write fun s : Backend F => { s with active := s.active.filter fun p => !samePath p path }) :=
    safe_write fun _ => ⟨rfl, rfl, rfl⟩
  cases record with
  | none => exact hactive
  | some record =>
      have hremove : Safe P H i (remove P H .rollback record) := fun s hs =>
        (keeps_remove 0 hs fun h => absurd rfl h).weaken fun _ _ hu => hu.1
      exact safe_bind hremove fun _ => hactive

theorem safe_saveImageFile (id : String) (expected : Option Nat) (maxBytes : Nat) :
    Safe P H i (saveImageFile P H id expected maxBytes) := by
  refine safe_bind (safe_ask (r := .get id expected) (backed_of rfl fun _ h => nomatch h) _)
    fun stored => safe_bind (safe_result _) fun _ => ?_
  split
  · exact safe_throw _
  refine safe_bind (safe_read _) fun content => ?_
  split
  · exact safe_throw _
  · exact safe_bind safe_publish fun _ => safe_bind (safe_activate _) fun _ => safe_pure _
  · refine safe_bind (safe_createImageFile _ _ _) fun path => ?_
    refine safe_bind (safe_outcome safe_publish) fun published => ?_
    cases published with
    | ok _ => exact safe_bind (safe_activate path) fun _ => safe_pure path
    | error error => exact safe_bind (safe_removeRegistered path) fun _ => safe_throw error

theorem safe_cleanupBackend : Safe P H i (cleanupBackend P H) := by
  refine safe_bind (safe_statement fun c t r u hop => ?_) fun _ => safe_reconcile
  cases hop
  exact ⟨rfl, rfl, rfl⟩

theorem safe_wipeEntries : Safe P H i (wipeEntries P H) :=
  safe_bind (safe_request (r := .wipe) (backed_of rfl fun _ h => nomatch h)) fun _ =>
    safe_bind (safe_outcome (safe_bind safe_cleanupBackend fun _ => safe_clearAll)) fun _ =>
      safe_pure _

theorem keeps_transacted {m : Act F α} (hm : Safe P H i m) :
    (transacted i m).Keeps (discipline P H) i (fun _ _ => True) s := by
  refine Thread.keeps_bind (Thread.keeps_atomic fun t ht _ c x u hop => ?_)
  split at hop
  next hfree =>
    cases hop
    have hmine : Mine i { t with transaction := some i } := ⟨rfl, ht.idle hfree⟩
    refine ⟨⟨ht.congr rfl rfl (fun h => nomatch h), trivial, fun j _ hj => ?_⟩, ?_⟩
    · exact nomatch hfree.symm.trans hj
    refine Thread.keeps_bind ((hm _ hmine).weaken fun r u hu => ?_)
    refine Thread.keeps_bind (Thread.keeps_modify fun v hv hrely => ?_)
    have hstill : Still u v := hrely hu.1
    have hmine := hu.still hstill
    refine ⟨⟨hv.congr rfl rfl fun _ => .inr hmine.2, trivial, fun j hne hj => ?_⟩, trivial⟩
    exact absurd (Option.some.inj (hj.symm.trans hmine.1)) hne
  · cases hop

theorem keeps_program (task : Task) :
    (program P H i task).Keeps (discipline P H) i (fun _ _ => True) s := by
  cases task with
  | query query => exact keeps_transacted (safe_querySync query)
  | ingest mime bytes => exact keeps_transacted (safe_ingest mime bytes)
  | edit change => exact keeps_transacted (safe_edit change)
  | publish => exact keeps_transacted (safe_bind safe_publish fun _ => safe_clearActive)
  | imageAsFile id expected maxBytes =>
      exact keeps_transacted (safe_saveImageFile id expected maxBytes)
  | cleanup => exact keeps_transacted safe_cleanupBackend
  | wipe => exact keeps_transacted safe_wipeEntries

end Remove

/-! ## Every run -/

section Run

variable {P : Platform} {H : Host F}

/-- An operation on the database that takes no lock of the backend. -/
theorem unlocked_quits {op : DatabaseOp} (h : unlocked op = true) (s : Store) :
    Quits s.committed (s.step P op).committed := by
  unfold unlocked at h
  split at h
  next next env faults => exact Store.applyPolicy_quits P s next env faults
  next checkpoint faults => exact Store.shutdown_quits P s checkpoint faults
  · cases h

theorem Valid.quits {s : Backend F} (h : Valid P H s) {op : DatabaseOp}
    (hquits : Quits s.committed (s.store.step P op).committed) :
    Valid P H { s with store := s.store.step P op } :=
  h.stores (Store.step_change P s.store op) (Store.settled_step P h.settled op) hquits.stores
    fun _ h => nomatch h

theorem Valid.restarted {s : Backend F} (h : Valid P H s) (before after : Bool) (faults : Faults) :
    Valid P H (s.restarted P before after faults) := by
  have hstore := h.quits (Store.reopen_quits P s.store before after faults)
  by_cases hfree : s.transaction = none
  · refine hstore.congr rfl ?_ fun _ => .inr (h.idle hfree)
    simp [Backend.restarted, hfree]
  · have hkilled := hstore.note (e := .killed) hfree (fun _ _ _ h => nomatch h)
      fun _ _ _ hheeds => (hheeds trivial).elim
    have hquiet : Quiet (Backend.note (.killed : Event F)
        { s with store := s.store.step P (.reopen before after faults) }) :=
      Quiet.note fun _ h => nomatch h
    refine hkilled.congr rfl ?_ fun _ => .inr hquiet
    simp [Backend.restarted, hfree, Backend.note]

theorem Daemon.keeps_step {p : Daemon F} (hp : (discipline P H).Keeps (fun _ _ _ _ => True) p)
    (turn : Turn F) : (discipline P H).Keeps (fun _ _ _ _ => True) (p.step P H turn) := by
  cases turn with
  | thread move =>
      exact (Discipline.keeps_step (fun i k s _ _ _ => keeps_program k)
        (fun _ _ _ _ _ _ _ _ _ => trivial) hp).1
  | files files =>
      rw [Daemon.step]
      split
      · exact hp
      next hpass =>
        refine hp.surroundings (hp.valid.congr rfl rfl fun h => .inl h) (fun i _ => ?_)
          fun _ _ _ _ _ _ _ _ _ => trivial
        exact ⟨rfl, rfl, rfl, fun h => absurd h hpass, rfl, rfl, .refl _⟩
  | clock now =>
      refine hp.surroundings (hp.valid.congr rfl rfl fun h => .inl h) (fun i _ => ?_)
        fun _ _ _ _ _ _ _ _ _ => trivial
      exact ⟨rfl, rfl, rfl, fun _ => rfl, rfl, rfl, .refl _⟩
  | database op =>
      rw [Daemon.step]
      split
      next hunlocked =>
        have hquits := unlocked_quits (P := P) hunlocked p.shared.store
        refine hp.surroundings (hp.valid.quits hquits) (fun i _ => ?_)
          fun _ _ _ _ _ _ _ _ _ => trivial
        exact ⟨rfl, rfl, rfl, fun _ => rfl, rfl, hquits.stores.artifacts, hquits.shrinks⟩
      · exact hp
  | restart before after faults =>
      exact Discipline.keeps_start (hp.valid.restarted before after faults) fun _ => trivial

theorem Daemon.valid_after (files : F) (clock : Nat) (turns : List (Turn F)) :
    Valid P H ((start files clock).after P H turns).shared := by
  have hstart : Valid P H (⟨Store.fresh, none, files, clock, none, false, []⟩ : Backend F) := {
    wellFormed := Tables.fresh_wellFormed P
    settled := Database.settled_recovered _
    paths := List.nodup_nil
    generated := fun a ha => nomatch ha
    stored := fun p hp => nomatch hp
    justified := fun before cleanup record moment after hlog => by simp at hlog
    forgets := fun a ha => nomatch ha
    idle := fun _ path hlast => nomatch hlast }
  have hkeeps : (discipline P H).Keeps (fun _ _ _ _ => True) (start files clock) :=
    Discipline.keeps_start hstart fun _ => trivial
  exact (Transition.foldl_invariant (I := (discipline P H).Keeps fun _ _ _ _ => True)
    (fun p turn hp => Daemon.keeps_step hp turn) turns hkeeps).valid

/-- When the surroundings have done what they owe, a cleanup unlinks only files that are, at
that moment, registered, owned, inactive, unreferenced and old enough.  When the daemon could
forget the record of the file each time that it had to, the record was not lost since it was
registered, and a record that was lost is gone when no request is at work. -/
theorem cleanup_unlinks_owned (P : Platform) (H : Host F) (files : F) (clock : Nat)
    (turns : List (Turn F)) :
    let s := ((start files clock).after P H turns).shared
    (∀ before cleanup record moment after,
      s.log = before ++ .unlinked cleanup record moment :: after → cleanup ≠ .rollback →
        (Fair P H before → Provable P H moment cleanup record) ∧
        (Unhindered record.path before → lost record.path before = false)) ∧
    (s.transaction = none → ∀ a ∈ s.committed.artifacts, Unhindered a.path s.log →
      lost a.path s.log = false) := by
  intro s
  have hvalid := Daemon.valid_after (P := P) (H := H) files clock turns
  exact ⟨hvalid.justified, fun hfree a ha hunhindered =>
    hvalid.not_lost (hvalid.idle hfree) ha hunhindered⟩

end Run

/-- A file system in which every file is the daemon's and has the same identity. -/
def desktop : Host (List FilePath) where
  home := some (asBytes "/h")
  euid := 1
  isUuid id := id = "u"
  world _ := World.empty
  canonicalize _ path := some path
  symlinkMetadata files path :=
    if path ∈ files then .ok ⟨⟨true, 5, 1, 1, 1⟩, false, 1, 0o600⟩
    else if path = asBytes "/h/Pictures/Screenshots/clipboard-history" then
      .ok ⟨⟨false, 0, 1, 2, 1⟩, true, 2, 0o700⟩
    else .error .notFound
  privateDirectory files _ := .ok files
  writePrivate files path _ := (.ok (), files ++ [path])
  removeFile files path :=
    if path ∈ files then .ok (files.filter (· ≠ path)) else .error .notFound
  clearCaches files := (.ok (), files)

/-- A request that nothing disturbs. -/
def served (i : Nat) (task : Task) (uuid : String) : List (Turn (List FilePath)) :=
  .thread (.call i task) :: List.replicate 40 (.thread (.step i ⟨none, .none, uuid, .ok ()⟩))

/-- An image is captured and copied as a file, the text is captured and then another one, and
the image is deleted.  Later the history is queried. -/
def copiedAsFile (text : String) : List (Turn (List FilePath)) :=
  [.database (.request (.applyPolicy { StorePolicy.default with admission := true })
    ⟨.empty, "0"⟩ .none)] ++
  served 0 (.ingest "image/png" picture) "s" ++
  served 1 (.imageAsFile "entry-s" none 100) "u" ++
  served 2 (.ingest "text/plain" (asBytes text)) "t" ++
  served 3 (.ingest "text/plain" (asBytes "other")) "o" ++
  served 4 (.edit (.removeMany [⟨"entry-s", 2⟩])) "" ++
  [.clock 100] ++
  served 5 (.query ⟨"", 0, 0, 10, false⟩) ""

/-- The log of the run. -/
def logOf (turns : List (Turn (List FilePath))) : List (Event (List FilePath)) :=
  ((start [] 0).after .png desktop turns).shared.log

/-- Events that owe nothing, and payloads that name no file. -/
def Event.plain (P : Platform) : Event F → Bool
  | .stored bytes => filePaths P bytes = []
  | .began now => 60 ≤ now
  | _ => true

theorem Event.fair_of_plain {P : Platform} {H : Host F} {e : Event F} (h : e.plain P = true) :
    e.Fair P H := by
  cases e with
  | stored bytes =>
      intro p hp
      rw [of_decide_eq_true h] at hp
      cases hp
  | began now =>
      have hlate : 60 ≤ now := of_decide_eq_true h
      exact hlate
  | _ => trivial

/-- In a quiet run the file is unlinked, and rightly. -/
theorem cleanup_unlinks_owned_copied :
    ∃ before now record moment after,
      logOf (copiedAsFile "text") = before ++ .unlinked (.reconcile now) record moment :: after ∧
        Provable .png desktop moment (.reconcile now) record := by
  have hplain : (logOf (copiedAsFile "text")).all (Event.plain .png) = true := by decide +kernel
  have hunlinked : (logOf (copiedAsFile "text")).any (fun
      | .unlinked (.reconcile _) _ _ => true
      | _ => false) = true := by decide +kernel
  obtain ⟨e, he, hunlinked⟩ := List.any_eq_true.mp hunlinked
  obtain ⟨before, after, hsplit⟩ := List.append_of_mem he
  obtain ⟨hrightful, -⟩ := cleanup_unlinks_owned .png desktop [] 0 (copiedAsFile "text")
  split at hunlinked
  next now record moment =>
    refine ⟨before, now, record, moment, after, hsplit, ?_⟩
    refine (hrightful before _ record moment after hsplit (fun h => nomatch h)).1 fun e he => ?_
    have hlogged : e ∈ logOf (copiedAsFile "text") := hsplit ▸ List.mem_append_left _ he
    exact Event.fair_of_plain (List.all_eq_true.mp hplain e hlogged)
  · cases hunlinked

/-- A file is unlinked while an entry names it. -/
def Event.missesReference (P : Platform) : Event F → Bool
  | .unlinked (.reconcile _) record moment =>
      moment.tables.entries.any fun e => moment.tables.payloads.any fun p =>
        p.entryId = e.id && (filePaths P p.bytes).any (samePath · record.path)
  | _ => false

def doubledSlash : String :=
  "file:///h//Pictures/Screenshots/clipboard-history/clipboard-u.png"

/-- A text that names the file with a doubled slash does not keep it. -/
theorem doubled_slash_missed :
    ∃ before now record moment after,
      logOf (copiedAsFile doubledSlash) =
        before ++ .unlinked (.reconcile now) record moment :: after ∧
      ∃ e ∈ moment.tables.entries, ∃ p ∈ moment.tables.payloads, p.entryId = e.id ∧
        Names .png p.bytes record.path := by
  have hlog : (logOf (copiedAsFile doubledSlash)).any (Event.missesReference .png) = true := by
    decide +kernel
  obtain ⟨e, he, hmisses⟩ := List.any_eq_true.mp hlog
  obtain ⟨before, after, hsplit⟩ := List.append_of_mem he
  unfold Event.missesReference at hmisses
  split at hmisses
  next now record moment =>
    obtain ⟨entry, hentry, hmisses⟩ := List.any_eq_true.mp hmisses
    obtain ⟨p, hp, hmisses⟩ := List.any_eq_true.mp hmisses
    simp only [Bool.and_eq_true, decide_eq_true_eq] at hmisses
    obtain ⟨path, hpath, hsame⟩ := List.any_eq_true.mp hmisses.2
    exact ⟨before, now, record, moment, after, hsplit, entry, hentry, p, hp, hmisses.1, path,
      hpath, hsame⟩
  · cases hmisses

end Artifacts
end ClipDaemon
