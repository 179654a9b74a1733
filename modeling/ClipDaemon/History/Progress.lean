import ClipDaemon.History.Reconcile
import ClipDaemon.Lib.Alone
import ClipDaemon.Lib.Passes

/-!
# How far cleanups get

A cleanup takes the first 128 candidates in the order of their age and ends at the first
error (`ArtifactRegistry::prune`).  A record whose file cannot be inspected or unlinked is such
an error every time, and it is a candidate again in the next pass.

On the records that may go, a cleanup is a bounded pass over a queue (`alone_sweep`), so
repeated cleanups remove all records but the stuck and the active ones exactly when none of
the others comes after a stuck one (`cleanup_progress_iff`).
-/

namespace ClipDaemon
namespace Artifacts

open Thread (alone alone_run_bind alone_run_bind_error alone_outcome attempt atomic)

/-! ## Cleanups -/

/-- The two cleanups that are repeated. -/
inductive Sweep
  | reconcile
  | clearAll

variable {F : Type}

/-- The program of the sweep. -/
def Sweep.program (P : Platform) (H : Host F) : Sweep → Act F Nat
  | .reconcile => Artifacts.reconcile P H
  | .clearAll => Artifacts.clearAll P H

/-- Only records as old as this are candidates. -/
def Sweep.before (now : Nat) : Sweep → Nat
  | .reconcile => now - 60
  | .clearAll => 2 ^ 64 - 1

/-- Is the record the active selection, which the cleanup passes over? -/
def Sweep.skips (active : Option FilePath) (record : ArtifactRecord) : Sweep → Bool
  | .reconcile => active.any (samePath · record.path)
  | .clearAll => false

/-- The backend after cleanups that nothing disturbs, the one with number `k` at `clock k`. -/
def Sweep.after (P : Platform) (H : Host F) (sweep : Sweep) (chance : ℕ → Chance) (clock : ℕ → Nat)
    (s : Backend F) : ℕ → Backend F
  | 0 => s
  | k + 1 => ((sweep.program P H).run.alone (chance k)
      { sweep.after P H chance clock s k with clock := clock k }).2

/-! ## Statement -/

/-- Nothing fails. -/
structure Chance.Calm (c : Chance) : Prop where
  served : c.refused = none
  faults : c.faults = .none

/-- The store is open and intact, and its records have passed the checks of `register`. -/
structure Ready (s : Backend F) : Prop where
  isOpen : s.store.isOpen = true
  intact : s.store.db = .recovered s.committed
  paths : (s.committed.artifacts.map (·.path)).Nodup
  valid : ∀ a ∈ s.committed.artifacts, Database.validArtifact a = .ok ()

/-- `owned_path`. -/
def Host.owns (H : Host F) (files : F) (path : FilePath) : Bool :=
  match H.root with
  | none => false
  | some root =>
      hasParent path root && (H.canonicalize files root).any (samePath · root) &&
        (match H.symlinkMetadata files root with
          | .error _ => false
          | .ok metadata =>
              metadata.isDir && metadata.uid = H.euid && metadata.mode &&& 0o022 = 0 &&
                H.generatedFile path)

/-- The file of the record cannot be inspected or unlinked. -/
def Host.stuck (H : Host F) (files : F) (record : ArtifactRecord) : Bool :=
  H.owns files record.path &&
    match H.symlinkMetadata files record.path with
    | .error error => error ≠ .notFound
    | .ok metadata => !replaced H record metadata && !(H.removeFile files record.path).isOk

/-- Unlinking the file of one record leaves the others as stuck as they were. -/
def Host.Steady (H : Host F) : Prop :=
  ∀ files files' (a b : ArtifactRecord), H.owns files a.path = true →
    H.removeFile files a.path = .ok files' →
    a.path ≠ b.path → H.stuck files' b = H.stuck files b

/-- No entry refers to the record. -/
def Tables.orphan (t : Tables) (a : ArtifactRecord) : Bool :=
  !t.hasEntry a.sourceEntryId && !t.entryArtifacts.any fun row => row.path = a.path

/-- Every record that qualified is gone, except for stuck and active ones. -/
def Cleared (H : Host F) (sweep : Sweep) (s t : Backend F) : Prop :=
  ∀ a ∈ t.committed.artifacts, Tables.orphan s.committed a = true →
    sweep.skips s.active a = true ∨ H.stuck s.files a = true

/-- No record that could go comes after a stuck one that is not the active selection. -/
def NoneBehind (H : Host F) (sweep : Sweep) (s : Backend F) : Prop :=
  ∀ a ∈ s.committed.artifacts, ∀ b ∈ s.committed.artifacts,
    Tables.orphan s.committed a = true → Tables.orphan s.committed b = true → candidateOrder a b →
      H.stuck s.files a = true → sweep.skips s.active a = false →
        sweep.skips s.active b = true ∨ H.stuck s.files b = true

/-! ## The order of the records -/

/-- The records that may go, in the order of a cleanup. -/
def queue (t : Tables) : List ArtifactRecord :=
  (t.artifacts.filter (Tables.orphan t)).insertionSort candidateOrder

theorem mem_queue {t : Tables} {a : ArtifactRecord} :
    a ∈ queue t ↔ a ∈ t.artifacts ∧ Tables.orphan t a = true := by
  rw [queue, List.mem_insertionSort, List.mem_filter]

theorem nodup_queue {t : Tables} (h : (t.artifacts.map (·.path)).Nodup) :
    ((queue t).map (·.path)).Nodup := by
  refine (List.Perm.nodup_iff ((List.perm_insertionSort _ _).map _)).mpr ?_
  exact h.sublist (List.filter_sublist.map _)

instance : Std.Total candidateOrder := ⟨fun a b => by
  rcases Nat.lt_trichotomy a.createdAt b.createdAt with h | h | h
  · exact .inl (.inl h)
  · rcases List.le_total a.path b.path with hpath | hpath
    · exact .inl (.inr ⟨h, hpath⟩)
    · exact .inr (.inr ⟨h.symm, hpath⟩)
  · exact .inr (.inl h)⟩

instance : IsTrans ArtifactRecord candidateOrder := ⟨fun a b c => by
  rintro (hab | ⟨hab, hpath⟩) (hbc | ⟨hbc, hpath'⟩)
  · exact .inl (hab.trans hbc)
  · exact .inl (hbc ▸ hab)
  · exact .inl (hab ▸ hbc)
  · exact .inr ⟨hab.trans hbc, List.le_trans hpath hpath'⟩⟩

theorem candidateOrder_antisymm {a b : ArtifactRecord} (h : candidateOrder a b)
    (h' : candidateOrder b a) : a.path = b.path := by
  rcases h with h | ⟨heq, hpath⟩
  · rcases h' with h' | ⟨heq, -⟩ <;> omega
  · rcases h' with h' | ⟨-, hpath'⟩
    · omega
    · exact List.le_antisymm hpath hpath'

theorem pairwise_queue (t : Tables) : (queue t).Pairwise candidateOrder :=
  List.pairwise_insertionSort _ _

/-- Among records with different paths, the order is strict. -/
theorem eq_of_candidateOrder {l : List ArtifactRecord} (hl : (l.map (·.path)).Nodup)
    {a b : ArtifactRecord} (ha : a ∈ l) (hb : b ∈ l) (h : candidateOrder a b)
    (h' : candidateOrder b a) : a = b :=
  List.inj_on_of_nodup_map hl ha hb (candidateOrder_antisymm h h')

/-- The records of some paths disappear. -/
def Tables.without (t : Tables) (gone : List FilePath) : Tables :=
  { t with artifacts := t.artifacts.filter fun a => !gone.contains a.path }

theorem Tables.without_without (t : Tables) (gone gone' : List FilePath) :
    Tables.without (Tables.without t gone) gone' = Tables.without t (gone ++ gone') := by
  simp only [Tables.without, List.filter_filter]
  congr 1
  refine List.filter_congr fun a _ => ?_
  simp [Bool.and_comm]

theorem queue_without {t : Tables} (h : (t.artifacts.map (·.path)).Nodup) (gone : List FilePath) :
    queue (Tables.without t gone) = (queue t).filter fun a => !gone.contains a.path := by
  have hperm : (queue (Tables.without t gone)).Perm
      ((queue t).filter fun a => !gone.contains a.path) := by
    refine (List.perm_insertionSort _ _).trans ?_
    refine List.Perm.trans (List.Perm.of_eq ?_) ((List.perm_insertionSort _ _).filter _).symm
    rw [List.filter_filter, Tables.without, List.filter_filter]
    exact List.filter_congr fun a _ => Bool.and_comm _ _
  refine List.Perm.eq_of_pairwise (fun a b ha hb => ?_) (pairwise_queue _)
    ((pairwise_queue t).filter _) hperm
  have hmem := List.mem_filter.mp (hperm.mem_iff.mp ha)
  exact eq_of_candidateOrder (nodup_queue h) hmem.1 (List.mem_filter.mp hb).1

/-! ## One record -/

/-- The records of the paths are gone, and nothing else that a cleanup looks at has changed. -/
structure Cleaned (H : Host F) (gone : List FilePath) (s t : Backend F) : Prop where
  store : t.store = { s.store with db := .recovered (Tables.without s.committed gone) }
  active : t.active = s.active
  stuck : ∀ b : ArtifactRecord, b.path ∉ gone → H.stuck t.files b = H.stuck s.files b

section Alone

variable {P : Platform} {H : Host F} {c : Chance} {cleanup : Cleanup} {s t u : Backend F}
  {gone gone' : List FilePath} {record : ArtifactRecord}

theorem Cleaned.committed (h : Cleaned H gone s t) :
    t.committed = Tables.without s.committed gone := by
  rw [Backend.committed, h.store]
  rfl

theorem Ready.cleaned (hs : Ready s) (h : Cleaned H gone s t) : Ready t where
  isOpen := by rw [h.store]; exact hs.isOpen
  intact := by rw [h.committed, h.store]
  paths := by
    rw [h.committed]
    exact hs.paths.sublist (List.filter_sublist.map _)
  valid a ha := by
    rw [h.committed] at ha
    exact hs.valid a (List.mem_filter.mp ha).1

theorem Cleaned.refl (hs : Ready s) : Cleaned H [] s s where
  store := by
    have hall : Tables.without s.committed [] = s.committed := by simp [Tables.without]
    rw [hall, ← hs.intact]
  active := rfl
  stuck _ _ := rfl

theorem Cleaned.trans (h : Cleaned H gone s t) (h' : Cleaned H gone' t u) :
    Cleaned H (gone ++ gone') s u where
  store := by
    rw [h'.store, h.committed, h.store, Tables.without_without]
  active := h'.active.trans h.active
  stuck b hb := by
    rw [List.mem_append, not_or] at hb
    exact (h'.stuck b hb.2).trans (h.stuck b hb.1)

theorem alone_read {α : Type} (f : Backend F → α) :
    (read f : Act F α).run.alone c s = (some (.ok (f s)), s) := rfl

theorem alone_ownedPath (path : FilePath) :
    (ownedPath H path).run.alone c s = (some (.ok (H.owns s.files path)), s) := by
  unfold ownedPath Host.owns
  cases H.root with
  | none => rfl
  | some root =>
      dsimp only
      cases hasParent path root with
      | false => rfl
      | true =>
          rw [if_neg (by decide), alone_run_bind (alone_read _)]
          cases (H.canonicalize s.files root).any (samePath · root) with
          | false => rfl
          | true =>
              rw [if_neg (by decide), alone_run_bind (alone_read _)]
              cases H.symlinkMetadata s.files root with
              | error error => rfl
              | ok metadata =>
                  dsimp only
                  cases metadata.isDir <;> by_cases huid : metadata.uid = H.euid <;>
                    by_cases hmode : metadata.mode &&& 0o022 = 0 <;> simp [huid, hmode] <;> rfl

theorem validArtifact_ok (h : Database.validArtifact record = .ok ()) :
    toStr record.path = some record.path ∧ record.path.length ≤ 32768 ∧
      record.createdAt ≤ I64_MAX := by
  unfold Database.validArtifact at h
  split at h
  · cases h
  next path hpath =>
    obtain ⟨text, -, rfl⟩ := Option.map_eq_some_iff.mp hpath
    split at h
    · cases h
    next hvalid =>
      simp only [not_or, not_lt] at hvalid
      exact ⟨hpath, hvalid.2.1, hvalid.2.2.2.2⟩

/-- The store has forgotten the record of a path. -/
def Backend.without (path : FilePath) (s : Backend F) : Backend F :=
  { s with store := { s.store with db := .recovered (Tables.without s.committed [path]) } }

/-- Without failures the record of a path is forgotten. -/
theorem alone_forget (hc : c.Calm) (hs : Ready s) (h : Database.validArtifact record = .ok ()) :
    (request P H (.forgetArtifact record.path) : Act F Reply).run.alone c s =
      (some (.ok .unit), s.without record.path) := by
  obtain ⟨htext, hlength, -⟩ := validArtifact_ok h
  have hvalidate : (Request.forgetArtifact record.path).validate = .ok () :=
    if_neg (Nat.not_lt.mpr hlength)
  have hrun : s.store.db.execute c.faults
      ((Request.forgetArtifact record.path).job P ⟨H.world s.files, c.uuid⟩) =
      (.ok .unit, .recovered (Tables.without s.committed [record.path])) := by
    rw [hs.intact, hc.faults, Database.execute_none, Request.job, htext]
    have heval : (Request.unit (Database.forgetArtifact record.path)).eval s.committed =
        .ok (.unit, s.committed.deleteArtifact record.path) := rfl
    dsimp only
    rw [heval]
    simp [Tables.deleteArtifact, Tables.without]
  have hserve : s.serve (s.store.db.execute c.faults
      ((Request.forgetArtifact record.path).job P ⟨H.world s.files, c.uuid⟩)) c =
      (.ok .unit, s.without record.path) := by
    have hblocked : s.store.db.blocked = false := by
      rw [hs.intact]
      rfl
    rw [Backend.serve, hc.served, hrun, hs.isOpen, hblocked]
    rfl
  unfold request
  rw [hvalidate]
  exact congrArg (fun r => (some r.1, r.2)) hserve

theorem Ready.congr (hs : Ready s) (h : t.store = s.store) : Ready t where
  isOpen := by rw [h]; exact hs.isOpen
  intact := by rw [Backend.committed, h]; exact hs.intact
  paths := by rw [Backend.committed, h]; exact hs.paths
  valid := by rw [Backend.committed, h]; exact hs.valid

theorem alone_disown (hc : c.Calm) (hs : Ready s) (h : Database.validArtifact record = .ok ()) :
    ∃ t, (disown P H record.path : Act F Bool).run.alone c s = (some (.ok false), t) ∧
      Cleaned H [record.path] s t := by
  have hready : Ready (s.note (.found record.path)) := hs.congr rfl
  have hforget := alone_outcome (alone_forget (P := P) (H := H) hc hready h)
  refine ⟨((s.note (.found record.path)).without record.path).note (.forgotten record.path), ?_,
    rfl, rfl, fun _ _ => rfl⟩
  unfold disown
  rw [alone_run_bind (t := s.note (.found record.path)) rfl, alone_run_bind hforget]
  rfl

/-- What is done about a record follows from how its file is found. -/
theorem alone_remove :
    (remove P H cleanup record).run.alone c s =
      if H.owns s.files record.path then
        match H.symlinkMetadata s.files record.path with
        | .error .notFound => (disown P H record.path).run.alone c s
        | .error error => (some (.error (ioError error)), s)
        | .ok metadata =>
            if replaced H record metadata then (disown P H record.path).run.alone c s
            else
              match H.removeFile s.files record.path with
              | .error error => (some (.error (ioError error)), s)
              | .ok files =>
                  (do
                    let _ ← request P H (.forgetArtifact record.path)
                    pure true : Act F Bool).run.alone c
                      { s.note (.unlinked cleanup record s.moment) with files }
      else (disown P H record.path).run.alone c s := by
  rw [remove, alone_run_bind (alone_ownedPath record.path)]
  cases H.owns s.files record.path with
  | false => rfl
  | true =>
      rw [if_neg (by decide), if_pos rfl, alone_run_bind (alone_read _)]
      cases H.symlinkMetadata s.files record.path with
      | error error => cases error <;> rfl
      | ok metadata =>
          dsimp only
          cases replaced H record metadata with
          | true => rfl
          | false =>
              have hunlink : (unlink H cleanup record).run.alone c s =
                  match H.removeFile s.files record.path with
                  | .error error => (some (.error (ioError error)), s)
                  | .ok files => (some (.ok ()),
                      { s.note (.unlinked cleanup record s.moment) with files }) := by
                unfold unlink attempt atomic
                simp only [ExceptT.run_mk, alone]
                cases H.removeFile s.files record.path <;> rfl
              rw [if_neg (by decide), if_neg (by decide)]
              cases hremove : H.removeFile s.files record.path with
              | error error =>
                  rw [hremove] at hunlink
                  exact alone_run_bind_error hunlink
              | ok files =>
                  rw [hremove] at hunlink
                  exact alone_run_bind hunlink

/-- A stuck record ends the pass. -/
theorem alone_remove_stuck (cleanup : Cleanup) (h : H.stuck s.files record = true) :
    ∃ error, (remove P H cleanup record).run.alone c s = (some (.error error), s) := by
  rw [Host.stuck, Bool.and_eq_true] at h
  obtain ⟨howns, h⟩ := h
  rw [alone_remove, if_pos howns]
  cases hmetadata : H.symlinkMetadata s.files record.path with
  | error error =>
      rw [hmetadata] at h
      cases error with
      | notFound => cases h
      | other => exact ⟨_, rfl⟩
  | ok metadata =>
      rw [hmetadata] at h
      simp only [Bool.and_eq_true, Bool.not_eq_true'] at h
      dsimp only
      rw [if_neg (by rw [h.1]; decide)]
      cases hremove : H.removeFile s.files record.path with
      | error error => exact ⟨_, rfl⟩
      | ok files =>
          rw [hremove] at h
          cases h.2

/-- Every other record goes. -/
theorem alone_remove_free (cleanup : Cleanup) (hH : H.Steady) (hc : c.Calm) (hs : Ready s)
    (hvalid : Database.validArtifact record = .ok ()) (h : H.stuck s.files record = false) :
    ∃ removed t, (remove P H cleanup record).run.alone c s = (some (.ok removed), t) ∧
      Cleaned H [record.path] s t := by
  have hdisown := alone_disown (P := P) (H := H) hc hs hvalid
  rw [alone_remove]
  split
  next howns =>
    rw [Host.stuck, howns, Bool.true_and] at h
    cases hmetadata : H.symlinkMetadata s.files record.path with
    | error error =>
        rw [hmetadata] at h
        cases error with
        | notFound => exact ⟨false, hdisown⟩
        | other => cases h
    | ok metadata =>
        rw [hmetadata] at h
        dsimp only at h ⊢
        split
        next => exact ⟨false, hdisown⟩
        next hreplaced =>
          cases hremove : H.removeFile s.files record.path with
          | error error =>
              simp [hreplaced, hremove, Except.isOk, Except.toBool] at h
          | ok files =>
              have hforget := alone_forget (P := P) (H := H) hc (hs.congr (t := { s.note
                (.unlinked cleanup record s.moment) with files }) rfl) hvalid
              refine ⟨true, Backend.without record.path { s.note
                (.unlinked cleanup record s.moment) with files }, alone_run_bind hforget, rfl, rfl,
                fun b hb => ?_⟩
              exact hH _ _ record b howns hremove fun heq => hb (heq ▸ List.mem_singleton_self _)
  next => exact ⟨false, hdisown⟩

/-! ## One pass -/

/-- The records that a pass over `records` removes. -/
def removedBy (skip stuck : ArtifactRecord → Bool) (records : List ArtifactRecord) :
    List ArtifactRecord :=
  (records.takeWhile fun a => skip a || !stuck a).filter fun a => !skip a

section RemovedBy

variable {skip stuck stuck' : ArtifactRecord → Bool} {records : List ArtifactRecord}

theorem removedBy_skip (h : skip record = true) :
    removedBy skip stuck (record :: records) = removedBy skip stuck records := by
  simp [removedBy, h]

theorem removedBy_stuck (h : skip record = false) (h' : stuck record = true) :
    removedBy skip stuck (record :: records) = [] := by
  simp [removedBy, h, h']

theorem removedBy_free (h : skip record = false) (h' : stuck record = false) :
    removedBy skip stuck (record :: records) = record :: removedBy skip stuck records := by
  simp [removedBy, h, h']

theorem removedBy_congr (h : ∀ a ∈ records, stuck a = stuck' a) :
    removedBy skip stuck records = removedBy skip stuck' records := by
  rw [removedBy, removedBy, Passes.takeWhile_congr fun a ha => by rw [h a ha]]

/-- What is left when the records that a pass removes are gone. -/
theorem filter_removedBy {l : List ArtifactRecord} (hl : (l.map (·.path)).Nodup) (n : ℕ) :
    l.filter (fun a => !((removedBy skip stuck (l.take n)).map (·.path)).contains a.path) =
      Passes.pass skip stuck n l := by
  have hgone : ∀ a ∈ l, a.path ∈ (removedBy skip stuck (l.take n)).map (·.path) ↔
      a ∈ Passes.worked skip stuck n l ∧ skip a = false := by
    intro a ha
    rw [List.mem_map]
    constructor
    · rintro ⟨b, hb, hpath⟩
      obtain ⟨hworked, hskip⟩ := List.mem_filter.mp hb
      have hmem : b ∈ l := List.mem_of_mem_take ((List.takeWhile_prefix _).subset hworked)
      obtain rfl := List.inj_on_of_nodup_map hl hmem ha hpath
      exact ⟨hworked, by simpa using hskip⟩
    · rintro ⟨hworked, hskip⟩
      exact ⟨a, List.mem_filter.mpr ⟨hworked, by simpa using hskip⟩, rfl⟩
  have hsplit := Passes.worked_append_drop skip stuck n l
  have hdisjoint : ∀ a ∈ l.drop (Passes.worked skip stuck n l).length,
      a ∉ Passes.worked skip stuck n l := by
    intro a hdrop hworked
    have hnodup := List.Nodup.of_map _ hl
    rw [← hsplit] at hnodup
    exact (List.nodup_append'.mp hnodup).2.2 hworked hdrop
  generalize (removedBy skip stuck (l.take n)).map (·.path) = gone at hgone
  rw [Passes.pass]
  conv_lhs => rw [← hsplit, List.filter_append]
  congr 1
  · refine List.filter_congr fun a ha => ?_
    have hmem : a ∈ l := hsplit ▸ List.mem_append_left _ ha
    cases hskip : skip a <;> simp [hgone a hmem, ha, hskip]
  · rw [List.filter_eq_self]
    intro a ha
    have hmem : a ∈ l := hsplit ▸ List.mem_append_right _ ha
    simp [hgone a hmem, hdisjoint a ha]

end RemovedBy

theorem alone_removeEach (cleanup : Cleanup) (hH : H.Steady) (hc : c.Calm)
    (active : Option FilePath)
    {records : List ArtifactRecord} (hs : Ready s) (hpaths : (records.map (·.path)).Nodup)
    (hvalid : ∀ a ∈ records, Database.validArtifact a = .ok ()) :
    ∃ r t, (removeEach P H cleanup active records).run.alone c s = (some r, t) ∧
      Cleaned H ((removedBy (fun a => active.any (samePath · a.path)) (H.stuck s.files) records).map
        (·.path)) s t := by
  induction records generalizing s with
  | nil => exact ⟨_, s, rfl, .refl hs⟩
  | cons record records ih =>
      rw [List.map_cons, List.nodup_cons] at hpaths
      obtain ⟨hfirst, hrest⟩ := List.forall_mem_cons.mp hvalid
      cases hskip : active.any (samePath · record.path) with
      | true =>
          rw [removeEach, if_pos hskip, removedBy_skip hskip]
          exact ih hs hpaths.2 hrest
      | false =>
          rw [removeEach, if_neg (by rw [hskip]; decide)]
          cases hstuck : H.stuck s.files record with
          | true =>
              obtain ⟨error, hremove⟩ := alone_remove_stuck (P := P) (c := c) cleanup hstuck
              rw [removedBy_stuck hskip hstuck, alone_run_bind_error hremove]
              exact ⟨_, s, rfl, .refl hs⟩
          | false =>
              obtain ⟨removed, t, hremove, hcleaned⟩ :=
                alone_remove_free (P := P) cleanup hH hc hs hfirst hstuck
              obtain ⟨r, u, hmore, hcleaned'⟩ := ih (hs.cleaned hcleaned) hpaths.2 hrest
              have hsame : ∀ a ∈ records, H.stuck t.files a = H.stuck s.files a := fun a ha =>
                hcleaned.stuck a fun hmem =>
                  hpaths.1 (List.mem_singleton.mp hmem ▸ List.mem_map_of_mem ha)
              rw [removedBy_congr hsame] at hcleaned'
              rw [removedBy_free hskip hstuck, alone_run_bind hremove]
              cases r with
              | error error =>
                  rw [alone_run_bind_error hmore]
                  exact ⟨_, u, rfl, hcleaned.trans hcleaned'⟩
              | ok more =>
                  rw [alone_run_bind hmore]
                  exact ⟨_, u, rfl, hcleaned.trans hcleaned'⟩

theorem alone_candidates (hc : c.Calm) (hs : Ready s) {before : Nat}
    (haged : ∀ a ∈ s.committed.artifacts, a.createdAt ≤ before) :
    (candidates before 128 : Act F _).run.alone c s =
      (some (.ok ((queue s.committed).take 128)), s) := by
  have hfilter : s.committed.artifacts.filter (s.committed.unreferenced before) =
      s.committed.artifacts.filter (Tables.orphan s.committed) := by
    refine List.filter_congr fun a ha => ?_
    have hold : a.createdAt ≤ min before I64_MAX :=
      le_min (haged a ha) (validArtifact_ok (hs.valid a ha)).2.2
    rw [Tables.unreferenced, Tables.orphan, decide_eq_true hold, Bool.true_and]
  have hrows : ((Database.artifactCandidates before 128).exec [] s.committed).1 =
      .ok ((queue s.committed).take 128) := by
    rw [(Prog.exec_nil _ _).1, Database.artifactCandidates, eval_rows, hfilter]
    rfl
  have hpending : s.store.db.pending.getD s.store.db.durable = s.committed := by
    rw [hs.intact]
    rfl
  have hblocked : s.store.db.blocked = false := by
    rw [hs.intact]
    rfl
  have hserve : s.serve (((Database.artifactCandidates before 128).exec c.faults.statements
      (s.store.db.pending.getD s.store.db.durable)).1, s.store.db) c =
      (.ok ((queue s.committed).take 128), s) := by
    rw [Backend.serve, hc.served, hc.faults, hpending, hs.isOpen, hblocked]
    exact congrArg (fun r => (r, s)) hrows
  exact congrArg (fun r => (some r.1, r.2)) hserve

theorem alone_prune (cleanup : Cleanup) (hH : H.Steady) (hc : c.Calm) (hs : Ready s) {before : Nat}
    (haged : ∀ a ∈ s.committed.artifacts, a.createdAt ≤ before) :
    ∃ r t gone, (prune P H cleanup before).run.alone c s = (some r, t) ∧ Cleaned H gone s t ∧
      queue t.committed = Passes.pass (fun a => s.active.any (samePath · a.path))
        (H.stuck s.files) 128 (queue s.committed) := by
  have hnodup := nodup_queue hs.paths
  obtain ⟨r, t, hrun, hcleaned⟩ := alone_removeEach (P := P) cleanup hH hc s.active hs
    (hnodup.sublist ((List.take_sublist _ _).map _))
    fun a ha => hs.valid a (mem_queue.mp (List.mem_of_mem_take ha)).1
  refine ⟨r, t, _, ?_, hcleaned, ?_⟩
  · rw [prune, alone_run_bind (alone_read _), alone_run_bind (alone_candidates hc hs haged)]
    exact hrun
  · rw [hcleaned.committed, queue_without hs.paths, filter_removedBy hnodup]

/-- What a cleanup has done to the records. -/
structure Swept (H : Host F) (sweep : Sweep) (s t : Backend F) : Prop where
  ready : Ready t
  skips : ∀ a, sweep.skips t.active a = sweep.skips s.active a
  tables : ∃ gone, t.committed = Tables.without s.committed gone ∧
    ∀ b : ArtifactRecord, b.path ∉ gone → H.stuck t.files b = H.stuck s.files b
  candidates : queue t.committed =
    Passes.pass (sweep.skips s.active) (H.stuck s.files) 128 (queue s.committed)

theorem alone_write (f : Backend F → Backend F) :
    (write f : Act F Unit).run.alone c s = (some (.ok ()), f s) := rfl

theorem alone_passing {α : Type} {m : Act F α} {r : BackendResult α}
    (h : m.run.alone c { s with pass := true } = (some r, t)) :
    (passing m).run.alone c s = (some r, { t with pass := false }) := by
  unfold passing
  rw [alone_run_bind (alone_write _), alone_run_bind (alone_outcome h),
    alone_run_bind (alone_write _)]
  rfl

theorem alone_sweep (hH : H.Steady) (hc : c.Calm) (hs : Ready s) (sweep : Sweep) {now : Nat}
    (haged : ∀ a ∈ s.committed.artifacts, a.createdAt ≤ sweep.before now) :
    Swept H sweep s ((sweep.program P H).run.alone c { s with clock := now }).2 := by
  cases sweep with
  | reconcile =>
      have hready : Ready { s with clock := now, pass := true, log := s.log ++ [.began now] } :=
        hs.congr rfl
      obtain ⟨r, t, gone, hrun, hcleaned, hqueue⟩ :=
        alone_prune (P := P) (.reconcile now) hH hc hready haged
      have hsweep : (Sweep.reconcile.program P H).run.alone c { s with clock := now } =
          (some r, { t with pass := false }) := by
        refine alone_passing ?_
        exact hrun
      rw [hsweep]
      exact ⟨(hready.cleaned hcleaned).congr rfl,
        fun a => by rw [Sweep.skips, Sweep.skips, hcleaned.active],
        ⟨gone, hcleaned.committed, hcleaned.stuck⟩, hqueue⟩
  | clearAll =>
      have hready : Ready { s with clock := now, active := none, pass := true } := hs.congr rfl
      obtain ⟨r, t, gone, hrun, hcleaned, hqueue⟩ :=
        alone_prune (P := P) .clearAll hH hc hready haged
      have hsweep : (Sweep.clearAll.program P H).run.alone c { s with clock := now } =
          (some r, { t with pass := false }) := by
        rw [Sweep.program, Artifacts.clearAll, clearActiveSelection, alone_run_bind (alone_write _)]
        exact alone_passing hrun
      rw [hsweep]
      exact ⟨(hready.cleaned hcleaned).congr rfl, fun _ => rfl,
        ⟨gone, hcleaned.committed, hcleaned.stuck⟩, hqueue⟩

end Alone

/-! ## All passes -/

section Run

variable {P : Platform} {H : Host F} {sweep : Sweep} {chance : ℕ → Chance} {clock : ℕ → Nat}
  {s t : Backend F}

/-- After `k` cleanups the records that may go are those of `k` passes. -/
structure Reached (H : Host F) (sweep : Sweep) (s : Backend F) (k : ℕ) (t : Backend F) : Prop where
  ready : Ready t
  skips : ∀ a, sweep.skips t.active a = sweep.skips s.active a
  tables : ∃ gone, t.committed = Tables.without s.committed gone ∧
    ∀ b : ArtifactRecord, b.path ∉ gone → H.stuck t.files b = H.stuck s.files b
  candidates : queue t.committed =
    (Passes.pass (sweep.skips s.active) (H.stuck s.files) 128)^[k] (queue s.committed)

theorem Reached.step {u : Backend F} {k : ℕ} (h : Reached H sweep s k t) (h' : Swept H sweep t u) :
    Reached H sweep s (k + 1) u := by
  obtain ⟨gone, htables, hstuck⟩ := h.tables
  obtain ⟨gone', htables', hstuck'⟩ := h'.tables
  refine ⟨h'.ready, fun a => (h'.skips a).trans (h.skips a),
    ⟨gone ++ gone', ?_, fun b hb => ?_⟩, ?_⟩
  · rw [htables', htables, Tables.without_without]
  · rw [List.mem_append, not_or] at hb
    exact (hstuck' b hb.2).trans (hstuck b hb.1)
  · have hsame : ∀ a ∈ queue t.committed, H.stuck t.files a = H.stuck s.files a := by
      intro a ha
      have hmem := (mem_queue.mp ha).1
      rw [htables, Tables.without] at hmem
      exact hstuck a (by simpa using (List.mem_filter.mp hmem).2)
    rw [h'.candidates, Passes.pass_congr hsame, funext h.skips, h.candidates,
      Function.iterate_succ_apply']

theorem after_reached (hH : H.Steady) (hcalm : ∀ k, (chance k).Calm) (hs : Ready s)
    (haged : ∀ k, ∀ a ∈ s.committed.artifacts, a.createdAt ≤ sweep.before (clock k)) (k : ℕ) :
    Reached H sweep s k (sweep.after P H chance clock s k) := by
  induction k with
  | zero =>
      refine ⟨hs, fun _ => rfl, ⟨[], ?_, fun _ _ => rfl⟩, rfl⟩
      simp [Sweep.after, Tables.without]
  | succ k ih =>
      refine ih.step (alone_sweep hH (hcalm k) ih.ready sweep fun a ha => ?_)
      obtain ⟨gone, htables, -⟩ := ih.tables
      rw [htables, Tables.without] at ha
      exact haged k a (List.mem_filter.mp ha).1

theorem Reached.cleared_iff {k : ℕ} (h : Reached H sweep s k t) :
    Cleared H sweep s t ↔
      ∀ a ∈ queue t.committed, sweep.skips s.active a = true ∨ H.stuck s.files a = true := by
  obtain ⟨gone, htables, -⟩ := h.tables
  have horphan : Tables.orphan t.committed = Tables.orphan s.committed := by
    rw [htables]
    rfl
  simp only [Cleared, mem_queue, horphan, and_imp]

/-- One condition on the records and on their order. -/
theorem noneBehind_iff (hs : Ready s) : NoneBehind H sweep s ↔
    (queue s.committed).Pairwise fun a b =>
      H.stuck s.files a = true → sweep.skips s.active a = false →
      sweep.skips s.active b = true ∨ H.stuck s.files b = true := by
  constructor
  · intro h
    refine (pairwise_queue s.committed).imp_of_mem fun ha hb horder => ?_
    obtain ⟨ha, horphan⟩ := mem_queue.mp ha
    obtain ⟨hb, horphan'⟩ := mem_queue.mp hb
    exact h _ ha _ hb horphan horphan' horder
  · intro h a ha b hb horphan horphan' horder hstuck hskip
    have hamem := mem_queue.mpr ⟨ha, horphan⟩
    have hbmem := mem_queue.mpr ⟨hb, horphan'⟩
    obtain ⟨i, hi, rfl⟩ := List.getElem_of_mem hamem
    obtain ⟨j, hj, rfl⟩ := List.getElem_of_mem hbmem
    rcases Nat.lt_trichotomy i j with hlt | rfl | hgt
    · exact List.pairwise_iff_getElem.mp h i j hi hj hlt hstuck hskip
    · exact .inr hstuck
    · have hback := List.pairwise_iff_getElem.mp (pairwise_queue s.committed) j i hj hi hgt
      exact .inr (eq_of_candidateOrder hs.paths ha hb horder hback ▸ hstuck)

/-- Repeated cleanups remove every record that may go, except for stuck and active ones, exactly
when no such record comes after a stuck one. -/
theorem cleanup_progress_iff (P : Platform) (H : Host F) (hH : H.Steady) (sweep : Sweep)
    (chance : ℕ → Chance) (hcalm : ∀ k, (chance k).Calm) (clock : ℕ → Nat) (s : Backend F)
    (hs : Ready s) (haged : ∀ k, ∀ a ∈ s.committed.artifacts, a.createdAt ≤ sweep.before (clock k))
    (hactive : ∀ a ∈ s.committed.artifacts, ∀ b ∈ s.committed.artifacts,
      Tables.orphan s.committed a = true → Tables.orphan s.committed b = true →
        sweep.skips s.active a = true → sweep.skips s.active b = true → a = b) :
    (∃ k, Cleared H sweep s (sweep.after P H chance clock s k)) ↔ NoneBehind H sweep s := by
  have hskips : ((queue s.committed).filter (sweep.skips s.active)).length < 128 := by
    have hnodup := (List.Nodup.of_map _ (nodup_queue hs.paths)).filter (sweep.skips s.active)
    have hmem : ∀ a ∈ (queue s.committed).filter (sweep.skips s.active),
        (a ∈ s.committed.artifacts ∧ Tables.orphan s.committed a = true) ∧
          sweep.skips s.active a = true := fun a ha =>
      ⟨mem_queue.mp (List.mem_filter.mp ha).1, (List.mem_filter.mp ha).2⟩
    generalize (queue s.committed).filter (sweep.skips s.active) = skipped at hnodup hmem
    match skipped with
    | [] => exact Nat.succ_pos 127
    | [a] => exact (by decide : 1 < 128)
    | a :: b :: rest =>
        obtain ⟨⟨ha, horphan⟩, hskip⟩ := hmem a (by simp)
        obtain ⟨⟨hb, horphan'⟩, hskip'⟩ := hmem b (by simp)
        have heq := hactive a ha b hb horphan horphan' hskip hskip'
        exact absurd (heq ▸ List.mem_cons_self) (List.nodup_cons.mp hnodup).1
  have hreached := fun k => after_reached (P := P) hH hcalm hs haged k
  rw [noneBehind_iff hs, ← Passes.exists_pass_iff hskips]
  refine exists_congr fun k => ?_
  rw [(hreached k).cleared_iff, (hreached k).candidates]

end Run

/-! ## Two records -/

/-- A file system in which some files cannot be removed. -/
def locked (paths : List FilePath) : Host (List FilePath) :=
  { desktop with
    removeFile := fun files path =>
      if paths.contains path then .error .other else desktop.removeFile files path }

/-- The directory is not a file in it. -/
theorem ne_of_hasParent {path root : FilePath} (h : hasParent path root = true) : path ≠ root := by
  rintro rfl
  simp only [hasParent, Bool.and_eq_true, decide_eq_true_eq, beq_iff_eq] at h
  have hlength := congrArg List.length h.2
  rw [List.length_dropLast] at hlength
  have hpos := List.length_pos_iff.mpr h.1.1
  omega

theorem locked_steady (paths : List FilePath) : (locked paths).Steady := by
  intro files files' a b howns hremove hne
  have hgone : files' = files.filter (· ≠ a.path) := by
    simp only [locked, desktop] at hremove
    split at hremove
    · cases hremove
    · split at hremove
      · exact (Except.ok.inj hremove).symm
      · cases hremove
  have hother : ∀ path, path ≠ a.path → (path ∈ files' ↔ path ∈ files) := by
    intro path hpath
    simp [hgone, hpath]
  have hmetadata : ∀ path, path ≠ a.path →
      (locked paths).symlinkMetadata files' path = (locked paths).symlinkMetadata files path := by
    intro path hpath
    simp only [locked, desktop, hother path hpath]
  have howned : ∀ path, (locked paths).owns files' path = (locked paths).owns files path := by
    intro path
    rw [Host.owns] at howns ⊢
    rw [Host.owns]
    cases hroot : (locked paths).root with
    | none => rfl
    | some root =>
        rw [hroot] at howns
        simp only [Bool.and_eq_true] at howns
        dsimp only
        rw [hmetadata root (ne_of_hasParent howns.1.1).symm]
        rfl
  have hok : ((locked paths).removeFile files' b.path).isOk =
      ((locked paths).removeFile files b.path).isOk := by
    simp only [locked, desktop, hother b.path hne.symm]
    split_ifs <;> rfl
  rw [Host.stuck, Host.stuck, howned, hmetadata b.path hne.symm]
  split
  · rfl
  · rw [hok]

/-- A record of a file of the desktop. -/
def recordAt (name : String) (createdAt : Nat) : ArtifactRecord :=
  ⟨asBytes ("/h/Pictures/Screenshots/clipboard-history/" ++ name), "entry-s", "",
    createdAt, 1, 1, 1⟩

/-- Two files, an older and a newer one, whose entry is gone. -/
def twoFiles : Backend (List FilePath) where
  store := ⟨.recovered { Tables.fresh with
    artifacts := [recordAt "clipboard-u.gif" 0, recordAt "clipboard-u.png" 1] }, true⟩
  active := none
  files := [(recordAt "clipboard-u.gif" 0).path, (recordAt "clipboard-u.png" 1).path]
  clock := 100
  transaction := none
  pass := false
  log := []

/-- Nothing fails. -/
def calm : Chance := ⟨none, .none, "", .ok ()⟩

theorem twoFiles_ready : Ready twoFiles := ⟨rfl, rfl, by decide +kernel, by decide +kernel⟩

/-- When both can be removed, both are. -/
theorem cleanup_progress_iff_unlocked : ∃ k, Cleared (locked []) .reconcile twoFiles
    (Sweep.reconcile.after .png (locked []) (fun _ => calm) (fun _ => 100)
      twoFiles k) :=
  (cleanup_progress_iff .png (locked []) (locked_steady []) .reconcile _ (fun _ => ⟨rfl, rfl⟩) _
    twoFiles twoFiles_ready (fun _ => by decide +kernel) (by decide +kernel)).mpr
      (by unfold NoneBehind; decide +kernel)

/-- When the older one cannot be removed, the newer one never is, by either cleanup. -/
theorem stuck_record_starves :
    let H := locked [(recordAt "clipboard-u.gif" 0).path]
    H.stuck twoFiles.files (recordAt "clipboard-u.gif" 0) = true ∧
      H.stuck twoFiles.files (recordAt "clipboard-u.png" 1) = false ∧ twoFiles.active = none ∧
      ∀ sweep : Sweep, ¬∃ k, Cleared H sweep twoFiles
        (sweep.after .png H (fun _ => calm) (fun _ => 100) twoFiles k) := by
  intro H
  refine ⟨by decide +kernel, by decide +kernel, rfl, ?_⟩
  rintro sweep ⟨k, hk⟩
  have hreached : Reached H sweep twoFiles k
      (sweep.after .png H (fun _ => calm) (fun _ => 100) twoFiles k) :=
    after_reached (locked_steady _) (fun _ => ⟨rfl, rfl⟩) twoFiles_ready
      (fun _ => by cases sweep <;> decide +kernel) k
  rw [hreached.cleared_iff, hreached.candidates] at hk
  have hpairs := (Passes.exists_pass_iff (by cases sweep <;> decide +kernel)).mp ⟨k, hk⟩
  revert hpairs
  cases sweep <;> decide +kernel

end Artifacts
end ClipDaemon
