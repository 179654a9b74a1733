import ClipDaemon.Daemon.Turns
import ClipDaemon.History.RoundTrip
import ClipDaemon.Store.Tokens

/-!
# What the store has answered

The commits of a daemon lead from the tables that it has opened with to those that are committed
now.  An answer of the store was right at one point between them, and this point is known: what
was committed before it stays before it.  So what a client was shown and what is written over it
have an order, and revisions tell what lies between them.

`archive` is the discipline of all calls under which this is so.
-/

namespace ClipDaemon

open Versions
open Thread (attempt outcome result Gives Mild gives_pure gives_throw gives_result gives_bind
  gives_outcome gives_then stable_of)

/-! ## From tables to tables -/

/-- The entry is there, as it was in `t`. -/
def Tables.Keeps (t : Tables) (e : EntryRow) (u : Tables) : Prop :=
  t.item e ∈ u.snapshot.items

theorem Tables.Keeps.bytesOf {t u : Tables} {e : EntryRow} (h : t.Keeps e u) :
    u.bytesOf e.id = t.bytesOf e.id := by
  obtain ⟨e', -, heq⟩ := List.mem_map.mp h
  have hid : e'.id = e.id := congrArg Item.id heq
  have hpayload : u.payloadOf e'.id = t.payloadOf e.id := congrArg Item.payload heq
  rw [hid] at hpayload
  rw [Tables.bytesOf, Tables.bytesOf, hpayload]

/-! ## Mutations -/

/-- What a mutation of one entry asks of the store, once it has found the entry. -/
def BackendMutation.request (id : String) (revision : Nat) : BackendMutation → Option Request
  | .remove => some (.removeMany [⟨id, UInt64.ofNat revision⟩])
  | .setFavorite value => some (.favorite id revision value)
  | _ => none

/-- The bound on the size changes nothing of what is asked. -/
theorem BackendMutation.request_forAction {action id : String} {maxBytes maxBytes' revision : Nat}
    {mutation mutation' : BackendMutation}
    (h : forAction action maxBytes = some mutation)
    (h' : forAction action maxBytes' = some mutation') :
    request id revision mutation = request id revision mutation' := by
  unfold forAction at h
  split at h <;> cases h <;> cases h' <;> rfl

namespace Daemon

variable {F α : Type}

/-- The commits lead from `t` to `u`. -/
def Leads (P : Platform) (t : Tables) : List Commit → Tables → Prop
  | [], u => u = t
  | commit :: commits, u =>
      commit.before = t ∧ Change P t commit.after ∧ Leads P commit.after commits u

section Leads

variable {P : Platform} {t u : Tables} {commits earlier later : List Commit} {commit : Commit}

theorem leads_append :
    Leads P t (earlier ++ later) u ↔ ∃ v, Leads P t earlier v ∧ Leads P v later u := by
  induction earlier generalizing t with
  | nil => simp [Leads]
  | cons commit earlier ih => simp only [List.cons_append, Leads, ih]; grind

/-- The commits say where they lead. -/
theorem Leads.unique {v : Tables} (h : Leads P t commits u) (h' : Leads P t commits v) : u = v := by
  induction commits generalizing t with
  | nil => exact h.trans h'.symm
  | cons commit commits ih => exact ih h.2.2 h'.2.2

theorem Leads.snoc (h : Leads P t commits u) (hbefore : commit.before = u)
    (hchange : Change P u commit.after) : Leads P t (commits ++ [commit]) commit.after :=
  leads_append.mpr ⟨u, h, hbefore, hchange, rfl⟩

theorem Leads.wellFormed (h : Leads P t commits u) (ht : WellFormed P t) : WellFormed P u := by
  induction commits generalizing t with
  | nil => exact h ▸ ht
  | cons commit commits ih => exact ih h.2.2 (h.2.1.wellFormed ht)

theorem Leads.advances (h : Leads P t commits u) (ht : WellFormed P t) :
    Advances Item.revision t.snapshot u.snapshot := by
  induction commits generalizing t with
  | nil => exact h ▸ .refl _ _
  | cons commit commits ih => exact (h.2.1.advances ht).trans (ih h.2.2 (h.2.1.wellFormed ht))

/-- All tables on the way. -/
def tables (t : Tables) (commits : List Commit) : List Tables := t :: commits.map (·.after)

theorem tables_append {v : Tables} (h : v ∈ tables t earlier) :
    v ∈ tables t (earlier ++ later) := by
  rw [tables, List.map_append]
  exact List.mem_append_left _ h

theorem Leads.last (h : Leads P t commits u) : u ∈ tables t commits := by
  induction commits generalizing t with
  | nil => exact List.mem_singleton.mpr h
  | cons commit commits ih => exact List.mem_cons_of_mem _ (ih h.2.2)

theorem Leads.split (h : Leads P t commits u) {v : Tables} (hv : v ∈ tables t commits) :
    ∃ earlier later, Leads P t earlier v ∧ Leads P v later u := by
  induction commits generalizing t with
  | nil =>
      obtain rfl := List.mem_singleton.mp hv
      exact ⟨[], [], rfl, h⟩
  | cons commit commits ih =>
      rcases List.mem_cons.mp hv with rfl | hv
      · exact ⟨[], commit :: commits, rfl, h⟩
      · obtain ⟨earlier, later, hearlier, hlater⟩ := ih h.2.2 hv
        exact ⟨commit :: earlier, later, ⟨h.1, h.2.1, hearlier⟩, hlater⟩

/-- What still has its revision was there all the time. -/
theorem Leads.kept (h : Leads P t commits u) (ht : WellFormed P t) {e e' : EntryRow}
    (he : e ∈ t.entries) (he' : e' ∈ u.entries) (hid : e'.id = e.id)
    (hrevision : e'.revision = e.revision) : ∀ v ∈ tables t commits, t.Keeps e v := by
  intro v hv
  obtain ⟨earlier, later, hearlier, hlater⟩ := h.split hv
  have hle : e.revision ≤ t.storeMeta.revision := ht.stamped.revision_le e he
  have hitem : u.item e' ∈ v.snapshot.items :=
    (hlater.advances (hearlier.wellFormed ht)).old _ (List.mem_map_of_mem he')
      ((hrevision ▸ hle).trans (hearlier.advances ht).clock_le)
  obtain ⟨e₁, he₁, heq⟩ := List.mem_map.mp ((h.advances ht).old _ (List.mem_map_of_mem he')
    (show e'.revision ≤ t.storeMeta.revision from hrevision ▸ hle))
  have hsame : e₁ = e := by
    refine List.inj_on_of_nodup_map ht.stamped.ids he₁ he ?_
    exact (congrArg Item.id heq).trans hid
  rw [hsame] at heq
  rw [Tables.Keeps, heq]
  exact hitem

/-- A revision that is gone does not come back. -/
theorem Leads.not_carries (h : Leads P t commits u) (ht : WellFormed P t) {id : String}
    {revision : Nat} (hle : revision ≤ t.storeMeta.revision) (hgone : ¬t.Carries id revision) :
    ¬u.Carries id revision := by
  rintro ⟨e, he, rfl, rfl⟩
  obtain ⟨e', he', heq⟩ := List.mem_map.mp ((h.advances ht).old _ (List.mem_map_of_mem he) hle)
  exact hgone ⟨e', he', congrArg Item.id heq, congrArg Item.revision heq⟩

end Leads

/-! ## Answers -/

/-- The store has answered a request after all that is past, and what it changed is recorded
under the source. -/
def Answered (P : Platform) (origin : Tables) (past : List Commit) (source : Source) (r : Request)
    (reply : ClipDaemon.Reply) (s : Daemon F) : Prop :=
  ∃ earlier later before after env, s.commits = earlier ++ later ∧ past <+: earlier ∧
    Leads P origin earlier before ∧ r.effect P env before = .ok (reply, after) ∧
    (after = before ∨ ∃ rest, later = ⟨source, before, after⟩ :: rest)

section Answered

variable {P : Platform} {origin : Tables} {past : List Commit} {source : Source} {r : Request}
  {reply : ClipDaemon.Reply} {s t : Daemon F}

theorem Answered.mono (h : Answered P origin past source r reply s)
    (hcommits : s.commits <+: t.commits) : Answered P origin past source r reply t := by
  obtain ⟨earlier, later, before, after, env, heq, hpast, hleads, heffect, hafter⟩ := h
  obtain ⟨more, hmore⟩ := hcommits
  refine ⟨earlier, later ++ more, before, after, env, ?_, hpast, hleads, heffect, ?_⟩
  · rw [← hmore, heq, List.append_assoc]
  · refine hafter.imp_right ?_
    rintro ⟨rest, rfl⟩
    exact ⟨rest ++ more, rfl⟩

theorem Answered.since {past' : List Commit} (h : Answered P origin past source r reply s)
    (hpast : past' <+: past) : Answered P origin past' source r reply s := by
  obtain ⟨earlier, later, before, after, env, heq, hearlier, h⟩ := h
  exact ⟨earlier, later, before, after, env, heq, hpast.trans hearlier, h⟩

/-- The store has answered at a point at which `R` was so. -/
def AnsweredAt (P : Platform) (origin : Tables) (past : List Commit) (source : Source) (r : Request)
    (reply : ClipDaemon.Reply) (R : Daemon F → Prop) (s : Daemon F) : Prop :=
  ∃ u, R u ∧ past <+: u.commits ∧ Answered P origin u.commits source r reply s

theorem AnsweredAt.answered {R : Daemon F → Prop}
    (h : AnsweredAt P origin past source r reply R s) :
    Answered P origin past source r reply s := by
  obtain ⟨u, -, hpast, hanswered⟩ := h
  exact hanswered.since hpast

end Answered

/-! ## The discipline -/

/-- The image of an entry was given to the editor. -/
def Staged (P : Platform) (origin : Tables) (id : Uuid) (staged : AnnotationStage) (s : Daemon F) :
    Prop :=
  ∃ expected stored,
    Answered P origin [] (.request id) (.get staged.opaqueId expected) (.stored stored) s ∧
    stored.summary.kind = .image ∧ stored.summary.revision = staged.revision

/-- The request of an annotation, once the editor has returned a picture. -/
def Edits (P : Platform) (H : Machine F) (staged : AnnotationStage) (r : Request) : Prop :=
  ∃ bytes, P.readerFormat bytes = some "image/png" ∧ H.decodes bytes = true ∧
    r = .replace staged.opaqueId staged.revision "image/png" bytes

/-- The commits lead from the first tables to those of the store, and the leases and stages are
told of them. -/
structure Archived (P : Platform) (H : Machine F) (origin : Tables) (past : List Commit)
    (s : Daemon F) : Prop where
  since : past <+: s.commits
  leads : Leads P origin s.commits s.committed
  settled : s.backend.store.db.Settled
  leases : ∀ id lease, s.authority.edits id = some lease → (id, lease) ∈ s.leases
  stages : ∀ id staged, s.stages id = some staged → Staged P origin id staged s
  operations : ∀ commit ∈ s.commits, ∀ id, commit.source = .operation id →
    ∃ staged, s.stages id = some staged ∧ ∃ r env reply, Edits P H staged r ∧
      r.effect P env commit.before = .ok (reply, commit.after)

/-- What thread `i` finds between two of its statements. -/
structure Proceeds (i : Nat) (s t : Daemon F) : Prop where
  commits : s.commits <+: t.commits
  leases : ∃ more, t.leases = s.leases ++ more ∧ ∀ entry ∈ more, entry.1 ≠ i
  stages : ∀ id staged, s.stages id = some staged → t.stages id = some staged
  own : t.stages i = s.stages i

theorem Proceeds.refl (i : Nat) (s : Daemon F) : Proceeds i s s where
  commits := List.prefix_rfl
  leases := ⟨[], (List.append_nil _).symm, fun _ h => absurd h List.not_mem_nil⟩
  stages _ _ h := h
  own := rfl

theorem Proceeds.trans {i : Nat} {s t u : Daemon F} (h : Proceeds i s t) (h' : Proceeds i t u) :
    Proceeds i s u where
  commits := h.commits.trans h'.commits
  leases := by
    obtain ⟨more, hmore, hothers⟩ := h.leases
    obtain ⟨more', hmore', hothers'⟩ := h'.leases
    refine ⟨more ++ more', by rw [hmore', hmore, List.append_assoc], fun entry hentry => ?_⟩
    exact (List.mem_append.mp hentry).elim (hothers entry) (hothers' entry)
  stages id staged hstaged := h'.stages id staged (h.stages id staged hstaged)
  own := h'.own.trans h.own

/-- No lease and no stage has the number. -/
structure Blank (i : Nat) (s : Daemon F) : Prop where
  leases : ∀ entry ∈ s.leases, entry.1 ≠ i
  stages : s.stages i = none

theorem Blank.proceeds {i : Nat} {s t : Daemon F} (h : Blank i s) (hmove : Proceeds i s t) :
    Blank i t where
  leases entry hentry := by
    obtain ⟨more, hmore, hothers⟩ := hmove.leases
    rw [hmore] at hentry
    exact (List.mem_append.mp hentry).elim (h.leases entry) (hothers entry)
  stages := hmove.own.trans h.stages

/-- Every statement that commits is a request on the tables that the commits lead to. -/
def archive (P : Platform) (H : Machine F) (origin : Tables) (past : List Commit) :
    Discipline (Daemon F) where
  valid := Archived P H origin past
  grows _ _ := True
  rely := Proceeds
  fresh := Blank
  grows_refl _ := trivial
  grows_trans _ _ := trivial
  rely_refl := Proceeds.refl
  rely_trans := Proceeds.trans
  fresh_rely hmove h := h.proceeds hmove

section Archive

variable {P : Platform} {H : Machine F} {origin : Tables} {past : List Commit}
  {rights : Rights} {i j : Nat}
  {owner : Owner} {s t : Daemon F}

/-- What a statement adds to the commits. -/
theorem Turn.commits (h : Turn P rights i owner s t) : s.commits <+: t.commits := by
  rcases h.recorded with ⟨-, hsame⟩ | ⟨source, r, env, reply, -, -, -, hmore⟩
  · exact ⟨[], by rw [hsame, List.append_nil]⟩
  · exact ⟨_, hmore.symm⟩

theorem Turn.proceeds (h : Turn P rights i owner s t) (hstages : t.stages = s.stages)
    (hne : j ≠ i) : Proceeds j s t where
  commits := h.commits
  leases := by
    obtain ⟨more, hmore, hown⟩ := h.leases
    exact ⟨more, hmore, fun entry hentry heq => hne (heq ▸ (hown entry hentry).2)⟩
  stages id staged hstaged := by rw [hstages]; exact hstaged
  own := by rw [hstages]

theorem Turn.still (h : Turn P rights i owner s t) (hrights : ¬rights.stages) :
    t.stages = s.stages :=
  funext fun id => (h.stages id).resolve_right fun hnew => hrights hnew.1

theorem Turn.leads (h : Turn P rights i owner s t) (hs : Leads P origin s.commits s.committed) :
    Leads P origin t.commits t.committed := by
  rcases h.recorded with ⟨hsame, hcommits⟩ | ⟨source, r, env, reply, -, heffect, -, hcommits⟩
  · rw [hsame, hcommits]
    exact hs
  · rw [hcommits]
    exact hs.snoc (show (⟨source, s.committed, t.committed⟩ : Commit).before = s.committed from rfl)
      (Request.effect_change heffect)

theorem Turn.archived (h : Turn P rights i owner s t) (hstages : t.stages = s.stages)
    (hrequests : ∀ id r, rights.requests (.operation id) r →
      ∃ staged, s.stages id = some staged ∧ Edits P H staged r)
    (hs : Archived P H origin past s) : Archived P H origin past t where
  since := hs.since.trans h.commits
  leads := h.leads hs.leads
  settled := h.settled hs.settled
  leases id lease hlease := by
    obtain ⟨more, hmore, -⟩ := h.leases
    rcases h.edits id lease hlease with hold | ⟨-, -, hnew⟩
    · rw [hmore]
      exact List.mem_append_left _ (hs.leases id lease hold)
    · exact hnew
  stages id staged hstaged := by
    rw [hstages] at hstaged
    obtain ⟨expected, stored, hanswered, hkind⟩ := hs.stages id staged hstaged
    exact ⟨expected, stored, hanswered.mono h.commits, hkind⟩
  operations commit hcommit id hsource := by
    rw [hstages]
    rcases h.recorded with ⟨-, hcommits⟩ | ⟨source, r, env, reply, hr, heffect, -, hcommits⟩
    · exact hs.operations commit (hcommits ▸ hcommit) id hsource
    · rw [hcommits] at hcommit
      rcases List.mem_append.mp hcommit with hold | hnew
      · exact hs.operations commit hold id hsource
      · obtain rfl := List.mem_singleton.mp hnew
        cases hsource
        obtain ⟨staged, hstaged, hedits⟩ := hrequests id r hr
        exact ⟨staged, hstaged, r, env, reply, hedits, heffect⟩

theorem Turn.archives (h : Turn P rights i owner s t) (hrights : ¬rights.stages)
    (hrequests : ∀ id r, rights.requests (.operation id) r →
      ∃ staged, s.stages id = some staged ∧ Edits P H staged r)
    (hs : Archived P H origin past s) : (archive P H origin past).Allows i s t :=
  ⟨h.archived (h.still hrights) hrequests hs, trivial,
    fun _ hne => h.proceeds (h.still hrights) hne⟩

/-- Rights that leave leases and annotations alone. -/
structure Rights.Plain (rights : Rights) : Prop where
  leases : ¬rights.leases
  stages : ¬rights.stages
  requests : ∀ id r, ¬rights.requests (.operation id) r

theorem plain_idle : idle.Plain := ⟨id, id, fun _ _ => id⟩

theorem plain_captured {mime : String} {bytes : Bytes} : (captured i mime bytes).Plain :=
  ⟨id, id, fun _ _ h => by cases h.1⟩

theorem plain_admitted : admitted.Plain := ⟨id, id, fun _ _ h => by cases h.1⟩

theorem plain_serving {leases stages governs tokens : Prop} (hleases : ¬leases)
    (hstages : ¬stages) :
    (asking i leases stages governs tokens).Plain := ⟨hleases, hstages, fun _ _ h => by cases h.1⟩

theorem plain_asked {tokens : Prop} : (asking i False False False tokens).Plain :=
  plain_serving id id

/-- A thread finds no more of its own statements than of the others. -/
theorem Turn.proceeds_own (h : Turn P rights i owner s t) (hleases : ¬rights.leases)
    (hstages : ¬rights.stages) : Proceeds i s t where
  commits := h.commits
  leases := by
    obtain ⟨more, hmore, hown⟩ := h.leases
    exact ⟨more, hmore, fun entry hentry => (hleases (hown entry hentry).1).elim⟩
  stages id staged hstaged := by rw [h.still hstages]; exact hstaged
  own := by rw [h.still hstages]

end Archive

/-! ## Rules -/

/-- What does not change between two statements of thread `i`. -/
abbrev Stable (i : Nat) (R : Daemon F → Prop) : Prop := Thread.Stable (Proceeds i) R

/-- The discipline is not about what is idle. -/
def Lenient (P : Platform) (D : Discipline (Daemon F)) : Prop :=
  ∀ {α : Type} (i : Nat) {m : Thread (Daemon F) Chance α},
    (∀ owner, Takes P idle i owner m) → m.Mild D i

section Rules

variable {β ε : Type} {P : Platform} {H : Machine F} {origin : Tables} {past : List Commit}
  {rights : Rights} {i : Nat}
  {owner : Owner} {s : Daemon F} {R : Daemon F → Prop} {T : α → Daemon F → Prop}
  {m : ExceptT ε (Thread (Daemon F) Chance) α}

/-- A program that neither hands out leases nor stages annotations, and is no operation. -/
theorem quiet_of {m : Thread (Daemon F) Chance α} (hplain : rights.Plain)
    (hm : Takes P rights i owner m) : m.Mild (archive P H origin past) i :=
  Thread.mild_of_each hm
    (fun _ _ hvalid h => h.archives hplain.stages
      (fun id r hr => (hplain.requests id r hr).elim) hvalid)
    fun _ _ _ h => h.proceeds_own hplain.leases hplain.stages

theorem quiet {m : Thread (Daemon F) Chance α} (hm : ∀ owner, Takes P idle i owner m) :
    m.Mild (archive P H origin past) i := quiet_of plain_idle (hm none)

theorem quiet_asked {m : Thread (Daemon F) Chance α}
    (hm : ∀ owner, Serving P i False False False True owner m) :
      m.Mild (archive P H origin past) i :=
  quiet_of plain_asked (hm none)

theorem lenient_archive : Lenient P (archive P H origin past) := fun _ _ hm => quiet hm

theorem gives_fromBackend {D : Discipline (Daemon F)} {m : BackendAct F α} (h : Gives D i m T s) :
    Gives D i (fromBackend m) T s := by
  refine Thread.keeps_bind (Thread.Keeps.weaken h fun r u hr => ?_)
  intro a ha
  cases r with
  | ok b =>
      cases ha
      exact hr a rfl
  | error e => cases ha

section Lenient

variable {D : Discipline (Daemon F)} (hD : Lenient P D)
include hD

theorem gives_gated {m : BackendAct F α} (hR : Thread.Stable (D.rely i) R)
    (hT : ∀ a, Thread.Stable (D.rely i) (T a)) (hm : ∀ t, R t → Gives D i m T t) (hs : R s) :
    Gives D i (gated i m) T s :=
  Thread.gives_mildly_held (hD i fun _ => takes_lockGate)
    (hD i fun _ => takes_unlockGate) hR hT hm hs

theorem gives_locked {m : BackendAct F α} (hR : Thread.Stable (D.rely i) R)
    (hT : ∀ a, Thread.Stable (D.rely i) (T a)) (hm : ∀ t, R t → Gives D i m T t) (hs : R s) :
    Gives D i (locked i m) T s :=
  Thread.gives_mildly_held (hD i fun _ => takes_lockTransaction)
    (hD i fun _ => takes_unlockTransaction) hR hT hm hs

theorem gives_transacted {source : Source} {m : Artifacts.Act F α} (hR : Thread.Stable (D.rely i) R)
    (hT : ∀ a, Thread.Stable (D.rely i) (T a)) (hm : ∀ t, R t → Gives D i (onBackend source m) T t)
    (hs : R s) : Gives D i (transacted i source m) T s := by
  refine gives_locked hD hR hT (fun t ht => ?_) hs
  exact Thread.gives_then (hD i fun _ => takes_ensureRunning) hR ht fun _ u hu => hm u hu

end Lenient

theorem onBackend_bind (source : Source) (m : Artifacts.Act F α) (k : α → Artifacts.Act F β) :
    onBackend source (m >>= k) = onBackend source m >>= fun a => onBackend source (k a) := by
  refine ExceptT.ext ?_
  refine (Thread.zoom_bind m.run _).trans ?_
  refine congrArg (Thread.bind _) (funext fun r => ?_)
  cases r with
  | ok a => rfl
  | error e => rfl

end Rules

/-! ## The store -/

section Store

variable {β : Type} {P : Platform} {H : Machine F} {origin : Tables} {past : List Commit} {i : Nat}
  {source : Source}
  {s : Daemon F} {R : Daemon F → Prop} {T : α → Daemon F → Prop}

theorem stable_answered {r : Request} {reply : ClipDaemon.Reply} :
    Stable i (Answered (F := F) P origin past source r reply) := fun _ _ hmove h =>
      h.mono hmove.commits

theorem gives_onBackend_bind {D : Discipline (Daemon F)} {m : Artifacts.Act F α}
    {k : α → Artifacts.Act F β} {T : β → Daemon F → Prop}
    (h : Gives D i (onBackend source m) (fun a u => Gives D i (onBackend source (k a)) T u) s) :
    Gives D i (onBackend source (m >>= k)) T s := by
  rw [onBackend_bind]
  exact gives_bind h

theorem stable_answeredAt {r : Request} {reply : ClipDaemon.Reply} :
    Stable i (AnsweredAt (F := F) P origin past source r reply R) :=
  .ex fun _ => stable_of.and (stable_of.and stable_answered)

/-- What the store answers was so when it did, and what it changed is recorded. -/
theorem gives_request_at {r : Request} (hR : Stable i R)
    (hrights : ∀ t, R t → ∀ id, source = .operation id →
      ∃ staged, t.stages id = some staged ∧ Edits P H staged r) (hs : R s) :
    Gives (archive P H origin past) i (onBackend source (Artifacts.request P H.toHost r))
      (fun reply u => R u ∧ AnsweredAt P origin past source r reply R u) s := by
  have hserves : Artifacts.Serves P (fun r' => r' = r) (Artifacts.request P H.toHost r) :=
    Artifacts.serves_request rfl
  have heach : Takes P (.only fun source' r' => source' = source ∧ r' = r) i none
      (onBackend source (Artifacts.request P H.toHost r)).run :=
    takes_onBackend hserves fun r' h => ⟨rfl, h⟩
  intro t hvalid hmove c answer u hop
  have hturn := heach.1 c t answer u hop
  have ht : R t := hR s t hmove hs
  refine ⟨hturn.archives id (fun id r' h => ?_) hvalid, fun reply hreply => ?_⟩
  · obtain ⟨hsource, rfl⟩ := h
    exact hrights t ht id hsource.symm
  refine ⟨hR t u (hturn.proceeds_own id id) ht, t, ht, hvalid.since, ?_⟩
  obtain ⟨⟨answer', b⟩, hserved, heq⟩ := Option.map_eq_some_iff.mp hop
  cases heq
  cases hreply
  clear hop
  split at hserved
  · cases hserved
  · have heffect := Artifacts.serve_ok hvalid.settled (Option.some.inj hserved)
    by_cases hsame : b.committed = t.backend.committed
    · exact ⟨t.commits, [], _, _, _, by simp [setBackend, hsame], List.prefix_rfl, hvalid.leads,
        heffect, .inl hsame⟩
    · exact ⟨t.commits, _, _, _, _, if_neg hsame, List.prefix_rfl, hvalid.leads, heffect,
        .inr ⟨[], rfl⟩⟩

theorem gives_request {r : Request} (hR : Stable i R)
    (hrights : ∀ t, R t → ∀ id, source = .operation id →
      ∃ staged, t.stages id = some staged ∧ Edits P H staged r) (hs : R s) :
    Gives (archive P H origin past) i (onBackend source (Artifacts.request P H.toHost r))
      (fun reply u => R u ∧ Answered P origin past source r reply u) s :=
  (gives_request_at hR hrights hs).weaken fun _ _ hu => ⟨hu.1, hu.2.answered⟩

theorem gives_ask_at {r : Request} {pick : ClipDaemon.Reply → Option α} (hR : Stable i R)
    (hrights : ∀ t, R t → ∀ id, source = .operation id →
      ∃ staged, t.stages id = some staged ∧ Edits P H staged r) (hs : R s) :
    Gives (archive P H origin past) i (onBackend source (Artifacts.ask P H.toHost r pick))
      (fun a u => R u ∧ ∃ reply, pick reply = some a ∧ AnsweredAt P origin past source r reply R u)
      s := by
  refine gives_onBackend_bind ((gives_request_at hR hrights hs).weaken fun reply u hu => ?_)
  cases hpick : pick reply with
  | none => exact gives_throw _
  | some a => exact gives_pure ⟨hu.1, reply, hpick, hu.2⟩

theorem gives_ask {r : Request} {pick : ClipDaemon.Reply → Option α} (hR : Stable i R)
    (hrights : ∀ t, R t → ∀ id, source = .operation id →
      ∃ staged, t.stages id = some staged ∧ Edits P H staged r) (hs : R s) :
    Gives (archive P H origin past) i (onBackend source (Artifacts.ask P H.toHost r pick))
      (fun a u => R u ∧ ∃ reply, pick reply = some a ∧ Answered P origin past source r reply u) s :=
  (gives_ask_at hR hrights hs).weaken fun _ _ ⟨hu, reply, hpick, hanswered⟩ =>
    ⟨hu, reply, hpick, hanswered.answered⟩

/-- A part that asks the store for nothing. -/
theorem gives_idle {m : Artifacts.Act F α} (hm : Artifacts.Serves P (fun _ => False) m)
    (hR : Stable i R) (hs : R s) :
      Gives (archive P H origin past) i (onBackend source m) (fun _ u => R u) s := by
  have htakes : Takes P idle i none (onBackend source m).run :=
    takes_onBackend hm fun _ h => h.elim
  exact Mild.gives (quiet_of plain_idle htakes) hR hs

theorem gives_read {f : Artifacts.Backend F → α} (hR : Stable i R) (hs : R s) :
    Gives (archive P H origin past) i (onBackend source (Artifacts.read f))
      (fun a u => R u ∧ ∃ b, a = f b) s := by
  have hserves : Artifacts.Serves P (fun _ => False) (Artifacts.read f) := Artifacts.serves_read f
  have heach : Takes P idle i none (onBackend source (Artifacts.read f)).run :=
    takes_onBackend hserves fun _ h => h.elim
  intro t hvalid hmove c answer u hop
  have hturn := heach.1 c t answer u hop
  refine ⟨hturn.archives id (fun id r h => (plain_idle.requests id r h).elim) hvalid, ?_⟩
  rintro a rfl
  refine ⟨hR t u (hturn.proceeds_own id id) (hR s t hmove hs), t.backend, ?_⟩
  obtain ⟨⟨answer', b⟩, hop, heq⟩ := Option.map_eq_some_iff.mp hop
  cases hop
  cases heq
  rfl

/-- A part that only reads, registers files or publishes. -/
theorem gives_aside {m : Artifacts.Act F α} (hm : Artifacts.Serves P (fun r => r.isAside = true) m)
    (hR : Stable i R) (hs : R s) :
    Gives (archive P H origin past) i (onBackend (.request i) m) (fun _ u => R u) s :=
  Mild.gives (quiet_asked fun _ => takes_aside asked_of_aside hm) hR hs

theorem gives_aside_bind {m : Artifacts.Act F α} {k : α → Artifacts.Act F β}
    {T : β → Daemon F → Prop} (hm : Artifacts.Serves P (fun r => r.isAside = true) m)
    (hR : Stable i R) (hs : R s)
    (hk : ∀ a u, R u → Gives (archive P H origin past) i (onBackend (.request i) (k a)) T u) :
    Gives (archive P H origin past) i (onBackend (.request i) (m >>= k)) T s :=
  gives_onBackend_bind ((gives_aside hm hR hs).weaken fun a u hu => hk a u hu)

/-! ### Entries -/

theorem gives_selected (id : String) (expected : Option Nat) (hR : Stable i R) (hs : R s) :
    Gives (archive P H origin past) i
      (onBackend (.request i) (HistoryBackend.selected P H id expected))
      (fun stored u => R u ∧ Answered P origin past (.request i) (.get id expected)
        (.stored stored) u)
      s := by
  refine (gives_ask hR (fun _ _ _ h => by cases h) hs).weaken fun stored u hu => ⟨hu.1, ?_⟩
  obtain ⟨reply, hpick, hanswered⟩ := hu.2
  cases reply with
  | stored entry =>
      cases hpick
      exact hanswered
  | _ => cases hpick

/-- What a read has answered. -/
theorem get_effect {env : Env} {t t' : Tables} {id : String} {expected : Option Nat}
    {stored : Database.StoredEntry}
    (h : (Request.get id expected).effect P env t = .ok (.stored stored, t')) :
    ∃ e, Database.findEntry id t = some e ∧
      (∀ revision, expected = some revision → revision = e.revision) ∧
      stored = ⟨Database.decodeSummary t e, e.mime, t.bytesOf id⟩ ∧ t' = t := by
  have hread : ((Request.get id expected).job P env).eval t = .ok (.stored stored, t') := h
  simp only [Request.job, Request.read, Job.eval] at hread
  cases hbody : Prog.eval (do let a ← Database.get id expected; pure (Reply.stored a)) t with
  | error e =>
      rw [hbody] at hread
      cases hread
  | ok r =>
      rw [hbody] at hread
      obtain ⟨found, t₁, hget, hpure⟩ := Prog.eval_bind_ok.mp hbody
      obtain ⟨e, he, heq⟩ := get_ok hget
      cases heq
      rw [Prog.eval_pure] at hpure
      cases hpure
      cases hread
      refine ⟨e, he, ?_, rfl, rfl⟩
      rw [Database.get] at hget
      obtain ⟨summary, t₁, hsummary, -⟩ := Prog.eval_bind_ok.mp hget
      obtain ⟨e', he', hrevision, -⟩ := Database.summary_ok.mp hsummary
      obtain rfl : e' = e := Option.some.inj (he'.symm.trans he)
      exact hrevision

/-- The entry that a client is shown. -/
def Read (P : Platform) (origin : Tables) (past : List Commit) (i : Nat) (id : String)
    (details : EntryDetails) (s : Daemon F) : Prop :=
  ∃ stored W, Answered P origin past (.request i) (.get id none) (.stored stored) s ∧
    details = entryDetails P W stored MAX_EDIT_BYTES

theorem stable_read {id : String} {details : EntryDetails} :
    Stable i (Read (F := F) P origin past i id details) :=
  .ex fun _ => .ex fun _ => stable_answered.and stable_of

theorem gives_loadDetails (id : String) (revision : Option Nat) (hR : Stable i R) (hs : R s) :
    Gives (archive P H origin past) i (loadDetails P H i id revision)
      (fun details u => R u ∧ Read P origin past i id details u) s := by
  refine gives_bind (gives_result fun _ _ => ?_)
  refine gives_bind (gives_fromBackend (gives_transacted lenient_archive
    (T := fun details u => R u ∧ Read P origin past i id details u) hR (fun _ => hR.and stable_read)
    (fun t ht => ?_) hs) |>.weaken fun details u hu => ?_)
  · refine gives_onBackend_bind ((gives_selected id none hR ht).weaken fun stored u hu => ?_)
    refine (gives_read (hR.and stable_answered) hu).weaken fun details v hv => ⟨hv.1.1, ?_⟩
    obtain ⟨hanswered, b, rfl⟩ := And.intro hv.1.2 hv.2
    exact ⟨stored, _, hanswered, rfl⟩
  · exact gives_bind (gives_result fun _ _ => gives_pure hu)

/-! ### Pages -/

/-- A page is what the store lists at one point. -/
theorem gives_historyPage (query : HistoryQuery) (hR : Stable i R) (hs : R s) :
    Gives (archive P H origin past) i (historyPage P H i query)
      (fun page u => AnsweredAt P origin past (.request i) (.query query) (.page page) R u) s := by
  refine gives_fromBackend (gives_transacted lenient_archive hR (fun _ => stable_answeredAt)
    (fun t ht => ?_) hs)
  refine gives_onBackend_bind ((gives_ask_at hR (fun _ _ _ h => by cases h) ht).weaken
    fun page u hu => ?_)
  obtain ⟨-, reply, hpick, hanswered⟩ := hu
  cases reply with
  | page found =>
      cases hpick
      exact gives_aside_bind (Artifacts.serves_outcome (Artifacts.serves_reconcile fun _ h => h))
        stable_answeredAt hanswered fun _ v hv => gives_pure hv
  | _ => cases hpick

/-- The token is the revision of the tables at one point. -/
theorem gives_changeToken (hR : Stable i R) (hs : R s) :
    Gives (archive P H origin past) i (changeToken P H i)
      (fun token u => ∃ revision, token = UInt64.ofNat revision ∧
        AnsweredAt P origin past (.request i) .revision (.revision revision) R u) s := by
  refine gives_bind ((gives_fromBackend (gives_transacted lenient_archive hR
    (T := fun revision u => AnsweredAt P origin past (.request i) .revision
      (.revision revision) R u)
    (fun _ => stable_answeredAt) (fun t ht => ?_) hs)).weaken
      fun revision u hu => gives_pure ⟨revision, rfl, hu⟩)
  refine (gives_ask_at hR (fun _ _ _ h => by cases h) ht).weaken fun revision u hu => ?_
  obtain ⟨-, reply, hpick, hanswered⟩ := hu
  cases reply with
  | revision found =>
      cases hpick
      exact hanswered
  | _ => cases hpick

/-- The history is the page at the offset that the request names: in cursor mode the offset of its
cursor, which is good for the token, or the start if it has none, and else its own offset. -/
inductive Pages (C : CursorCodec) (params : QueryParams) (owner : Owner) (collapse : Bool)
    (found : HistoryPage) : Nat → History → Prop
  | search {cursor : Cursor} {token elapsed : UInt64} (hmode : params.cursorMode = true)
      (hopened : HistorySearch.openCursor C params owner collapse token elapsed = .ok cursor)
      (hchecked : cursor.check token = .ok ()) :
      Pages C params owner collapse found cursor.offset.toNat
        (.search (HistorySearch.page C found cursor params owner collapse))
  | page (hmode : params.cursorMode = false) :
      Pages C params owner collapse found params.offset (.page found)

theorem gives_searchHistory (params : QueryParams) (owner : Owner) (collapse : Bool)
    (hmode : params.cursorMode = true) (hR : Stable i R) (hs : R s) :
    Gives (archive P H origin past) i (searchHistory P H i params owner collapse)
      (fun history u => ∃ offset found, Pages H.codec params owner collapse found offset
          (.search history) ∧
        AnsweredAt P origin past (.request i) (.query (params.historyQuery offset collapse))
          (.page found) R u) s := by
  have htoken : (changeToken P H i).run.Mild (archive P H origin past) i :=
    quiet_asked fun _ => takes_changeToken asked_of_aside
  refine gives_then (quiet fun _ => takes_look) hR hs fun _ t ht => ?_
  refine gives_then htoken hR ht fun token t ht => ?_
  refine gives_then (quiet fun _ => takes_look) hR ht fun elapsed t ht => ?_
  refine gives_bind (gives_result fun cursor hopened => ?_)
  refine gives_bind (gives_result fun _ hchecked => ?_)
  refine gives_bind ((gives_historyPage _ hR ht).weaken fun found u hu => ?_)
  refine gives_then htoken stable_answeredAt hu fun _ v hv => ?_
  exact gives_bind (gives_result fun _ _ =>
    gives_pure ⟨cursor.offset.toNat, found, .search hmode hopened hchecked, hv⟩)

theorem gives_queryPage (params : QueryParams) (owner : Owner) (collapse : Bool) (hR : Stable i R)
    (hs : R s) :
    Gives (archive P H origin past) i (queryPage P H i params owner collapse)
      (fun history u => ∃ offset found, Pages H.codec params owner collapse found offset history ∧
        AnsweredAt P origin past (.request i) (.query (params.historyQuery offset collapse))
          (.page found) R u) s := by
  rw [queryPage]
  split
  · exact gives_throw _
  split
  · exact gives_throw _
  split
  next hmode =>
    split
    · exact gives_throw _
    · exact gives_bind ((gives_searchHistory params owner collapse hmode hR hs).weaken
        fun found u hu => gives_pure hu)
  next hmode =>
    split
    · exact gives_throw _
    · exact gives_bind ((gives_historyPage _ hR hs).weaken fun found u hu =>
        gives_pure ⟨params.offset, found, .page (Bool.eq_false_of_not_eq_true hmode), hu⟩)

/-- The page is what the store lists at one point, and before it and after it the store had the
token that the answer says. -/
def Listed (P : Platform) (C : CursorCodec) (origin : Tables) (past : List Commit) (i : Nat)
    (owner : Owner) (params : QueryParams) (data : QueryData) (s : Daemon F) : Prop :=
  ∃ collapse offset found before after,
    Pages C params owner collapse found offset data.history ∧
    data.snapshotRevision = UInt64.ofNat before ∧ data.snapshotRevision = UInt64.ofNat after ∧
    AnsweredAt P origin past (.request i) .revision (.revision after)
      (AnsweredAt P origin past (.request i) (.query (params.historyQuery offset collapse))
        (.page found) (Answered P origin past (.request i) .revision (.revision before))) s

theorem stable_listed {C : CursorCodec} {params : QueryParams} {data : QueryData} :
    Stable i (Listed (F := F) P C origin past i owner params data) :=
  .ex fun _ => .ex fun _ => .ex fun _ => .ex fun _ => .ex fun _ =>
    stable_of.and (stable_of.and (stable_of.and stable_answeredAt))

theorem gives_queryLocked (params : QueryParams) (owner : Owner) (collapse : Bool) :
    Gives (archive P H origin past) i (queryLocked P H i params owner collapse)
      (fun answer u => ∃ data, answer = .history data ∧
        Listed P H.codec origin past i owner params data u) s := by
  have hobserve : ∀ token, (observe token : Act F Nat).run.Mild (archive P H origin past) i :=
    fun token => quiet fun _ => takes_observe token
  refine gives_bind ((gives_changeToken (R := fun _ => True) stable_of trivial).weaken
    fun before t ht => ?_)
  obtain ⟨first, rfl, hfirst⟩ := ht
  refine gives_then (hobserve _) stable_answered hfirst.answered fun _ u hu => ?_
  refine gives_bind ((gives_queryPage params owner collapse stable_answered hu).weaken
    fun history v hv => ?_)
  obtain ⟨offset, found, hpages, hpage⟩ := hv
  refine gives_bind ((gives_changeToken stable_answeredAt hpage).weaken fun after w hw => ?_)
  obtain ⟨last, rfl, hlast⟩ := hw
  refine gives_then (hobserve _) stable_answeredAt hlast fun observed x hx => ?_
  split
  · exact gives_throw _
  next hsame =>
    exact gives_pure ⟨_, rfl, collapse, offset, found, first, last, hpages,
      (not_ne_iff.mp hsame).symm, rfl, hx⟩

theorem gives_queryHistory (params : QueryParams) (owner : Owner) :
    Gives (archive P H origin past) i (queryHistory P H i params owner)
      (fun answer u => ∃ data, answer = .history data ∧
        Listed P H.codec origin past i owner params data u) s := by
  refine gives_then (R := fun _ => True) (quiet fun _ => takes_readPreferences) stable_of trivial
    fun preferences t _ => ?_
  exact Thread.gives_mildly_held (quiet fun _ => takes_lockHistory)
    (quiet fun _ => takes_unlockHistory)
    (R := fun _ => True) stable_of (fun _ => .ex fun _ => stable_of.and stable_listed)
    (fun u _ => gives_queryLocked params owner preferences.collapseSelfEchoes) trivial

/-! ### Changes -/

/-- The mutation has found the entry, and changed it. -/
def Mutated (P : Platform) (origin : Tables) (past : List Commit) (i : Nat) (id : String)
    (expected : Option Nat) (mutation : BackendMutation) (s : Daemon F) : Prop :=
  ∀ revision r, expected = some revision → BackendMutation.request id revision mutation = some r →
    ∃ stored reply, Answered P origin past (.request i) (.get id expected) (.stored stored) s ∧
      Answered P origin past (.request i) r reply s

section Changes

variable {id : String} {expected : Option Nat} {mutation : BackendMutation}
  {stored : Database.StoredEntry}

theorem stable_mutated : Stable i (Mutated (F := F) P origin past i id expected mutation) := by
  intro s t hmove h revision r hexpected hr
  obtain ⟨stored, reply, hfound, hchanged⟩ := h revision r hexpected hr
  exact ⟨stored, reply, hfound.mono hmove.commits, hchanged.mono hmove.commits⟩

theorem mutated_of_none (h : ∀ revision, BackendMutation.request id revision mutation = none) :
    Mutated P origin past i id expected mutation s := by
  intro revision r _ hr
  rw [h] at hr
  cases hr

theorem Answered.revision
    (h : Answered P origin past source (.get id expected) (.stored stored) s) :
    ∀ revision, expected = some revision → stored.summary.revision = revision := by
  obtain ⟨_, _, _, _, _, -, -, -, heffect, -⟩ := h
  obtain ⟨e, -, hrevision, rfl, -⟩ := get_effect heffect
  exact fun revision hexpected => (hrevision revision hexpected).symm

theorem gives_changed {r : Request} {answer : OperationResult}
    (hr : BackendMutation.request id stored.summary.revision mutation = some r)
    (hs : Answered P origin past (.request i) (.get id expected) (.stored stored) s) :
    Gives (archive P H origin past) i
      (onBackend (.request i) (do
        let _ ← Artifacts.request P H.toHost r
        pure answer))
      (fun _ u => Mutated P origin past i id expected mutation u) s := by
  refine gives_onBackend_bind ((gives_request stable_answered (fun _ _ _ h => by cases h) hs).weaken
    fun reply u hu => gives_pure fun revision r' hexpected hr' => ?_)
  rw [← hs.revision revision hexpected, hr] at hr'
  cases hr'
  exact ⟨stored, reply, hu⟩

theorem gives_mutateSync (id : String) (expected : Option Nat) (mutation : BackendMutation) :
    Gives (archive P H origin past) i
      (onBackend (.request i) (HistoryBackend.mutateSync P H i id expected mutation))
      (fun _ u => Mutated P origin past i id expected mutation u) s := by
  have hfound : ∀ {t : Daemon F} {answer : OperationResult} {request : Nat → Request},
      (∀ revision, BackendMutation.request id revision mutation = some (request revision)) →
      Gives (archive P H origin past) i (onBackend (.request i) (do
          let stored ← HistoryBackend.selected P H id expected
          let _ ← Artifacts.request P H.toHost (request stored.summary.revision)
          pure answer))
        (fun _ u => Mutated P origin past i id expected mutation u) t := fun hrequest =>
    gives_onBackend_bind ((gives_selected id expected (R := fun _ => True) stable_of trivial).weaken
      fun stored u hu => gives_changed (hrequest _) hu.2)
  refine gives_aside_bind (R := fun _ => True) (Artifacts.serves_result _) stable_of trivial
    fun _ t _ => ?_
  have hother : ∀ {m : Artifacts.Act F OperationResult},
      Artifacts.Serves P HistoryBackend.Ordinary m →
      (∀ revision, BackendMutation.request id revision mutation = none) →
      Gives (archive P H origin past) i (onBackend (.request i) m)
        (fun _ u => Mutated P origin past i id expected mutation u) t := by
    intro m hm hnone
    have htakes : Serving P i False False False False none (onBackend (.request i) m).run :=
      takes_onBackend hm asked_of_ordinary
    exact ((quiet_of plain_asked htakes).gives (R := fun _ => True) stable_of trivial).weaken
      fun _ _ _ => mutated_of_none hnone
  cases mutation with
  | remove => exact hfound fun _ => rfl
  | setFavorite value => exact hfound fun _ => rfl
  | restore maxBytes =>
      exact hother (HistoryBackend.serves_restoreEntry HistoryBackend.ordinary_of_aside _ _ _ _)
        fun _ => rfl
  | imageAsFile maxBytes =>
      exact hother (HistoryBackend.serves_savedImage HistoryBackend.ordinary_of_aside _ _ _ _)
        fun _ => rfl
  | annotate maxBytes => exact gives_throw _
  | wipe => exact hother (HistoryBackend.serves_wipeEntries _) fun _ => rfl
  | cleanup =>
      exact hother (HistoryBackend.serves_cleanupArtifacts HistoryBackend.ordinary_of_aside _)
        fun _ => rfl

end Changes

end Store

/-! ## Annotations -/

section Annotations

variable {P : Platform} {H : Machine F} {origin : Tables} {past : List Commit} {i : Nat}
  {owner : Owner}
  {s t : Daemon F} {R : Daemon F → Prop}

theorem stable_staged {id : Uuid} {staged : AnnotationStage} :
    Stable i (Staged (F := F) P origin id staged) :=
  .ex fun _ => .ex fun _ => stable_answered.and stable_of

theorem stable_unstaged : Stable i fun s : Daemon F => s.stages i = none :=
  fun _ _ hmove h => hmove.own.trans h

theorem Annotate.gives_staged (id : String) (expected : Option Nat) (maxBytes : Nat)
    (hR : Stable i R) (hs : R s) :
    Gives (archive P H origin past) i
      (onBackend (.request i) (HistoryBackend.Annotate.stage P H id expected maxBytes))
      (fun staged u => R u ∧ Staged P origin i staged u) s := by
  have himage : Gives (archive P H origin past) i
      (onBackend (.request i) (HistoryBackend.selectedImage P H id expected
        (min maxBytes MAX_THUMBNAIL_BYTES)))
      (fun stored u => R u ∧ Answered P origin past (.request i) (.get id expected)
        (.stored stored) u ∧
        stored.summary.kind = .image) s := by
    refine gives_onBackend_bind (gives_onBackend_bind ((gives_selected id expected hR hs).weaken
      fun stored u hu => ?_))
    refine gives_aside_bind (Artifacts.serves_result _) (hR.and stable_answered) hu fun _ v hv => ?_
    refine gives_pure ?_
    split
    next hkind => exact gives_pure ⟨hv.1, hv.2, hkind⟩
    · exact gives_throw _
  refine gives_onBackend_bind (himage.weaken fun stored u hu => ?_)
  have hstable : Stable i fun u : Daemon F => R u ∧
      Answered P origin past (.request i) (.get id expected) (.stored stored) u ∧
        stored.summary.kind = .image := hR.and (stable_answered.and stable_of)
  refine gives_aside_bind (HistoryBackend.serves_annotatedImage _ _) hstable hu fun image v hv => ?_
  refine gives_aside_bind (HistoryBackend.serves_runtimeDirectory _) hstable hv fun _ v hv => ?_
  refine gives_aside_bind (Artifacts.serves_uniquePath _ _) hstable hv fun input v hv => ?_
  refine gives_aside_bind (Artifacts.serves_uniquePath _ _) hstable hv fun output v hv => ?_
  refine gives_aside_bind (Artifacts.serves_writePrivate _ _) hstable hv fun _ v hv => ?_
  exact gives_pure ⟨hv.1, expected, stored, hv.2.1.since List.nil_prefix, hv.2.2, rfl⟩

/-- A number is staged once. -/
theorem gives_stage (staged : AnnotationStage)
    (hs : s.stages i = none ∧ Staged P origin i staged s) :
    Gives (archive P H origin past) i (stage i staged : BackendAct F Unit) (fun _ _ => True) s := by
  refine Thread.keeps_attempt fun t hvalid hmove c r u hop => ⟨?_, fun _ _ => trivial⟩
  cases hop
  have hnone : t.stages i = none := stable_unstaged s t hmove hs.1
  have hstaged : Staged P origin i staged t := stable_staged s t hmove hs.2
  have hother : ∀ {id old}, t.stages id = some old →
      Function.update t.stages i (some staged) id = some old := by
    intro id old hold
    refine (Function.update_of_ne ?_ _ _).trans hold
    rintro rfl
    rw [hnone] at hold
    cases hold
  refine ⟨⟨hvalid.since, hvalid.leads, hvalid.settled, hvalid.leases, fun id new hnew => ?_,
    fun commit hcommit id hsource => ?_⟩, trivial, fun j hne =>
    ⟨List.prefix_rfl, ⟨[], (List.append_nil _).symm, fun _ h => absurd h List.not_mem_nil⟩,
      fun _ _ => hother, Function.update_of_ne hne _ _⟩⟩
  · have hnew : Function.update t.stages i (some staged) id = some new := hnew
    rcases eq_or_ne id i with rfl | hne
    · rw [Function.update_self] at hnew
      cases hnew
      exact hstaged
    · rw [Function.update_of_ne hne] at hnew
      exact hvalid.stages id new hnew
  · obtain ⟨old, hold, hedits⟩ := hvalid.operations commit hcommit id hsource
    exact ⟨old, hother hold, hedits⟩

theorem Annotate.gives_launch (staged : AnnotationStage)
    (hs : s.stages i = none ∧ Staged P origin i staged s) :
    Gives (archive P H origin past) i (Annotate.launch i staged : BackendAct F OperationResult)
      (fun _ _ => True)
      s := by
  refine gives_bind ((gives_stage staged hs).weaken fun _ t _ => ?_)
  exact gives_then (quiet fun _ => takes_lift (takes_onJobs _)) stable_of trivial
    fun _ _ _ => gives_result fun _ _ => trivial

theorem gives_mutateGated (id : String) (expected : Option Nat) (mutation : BackendMutation)
    (hs : s.stages i = none) :
    Gives (archive P H origin past) i (mutateGated P H i id expected mutation)
      (fun _ u => Mutated P origin past i id expected mutation u) s := by
  by_cases hstages : mutation.Stages
  · cases mutation with
    | annotate maxBytes =>
        refine gives_bind (gives_transacted lenient_archive
          (T := fun staged u => u.stages i = none ∧ Staged P origin i staged u) stable_unstaged
          (fun _ => stable_unstaged.and stable_staged)
          (fun t ht => Annotate.gives_staged id expected maxBytes stable_unstaged ht) hs
          |>.weaken fun staged t ht => (Annotate.gives_launch staged ht).weaken
            fun _ _ _ => mutated_of_none fun _ => rfl)
    | _ => exact hstages.elim
  · have hsync : Gives (archive P H origin past) i
        (transacted i (.request i) (HistoryBackend.mutateSync P H i id expected mutation))
        (fun _ u => Mutated P origin past i id expected mutation u) s :=
      gives_transacted lenient_archive (R := fun _ => True) stable_of (fun _ => stable_mutated)
        (fun t _ => gives_mutateSync id expected mutation) trivial
    cases mutation with
    | annotate maxBytes => exact (hstages trivial).elim
    | _ => exact hsync

theorem gives_mutate (id : String) (expected : Option Nat) (mutation : BackendMutation)
    (hs : s.stages i = none) :
    Gives (archive P H origin past) i (mutate P H i id expected mutation)
      (fun _ u => Mutated P origin past i id expected mutation u) s := by
  refine gives_bind (gives_result fun _ _ => ?_)
  refine gives_gated lenient_archive stable_unstaged (fun _ => stable_mutated) (fun t ht => ?_) hs
  split
  · exact gives_then (quiet fun _ => takes_lift (takes_onJobs _)) stable_unstaged ht
      fun _ u hu => gives_mutateGated id expected mutation hu
  · exact gives_mutateGated id expected mutation ht

/-- The action has changed the entry, if that is what it is for. -/
def Acted (P : Platform) (origin : Tables) (past : List Commit) (i : Nat)
    (params : Authority.ActionParams)
    (s : Daemon F) : Prop :=
  ∀ maxBytes mutation, BackendMutation.forAction params.action maxBytes = some mutation →
    Mutated P origin past i params.entryId (some params.revision) mutation s

theorem stable_acted {params : Authority.ActionParams} :
    Stable i (Acted (F := F) P origin past i params) :=
  fun _ _ hmove h maxBytes mutation hm => stable_mutated _ _ hmove (h maxBytes mutation hm)

theorem acted_of {params : Authority.ActionParams} {maxBytes : Nat} {mutation : BackendMutation}
    (hm : requiredMutation params.action maxBytes = .ok mutation)
    (h : Mutated P origin past i params.entryId (some params.revision) mutation s) :
    Acted P origin past i params s := by
  have hfound : BackendMutation.forAction params.action maxBytes = some mutation := by
    unfold requiredMutation at hm
    split at hm
    next found hfound => rw [hfound, Except.ok.inj hm]
    · cases hm
  intro maxBytes' mutation' hm' revision r hexpected hr
  exact h revision r hexpected ((BackendMutation.request_forAction hfound hm').trans hr)

theorem gives_action (params : Authority.ActionParams) (maxBytes : Nat) (hs : s.stages i = none) :
    Gives (archive P H origin past) i (action P H i params maxBytes owner)
      (fun _ u => Acted P origin past i params u) s := by
  refine gives_then (quiet_asked fun _ => takes_loadDetails asked_of_aside _ _) stable_unstaged hs
    fun details t ht => ?_
  refine gives_bind (gives_result fun _ _ => ?_)
  rw [executeAction]
  split
  next hlaunch =>
    refine gives_then (quiet fun _ => takes_launchAction _ _) stable_of trivial fun _ u _ =>
      gives_pure fun maxBytes mutation hm => ?_
    simp only [List.mem_cons, List.not_mem_nil, or_false] at hlaunch
    rcases hlaunch with h | h | h <;> rw [h] at hm <;> cases hm
  · split
    · rw [paste]
      split
      · exact gives_throw _
      next session _ =>
        refine gives_then
          (quiet_of plain_idle (takes_onAuthority trivial (Authority.local_validatePaste session)))
          stable_unstaged ht fun target u hu => ?_
        refine gives_bind (gives_result fun mutation hm => ?_)
        refine gives_bind
          ((gives_fromBackend (gives_mutate _ _ mutation hu)).weaken fun _ v hv => ?_)
        exact gives_then (quiet_of plain_idle (takes_armTarget trivial _ _)) stable_acted
          (acted_of hm hv)
          fun _ _ hw => gives_pure hw
    · refine gives_bind (gives_result fun mutation hm => ?_)
      exact gives_bind ((gives_fromBackend (gives_mutate _ _ mutation ht)).weaken
        fun _ _ hv => gives_pure (acted_of hm hv))

/-- What the editor has written is used only if it is a picture. -/
theorem readEditedImage_some {W : World} {path : FilePath} {maxBytes : Nat} {bytes : Bytes}
    (h : HistoryBackend.readEditedImage P H W path maxBytes = some bytes) :
    P.readerFormat bytes = some "image/png" ∧ H.decodes bytes = true := by
  unfold HistoryBackend.readEditedImage at h
  obtain ⟨metadata, -, h⟩ := Option.bind_eq_some_iff.mp h
  split at h
  · obtain ⟨read, -, h⟩ := Option.bind_eq_some_iff.mp h
    split at h
    next himage =>
      cases h
      simpa using himage
    · cases h
  · cases h

theorem stable_stages {id : Uuid} {staged : AnnotationStage} :
    Stable i fun s : Daemon F => s.stages id = some staged :=
  fun _ _ hmove h => hmove.stages id staged h

theorem Annotate.gives_apply {id : Uuid} {staged : AnnotationStage}
    (hs : s.stages id = some staged) :
    Gives (archive P H origin past) i (onBackend (.operation id) (HistoryBackend.Annotate.apply P H
      staged.opaqueId staged.revision staged.output staged.maxBytes)) (fun _ _ => True) s := by
  refine gives_onBackend_bind ((gives_read stable_stages hs).weaken fun edited t ht => ?_)
  cases edited with
  | none => exact gives_throw _
  | some bytes =>
      obtain ⟨hstaged, b, hread⟩ := ht
      obtain ⟨hformat, hdecodes⟩ := readEditedImage_some hread.symm
      have hedits : ∀ u : Daemon F, u.stages id = some staged →
          ∀ id', Source.operation id = .operation id' →
          ∃ staged', u.stages id' = some staged' ∧
            Edits P H staged' (.replace staged.opaqueId staged.revision "image/png" bytes) := by
        rintro u hu id' hid
        cases hid
        exact ⟨staged, hu, bytes, hformat, hdecodes, rfl⟩
      refine gives_onBackend_bind
        ((gives_request stable_stages hedits hstaged).weaken fun reply u _ => ?_)
      refine gives_idle (R := fun _ => True) ?_ stable_of trivial
      refine Artifacts.serves_bind (Artifacts.serves_outcome ?_) fun r => ?_
      · exact Artifacts.serves_bind (HistoryBackend.serves_publishBytes _ _ _) fun _ =>
          Artifacts.serves_clearActive
      · cases r <;> exact Artifacts.serves_pure _

theorem Annotate.gives_run {id : Uuid} {staged : AnnotationStage} (hs : s.stages id = some staged) :
    Gives (archive P H origin past) i (Annotate.run P H i id staged) (fun _ _ => True) s := by
  refine gives_then (quiet fun _ => takes_look) stable_stages hs fun _ t ht => ?_
  refine gives_then (quiet fun _ => takes_beginCommit id) stable_stages ht
    fun began u hu => ?_
  split
  · exact gives_locked lenient_archive stable_stages (fun _ => stable_of)
      (fun v hv => Annotate.gives_apply hv) hu
  · exact gives_throw _

theorem keeps_startWork (id : Uuid) :
    (startWork i id : Work F (Option AnnotationStage)).Keeps (archive P H origin past) i
      (fun found u => ∀ staged, found = some staged → u.stages id = some staged) s := by
  refine Thread.keeps_atomic fun t hvalid _ c found u hop => ?_
  have hturn : Turn P idle i none t u := (takes_startWork id).1 c t found u hop
  refine ⟨hturn.archives (fun h => h) (fun id r h => (plain_idle.requests id r h).elim) hvalid, ?_⟩
  rintro staged rfl
  split at hop
  next hstaged =>
    split at hop
    · obtain ⟨backend, -, heq⟩ := Option.map_eq_some_iff.mp hop
      cases heq
    · obtain ⟨backend, -, heq⟩ := Option.map_eq_some_iff.mp hop
      cases heq
      exact hstaged
  · cases hop

theorem Annotate.keeps_complete (id : Uuid) :
    (Annotate.complete P H i id).Keeps (archive P H origin past) i (fun _ _ => True) s := by
  refine Thread.keeps_bind ((keeps_startWork id).weaken fun found t ht => ?_)
  cases found with
  | none => trivial
  | some staged =>
      refine Thread.keeps_bind ((Mild.keeps (quiet fun _ => takes_aborted id)
        stable_stages (ht staged rfl)).weaken fun struck u hu => ?_)
      split
      · trivial
      · refine Thread.keeps_bind (Thread.Keeps.weaken (Annotate.gives_run hu) fun worked v _ => ?_)
        have hpoll : Takes P idle i none (do
            pollTask id (.finish worked)
            pollTask id .next
            pollTask id .next
            pollTask id .next
            return .ok .none : Work F Reply) := by
          refine takes_bind (takes_pollTask _ _) fun _ => ?_
          refine takes_bind (takes_pollTask _ _) fun _ => ?_
          refine takes_bind (takes_pollTask _ _) fun _ => ?_
          exact takes_bind (takes_pollTask _ _) fun _ => takes_pure _
        exact Mild.keeps (quiet_of plain_idle hpoll) stable_of trivial

end Annotations

/-! ## Edits -/

/-- The lease that was handed out is on what the client was shown. -/
def Shown (P : Platform) (origin : Tables) (past : List Commit) (i : Nat) (id : Uuid)
    (entryId : String) (revision : Nat)
    (mime value : String) (s : Daemon F) : Prop :=
  id = i ∧
  (∀ lease, (i, lease) ∈ s.leases →
    lease.entryId = entryId ∧ lease.revision = revision ∧ lease.mime = mime) ∧
  ∃ queried stored, Answered P origin past (.request i) (.get queried none) (.stored stored) s ∧
    stored.summary.id = entryId ∧ stored.summary.revision = revision ∧
    stored.summary.mime = mime ∧ fromUtf8 stored.bytes = some value

/-- The lease that was redeemed names what was replaced. -/
def Saved (P : Platform) (origin : Tables) (past : List Commit) (i : Nat)
    (params : EditCommitParams) (s : Daemon F) :
    Prop :=
  ∃ lease, (params.editId, lease) ∈ s.leases ∧ ∃ reply, Answered P origin past (.request i)
    (.replace lease.entryId lease.revision lease.mime (asBytes params.value)) reply s

section Edits

variable {P : Platform} {H : Machine F} {origin : Tables} {past : List Commit} {i : Nat}
  {owner : Owner}
  {s t : Daemon F} {R : Daemon F → Prop}

theorem stable_unleased : Stable i fun s : Daemon F => ∀ entry ∈ s.leases, entry.1 ≠ i := by
  intro s t hmove h entry hentry
  obtain ⟨more, hmore, hothers⟩ := hmove.leases
  rw [hmore] at hentry
  exact (List.mem_append.mp hentry).elim (h entry) (hothers entry)

theorem stable_leased {id : Uuid} {lease : EditLease} :
    Stable i fun s : Daemon F => (id, lease) ∈ s.leases := by
  intro s t hmove h
  obtain ⟨more, hmore, -⟩ := hmove.leases
  rw [hmore]
  exact List.mem_append_left _ h

theorem stable_shown {id : Uuid} {entryId mime value : String} {revision : Nat} :
    Stable i (Shown (F := F) P origin past i id entryId revision mime value) := by
  rintro s t hmove ⟨hid, hlease, queried, stored, hanswered, hstored⟩
  refine ⟨hid, fun lease hmem => hlease lease ?_, queried, stored,
    hanswered.mono hmove.commits, hstored⟩
  obtain ⟨more, hmore, hothers⟩ := hmove.leases
  rw [hmore] at hmem
  exact (List.mem_append.mp hmem).resolve_right fun hnew => hothers _ hnew rfl

theorem stable_saved {params : EditCommitParams} :
    Stable i (Saved (F := F) P origin past i params) :=
  .ex fun _ => stable_leased.and (.ex fun _ => stable_answered)

/-- An editable value is the whole text of the entry. -/
theorem editableValue_ok {W : World} {stored : Database.StoredEntry} {value : String}
    (h : editableValue (entryDetails P W stored MAX_EDIT_BYTES) = .ok value) :
    fromUtf8 stored.bytes = some value := by
  unfold editableValue at h
  split at h
  · cases h
  next hwhole =>
    simp only [entryDetails, Bool.or_eq_true, decide_eq_true_eq, not_or, not_lt] at hwhole h
    rw [List.take_of_length_le hwhole.2] at h
    split at h
    · cases h
    next found hfound =>
      split at h
      · cases h
        exact hfound
      · cases h

theorem gives_issueLease (details : EntryDetails) (value : String) {queried : String}
    (hs : (∀ entry ∈ s.leases, entry.1 ≠ i) ∧ Read P origin past i queried details s)
    (hvalue : editableValue details = .ok value) :
    Gives (archive P H origin past) i (issueLease i owner details value : Act F Authority.Answer)
      (fun answer u => ∀ id entryId revision mime value',
        answer = .edit id entryId revision mime value' →
        Shown P origin past i id entryId revision mime value' u) s := by
  have htakes : Serving P i True False False True owner
      (issueLease i owner details value : Act F Authority.Answer).run :=
        takes_issueLease trivial trivial _ _
  refine Thread.keeps_attempt fun t hvalid hmove c r u hop => ?_
  have hturn := htakes.1 c t r u hop
  refine ⟨hturn.archives (fun h => h) (fun id r h => by cases h.1) hvalid, ?_⟩
  rintro answer rfl id entryId revision mime value' rfl
  have hunleased := stable_unleased s t hmove hs.1
  obtain ⟨stored, W, hanswered, rfl⟩ := stable_read s t hmove hs.2
  cases hop
  refine ⟨rfl, fun lease hlease => ?_, queried, stored, hanswered, rfl, rfl, rfl,
    editableValue_ok hvalue⟩
  rcases List.mem_append.mp hlease with hold | hnew
  · exact absurd rfl (hunleased _ hold)
  · cases List.mem_singleton.mp hnew
    exact ⟨rfl, rfl, rfl⟩

theorem gives_beginEdit (params : EntryParams) (hs : ∀ entry ∈ s.leases, entry.1 ≠ i) :
    Gives (archive P H origin past) i (beginEdit P H i params owner)
      (fun answer u => ∀ id entryId revision mime value,
        answer = .authority (.edit id entryId revision mime value) →
        Shown P origin past i id entryId revision mime value u) s := by
  refine gives_bind ((gives_loadDetails _ _ stable_unleased hs).weaken fun details t ht => ?_)
  refine gives_bind (gives_result fun value hvalue => ?_)
  refine gives_bind ((gives_issueLease details value ht hvalue).weaken fun answer u hu => ?_)
  refine gives_pure fun id entryId revision mime value' hanswer => ?_
  cases hanswer
  exact hu _ _ _ _ _ rfl

/-- The lease that is redeemed was handed out under its number. -/
theorem keeps_redeemEdit {D : Discipline (Daemon F)} {id : Uuid}
    (hD : (onAuthority (Authority.redeemEdit i id owner) : Act F EditLease).run.Mild D i)
    (hlent : ∀ t, D.valid t →
      ∀ id lease, t.authority.edits id = some lease → (id, lease) ∈ t.leases)
    (hR : Thread.Stable (D.rely i) R) (hs : R s) :
    (onAuthority (Authority.redeemEdit i id owner) : Act F EditLease).run.Keeps D i
      (fun r u => R u ∧ ∀ lease, r = .ok lease → (id, lease) ∈ u.leases) s := by
  have hkeeps := hD.keeps hR hs
  intro t hvalid hmove c answer u hop
  obtain ⟨hallows, hu⟩ := hkeeps t hvalid hmove c answer u hop
  refine ⟨hallows, hu, ?_⟩
  rintro lease rfl
  obtain ⟨⟨answer', authority⟩, hop', heq⟩ := Option.map_eq_some_iff.mp hop
  cases heq
  clear hop
  dsimp only at hop'
  split at hop'
  next found edits hfound =>
    cases hop'
    exact hlent t hvalid id lease (Tokens.redeem_some (congrArg Prod.fst hfound)).1
  · cases hop'

theorem gives_redeemEdit (id : Uuid) :
    Gives (archive P H origin past) i (onAuthority (Authority.redeemEdit i id owner))
      (fun lease u => (id, lease) ∈ u.leases) s :=
  Thread.Keeps.weaken (keeps_redeemEdit (R := fun _ => True)
    (quiet_of plain_idle (takes_onAuthority trivial (Authority.local_redeemEdit _)))
    (fun _ hvalid => hvalid.leases) stable_of trivial) fun _ _ h => h.2

theorem gives_replaceLeased {id : Uuid} (lease : EditLease) (value : String) (maxBytes : Nat)
    (hs : (id, lease) ∈ s.leases) :
    Gives (archive P H origin past) i (replaceLeased P H i lease value maxBytes)
      (fun _ u => (id, lease) ∈ u.leases ∧ ∃ reply, Answered P origin past (.request i)
        (.replace lease.entryId lease.revision lease.mime (asBytes value)) reply u) s := by
  refine gives_then (quiet fun _ => takes_onAuthority trivial (Authority.local_unexpired _ _))
    stable_leased hs fun _ t ht => ?_
  split
  · exact gives_throw _
  refine gives_then (quiet_asked fun _ => takes_fromBackend (takes_transacted_aside asked_of_aside
    (HistoryBackend.serves_revisionSync (fun _ h => h) _))) stable_leased ht fun revision u hu => ?_
  refine gives_bind (gives_result fun _ _ => ?_)
  have hstable : Stable i fun u : Daemon F => (id, lease) ∈ u.leases ∧ ∃ reply,
      Answered P origin past (.request i)
        (.replace lease.entryId lease.revision lease.mime (asBytes value)) reply u :=
    stable_leased.and (.ex fun _ => stable_answered)
  refine gives_fromBackend
    (gives_transacted lenient_archive stable_leased (fun _ => hstable) (fun v hv => ?_) hu)
  refine gives_onBackend_bind ((gives_ask stable_leased (fun _ _ _ h => by cases h) hv).weaken
    fun summary w hw => ?_)
  obtain ⟨hleased, reply, -, hanswered⟩ := hw
  refine gives_aside_bind (Artifacts.serves_read _) hstable ⟨hleased, reply, hanswered⟩
    fun details x hx => ?_
  refine gives_aside ?_ hstable hx
  refine Artifacts.serves_bind (Artifacts.serves_outcome
    (HistoryBackend.serves_restoreEntry (fun _ h => h) _ _ _ _)) fun r => ?_
  cases r <;> exact Artifacts.serves_pure _

theorem gives_commitEdit (params : EditCommitParams) (maxBytes : Nat) :
    Gives (archive P H origin past) i (commitEdit P H i params maxBytes owner)
      (fun _ u => Saved P origin past i params u)
      s := by
  refine gives_then
    (quiet_of plain_idle (takes_onAuthority trivial (Authority.local_validateSession _))) stable_of
    trivial fun target t _ => ?_
  refine gives_bind ((gives_redeemEdit params.editId).weaken fun lease u hu => ?_)
  refine gives_bind ((gives_replaceLeased lease params.value maxBytes hu).weaken
    fun replacement v hv => ?_)
  exact gives_then
    (quiet_of plain_idle (takes_onAuthority trivial (Authority.local_prepareSession _ _)))
    stable_saved ⟨lease, hv⟩ fun paste w hw => gives_pure hw

end Edits

/-! ## Calls -/

/-- What an answer to the owner says of the tables. -/
def Method.Tells (P : Platform) (C : CursorCodec) (origin : Tables) (past : List Commit) (i : Nat)
    (owner : Owner) : Method → Answer → Daemon F → Prop
  | .editBegin _, .authority (.edit id entryId revision mime value) =>
      Shown P origin past i id entryId revision mime value
  | .editCommit params, .replaced _ _ => Saved P origin past i params
  | .query params, .history data => Listed P C origin past i owner params data
  | .details params, .entry entry => Read P origin past i params.entryId entry
  | .deleteEntries targets, .operation _ =>
      fun s => ∃ reply, Answered P origin past (.request i) (.removeMany targets) reply s
  | .entryAction params, .operation _ => Acted P origin past i params
  | _, _ => fun _ => True

/-- What is so of a call that has returned. -/
def Told (P : Platform) (C : CursorCodec) (origin : Tables) (past : List Commit) (i : Nat) :
    Call F → Reply → Daemon F → Prop
  | .request client reserves method, .ok answer =>
      method.Tells P C origin past i (Call.request (F := F) client reserves method).owner answer
  | _, _ => fun _ => True

section Calls

variable {P : Platform} {H : Machine F} {origin : Tables} {past : List Commit} {i : Nat}
  {owner : Owner}
  {s t : Daemon F} {R : Daemon F → Prop}

theorem stable_tells {C : CursorCodec} (method : Method) (answer : Answer) :
    Stable i (method.Tells (F := F) P C origin past i owner answer) := by
  unfold Method.Tells
  split
  · exact stable_shown
  · exact stable_saved
  · exact stable_listed
  · exact stable_read
  · exact .ex fun _ => stable_answered
  · exact stable_acted
  · exact stable_of

theorem stable_told {C : CursorCodec} (call : Call F) (reply : Reply) :
    Stable i (Told P C origin past i call reply) := by
  unfold Told
  split
  · exact stable_tells _ _
  · exact stable_of

section Lenient

variable {D : Discipline (Daemon F)} (hD : Lenient P D)
include hD

/-- What a reply says is not what the book of the operations answers. -/
theorem keeps_dispatchOwned {T : Reply → Daemon F → Prop} {reserves : Bool} {method : Method}
    (hT : ∀ r, Thread.Stable (D.rely i) (T r)) (herror : ∀ e u, T (.error e) u)
    (hstatus : ∀ operation revision u, T (.ok (.status operation revision)) u)
    (hR : Thread.Stable (D.rely i) R)
    (hmethod : ∀ t, R t → Gives D i (dispatchMethod P H i method owner) (fun a u => T (.ok a) u) t)
    (hs : R s) : (dispatchOwned P H i reserves method owner).Keeps D i T s := by
  have hjobs : ∀ {α : Type} (m : Jobs.Work α), (onJobs m : Work F α).Mild D i :=
    fun m => hD i fun _ => takes_onJobs m
  have hlift : ∀ {α : Type} (m : Jobs.Work α), (ExceptT.lift (onJobs m) : Act F α).run.Mild D i :=
    fun m => hD i fun _ => takes_lift (takes_onJobs m)
  have hreserved : ∀ t, R t → (dispatchReserved P H i method owner).run.Keeps D i T t := by
    refine fun t ht => Thread.keeps_run_bind (Thread.Keeps.weaken (hmethod t ht) fun r u hr => ?_)
    cases r with
    | error e => exact herror e u
    | ok answer =>
        have htrack : T (.ok answer) u := hr answer rfl
        cases answer with
        | operation operation =>
            unfold track
            dsimp only
            split
            · refine Thread.keeps_run_bind
                (((hlift _).keeps stable_of trivial).weaken fun tracked v _ => ?_)
              cases tracked with
              | error e => exact herror e v
              | ok _ =>
                  refine Thread.keeps_run_bind (((hlift _).keeps stable_of trivial).weaken
                    fun status w _ => ?_)
                  cases status with
                  | error e => exact herror e w
                  | ok status =>
                      cases status with
                      | error e => exact herror e w
                      | ok found => exact hstatus _ _ w
            · exact htrack
        | _ => exact htrack
  refine Thread.keeps_bind (((hjobs _).keeps hR hs).weaken fun _ t ht => ?_)
  split
  · refine Thread.keeps_bind (((hjobs _).keeps hR ht).weaken fun reserved u hu => ?_)
    cases reserved with
    | error e => exact herror e u
    | ok _ =>
        refine Thread.keeps_bind ((hreserved u hu).weaken fun reply v hv => ?_)
        exact Thread.keeps_bind (((hjobs _).keeps (hT reply) hv).weaken fun _ w hw => hw)
  · exact hreserved t ht

theorem keeps_callerDispatch' {T : Reply → Daemon F → Prop} {transport : Transport}
    {reserves : Bool}
    {method : Method} {name : String} (hT : ∀ r, Thread.Stable (D.rely i) (T r))
    (herror : ∀ e u, T (.error e) u) (hR : Thread.Stable (D.rely i) R)
    (hdispatch : ∀ t, R t →
      (dispatchOwned P H i reserves method (some name)).Keeps D i T t) (hs : R s) :
    (callerDispatch P H i transport reserves method name).Keeps D i T s := by
  have hrelease : (releaseOwner i name : Act F Unit).run.Mild D i :=
    hD i fun _ => takes_releaseOwner name
  have halive : (alive transport name : Work F Bool).Mild D i := hD i fun _ => takes_alive _ _
  refine Thread.keeps_bind ((halive.keeps hR hs).weaken fun there t ht => ?_)
  split
  · refine Thread.keeps_bind ((hdispatch t ht).weaken fun reply u hu => ?_)
    refine Thread.keeps_bind ((halive.keeps (hT reply) hu).weaken fun there v hv => ?_)
    dsimp only
    split
    · exact Thread.keeps_bind ((hrelease.keeps (hT reply) hv).weaken fun _ w hw => hw)
    · exact hv
  · dsimp only
    split
    · exact Thread.keeps_bind ((hrelease.keeps stable_of trivial).weaken fun _ u _ => herror _ u)
    · exact herror _ t

theorem gives_dispatchEntry {T : Answer → Daemon F → Prop} {m : Nat → Act F Answer}
    (hR : Thread.Stable (D.rely i) R) (hm : ∀ maxBytes t, R t → Gives D i (m maxBytes) T t)
    (hs : R s) : Gives D i (dispatchEntry m) T s := by
  refine gives_then (hD i fun _ => takes_onAuthority trivial Authority.each_maxEntryBytes) hR
    hs fun maxBytes t ht => ?_
  exact gives_then (hD i fun _ => takes_onAuthority trivial Authority.local_purgeEdits) hR ht
    fun _ u hu => hm maxBytes u hu

end Lenient

theorem quiet_method {method : Method} (hleases : ¬method.Leases) (hstages : ¬method.Stages) :
    (dispatchMethod P H i method owner).run.Mild (archive P H origin past) i :=
  quiet_of (plain_serving hleases hstages) (serving_dispatchMethod method)

theorem gives_dispatchMethod (method : Method) (hs : Blank i s) :
    Gives (archive P H origin past) i (dispatchMethod P H i method owner)
      (fun a u => method.Tells P H.codec origin past i owner a u) s := by
  cases method with
  | entryAction params =>
      refine (gives_dispatchEntry lenient_archive stable_unstaged
        (fun maxBytes t ht => gives_action params maxBytes ht) hs.stages).weaken fun a u hu => ?_
      cases a with
      | operation operation => exact hu
      | _ => trivial
  | editBegin params =>
      refine (gives_dispatchEntry lenient_archive stable_unleased
        (fun maxBytes t ht => gives_beginEdit params ht) hs.leases).weaken fun a u hu => ?_
      cases a with
      | authority answer =>
          cases answer with
          | edit id entryId revision mime value => exact hu _ _ _ _ _ rfl
          | _ => trivial
      | _ => trivial
  | editCommit params =>
      refine (gives_dispatchEntry lenient_archive stable_of
        (fun maxBytes t _ => gives_commitEdit params maxBytes) trivial).weaken fun a u hu => ?_
      cases a with
      | replaced replacement paste => exact hu
      | _ => trivial
  | details params =>
      refine gives_bind ((gives_loadDetails (R := fun _ => True) _ _ stable_of trivial).weaken
        fun details u hu => gives_pure hu.2)
  | query params =>
      refine (gives_queryHistory params owner).weaken fun answer u hu => ?_
      obtain ⟨data, rfl, hlisted⟩ := hu
      exact hlisted
  | deleteEntries targets =>
      refine gives_bind (gives_result fun _ _ => ?_)
      refine gives_bind ((gives_fromBackend (gives_transacted lenient_archive (R := fun _ => True)
        (T := fun _ u => ∃ reply, Answered P origin past (.request i) (.removeMany targets) reply u)
        stable_of (fun _ => .ex fun _ => stable_answered) (fun t _ => ?_) trivial)).weaken
        fun operation u hu => gives_pure hu)
      exact gives_onBackend_bind ((gives_request (R := fun _ => True) stable_of
        (fun _ _ _ h => by cases h) trivial).weaken fun reply u hu => gives_pure ⟨reply, hu.2⟩)
  | _ =>
      exact (Mild.gives (quiet_method id id) stable_of trivial).weaken fun _ _ _ => trivial

/-- Every call keeps the discipline. -/
theorem keeps_calls (i : Nat) (call : Call F) (hs : Blank i s) :
    (program P H i call).Keeps (archive P H origin past) i
      (Told P H.codec origin past i call) s := by
  have hquiet : ∀ {m : Work F Reply}, m.Mild (archive P H origin past) i →
      m.Keeps (archive P H origin past) i (fun _ _ => True) s :=
    fun hm => hm.keeps stable_of trivial
  cases call with
  | request client reserves method =>
      have hdispatch : ∀ t, Blank i t → (dispatchOwned P H i reserves method
            (Call.request (F := F) client reserves method).owner).Keeps (archive P H origin past) i
          (Told P H.codec origin past i (.request client reserves method)) t :=
        fun t ht => keeps_dispatchOwned lenient_archive (fun r => stable_told _ r)
          (fun e u => by cases method <;> trivial) (fun _ _ u => by cases method <;> trivial)
          (fun _ _ hmove h => h.proceeds hmove) (fun u hu => gives_dispatchMethod method hu) ht
      cases client with
      | none => exact hdispatch s hs
      | some client =>
          exact keeps_callerDispatch' lenient_archive (fun r => stable_told _ r)
            (fun e u => by cases method <;> trivial) (fun _ _ hmove h => h.proceeds hmove)
            hdispatch hs
  | disconnect name =>
      refine Thread.keeps_bind
        (Thread.keeps_modify fun t hvalid _ => ⟨⟨?_, trivial, fun _ _ => ?_⟩, ?_⟩)
      · exact ⟨hvalid.since, hvalid.leads, hvalid.settled, hvalid.leases, hvalid.stages,
          hvalid.operations⟩
      · exact ⟨List.prefix_rfl,
          ⟨[], (List.append_nil _).symm, fun _ h => absurd h List.not_mem_nil⟩,
          fun _ _ h => h, rfl⟩
      · exact Thread.keeps_bind ((Mild.keeps (quiet fun _ => takes_releaseOwner name) stable_of
          trivial).weaken fun _ _ _ => trivial)
  | annotate id => exact Annotate.keeps_complete id
  | publish mime bytes =>
      exact hquiet (quiet_asked fun _ => takes_publishSelection asked_of_aside mime bytes)
  | cancel id owner =>
      exact hquiet (quiet fun _ => takes_bind (takes_onJobs _) fun _ => takes_pure _)
  | release name =>
      exact hquiet (quiet fun _ => takes_bind (takes_releaseOwner name) fun _ => takes_pure _)
  | observed id => exact hquiet (quiet fun _ => takes_bind (takes_onJobs _) fun _ => takes_pure _)
  | lagged => exact hquiet (quiet fun _ => takes_bind (takes_onJobs _) fun _ => takes_pure _)
  | poll => exact hquiet (quiet fun _ => takes_bind takes_poll fun _ => takes_pure _)
  | ingest mime bytes =>
      have htakes : Takes P (captured i mime bytes) i none (program P H i (.ingest mime bytes)) :=
        takes_bind (takes_capture mime bytes) fun _ => takes_pure _
      exact hquiet (quiet_of plain_captured htakes)
  | setAdmission enabled =>
      have htakes : Takes P admitted i none (program P H i (.setAdmission enabled)) :=
        takes_bind (takes_setAdmission enabled) fun _ => takes_pure _
      exact hquiet (quiet_of plain_admitted htakes)
  | startup =>
      have htakes : Serving P i False False True False none (program P H i .startup) :=
        takes_startup
      exact hquiet (quiet_of (plain_serving id id) htakes)
  | shutdown =>
      have htakes : Serving P i False False True False none (program P H i .shutdown) :=
        takes_shutdown
      exact hquiet (quiet_of (plain_serving id id) htakes)
  | files files => exact hquiet (quiet fun _ => takes_files files)
  | clock clock => exact hquiet (quiet fun _ => takes_clock clock)
  | elapse time =>
      exact hquiet (quiet fun _ => takes_bind (takes_elapse time) fun _ => takes_pure _)

end Calls

end Daemon

end ClipDaemon
