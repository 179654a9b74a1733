import ClipDaemon.Daemon.Edits

/-!
# Wipes and pauses are fenced

A wipe stops capture before it deletes anything, and starts it again afterwards, with the lock of
the settings held in between (`api.rs`, `settings.rs`).  Capture is stopped when no selection is
being handed over any more and its session is over (`capture.rs`, `capture/worker.rs`), so that
what was copied before the wipe, but has not reached the store, does not reach it afterwards.

A pause stops capture in the same way, and nothing starts it without that lock.
-/

namespace ClipDaemon

open Thread (outcome result Gives Mild gives_pure gives_throw gives_result gives_bind
  gives_outcome gives_then stable_of)
open Capture (captureMime)

/-! ## Who adds entries -/

/-- No entry is new. -/
def Tables.AddsNothing (t t' : Tables) : Prop := ∀ id, t'.hasEntry id = true → t.hasEntry id = true

namespace Tables.AddsNothing

variable {P : Platform} {env : Env} {t t' t'' : Tables}

theorem of_entries (h : ∀ e' ∈ t'.entries, ∃ e ∈ t.entries, e'.id = e.id) : t.AddsNothing t' := by
  intro id hin
  obtain ⟨e', he', rfl⟩ := hasEntry_iff.mp hin
  obtain ⟨e, he, hid⟩ := h e' he'
  exact hasEntry_iff.mpr ⟨e, he, hid.symm⟩

theorem refl (t : Tables) : t.AddsNothing t := fun _ h => h

theorem trans (h : t.AddsNothing t') (h' : t'.AddsNothing t'') : t.AddsNothing t'' :=
  fun id hin => h id (h' id hin)

theorem of_remains (h : Remains t t') : t.AddsNothing t' := fun _ hin => h.hasEntry hin

theorem retained (policy : StorePolicy) (protectedId : String) :
    t.AddsNothing (t.retained policy protectedId) := of_remains remains_retained

theorem deleteEntries (ids : List String) : t.AddsNothing (t.deleteEntries ids) :=
  of_remains (.deleteEntries t ids)

theorem replaced (id mime : String) (expected : Nat) (bytes : Bytes) :
    t.AddsNothing (t.replaced P env id expected mime bytes) := by
  refine of_entries fun e' he' => ?_
  obtain ⟨e₁, he₁, heq, -⟩ := mem_linked he'
  obtain ⟨e, he, hid, -⟩ := entries_rewritten he₁
  exact ⟨e, he, by rw [heq]; exact hid⟩

theorem favorited (id : String) (expected : Nat) (value : Bool) :
    t.AddsNothing (t.favorited id expected value) := by
  refine of_entries fun e' he' => ?_
  obtain ⟨e, he, rfl⟩ := mem_mapEntries.mp he'
  refine ⟨e, he, ?_⟩
  split <;> rfl

end Tables.AddsNothing

/-- Only an insertion adds an entry. -/
theorem Request.adds_nothing {P : Platform} {env : Env} {r : Request} {t t' : Tables}
    {reply : Reply}
    (hadds : Daemon.adds r = false) (h : r.effect P env t = .ok (reply, t')) :
      t.AddsNothing t' := by
  have haside : r.isAside = true → t.AddsNothing t' := fun haside => by
    have hsame := (effect_isAside haside h).entries
    exact .of_entries fun e' he' => ⟨e', hsame ▸ he', rfl⟩
  unfold effect at h
  cases r with
  | insert mime bytes => cases hadds
  | applyPolicy next =>
      simp only [job] at h
      split at h
      · rcases Database.applyPolicy_ok (unit_ok h).2 with ⟨-, ht⟩ | ⟨-, -, -, -, -, -, ht⟩
        · simp only at ht
          exact ht ▸ .refl t
        · simp only at ht
          exact ht ▸ .retained (t := { t with effectivePolicy := next }) next ""
      · exact direct_ok h ▸ .refl t
  | replace id expected mime bytes =>
      obtain ⟨summary, -, hbody⟩ := entry_ok h
      obtain ⟨e, -, -, -, -, -, ht, -⟩ := Database.replace_ok hbody
      simp only at ht
      exact ht ▸ (Tables.AddsNothing.replaced id mime expected bytes).trans (.retained _ _)
  | favorite id expected value =>
      obtain ⟨e, -, -, ⟨-, ht⟩ | ⟨-, -, ht⟩⟩ := Database.favorite_ok (unit_ok h).2
      · simp only at ht
        exact ht ▸ .refl t
      · simp only at ht
        exact ht ▸ (Tables.AddsNothing.favorited id expected value).trans (.retained _ _)
  | removeMany targets =>
      simp only [job] at h
      split at h
      · exact direct_ok h ▸ .refl t
      · obtain ⟨-, -, ht⟩ := Database.removeMany_ok (unit_ok h).2
        simp only at ht
        exact ht ▸ Tables.AddsNothing.deleteEntries _
  | wipe =>
      obtain ⟨-, ht⟩ := Database.wipe_ok (unit_ok h).2
      simp only at ht
      exact ht ▸ Tables.AddsNothing.deleteEntries _
  | _ => exact haside rfl

/-- Without entries there is no content. -/
theorem WellFormed.emptied {P : Platform} {t : Tables} (h : WellFormed P t)
    (hnone : t.entries = []) :
    t.payloads = [] ∧ t.searchContent = [] := by
  obtain ⟨content, hcontents⟩ := h.contents
  have hpayloads := hcontents.payloads
  have hsearch := hcontents.search
  rw [hnone] at hpayloads hsearch
  exact ⟨List.perm_nil.mp hpayloads, List.perm_nil.mp hsearch⟩

namespace Daemon

variable {F α : Type}

/-! ## The discipline -/

/-- Commit `k` adds no entry, or is that of a selection whose transfer began after every point up
to then at which capture was found stopped. -/
def Fenced (s : Daemon F) (k : Nat) (commit : Commit) : Prop :=
  commit.before.AddsNothing commit.after ∨ ∃ j session began, commit.source = .capture j ∧
    s.captures j = some (session, began) ∧ ∀ point ∈ s.quiesced, point ≤ k → point ≤ began

/-- What the fences rest on. -/
structure Guarded (P : Platform) (origin : Tables) (s : Daemon F) : Prop where
  leads : Leads P origin s.commits s.committed
  settled : s.backend.store.db.Settled
  began : ∀ j session began, s.captures j = some (session, began) → session ≤ s.session
  stopped : s.capturing = false →
    ∀ j session began, s.captures j = some (session, began) → session < s.session
  quiesced : ∀ point ∈ s.quiesced, point ≤ s.commits.length
  current : ∀ j began, s.captures j = some (s.session, began) → ∀ point ∈ s.quiesced, point ≤ began
  ingesting : ∀ j ∈ s.ingesting, ∃ session began, s.captures j = some (session, began) ∧
    ∀ point ∈ s.quiesced, point ≤ began
  commits : ∀ k commit, s.commits[k]? = some commit → Fenced s k commit

/-- The selection was being handed over in `s`, or belongs to that session or to a later one. -/
def Since (s t : Daemon F) (j : Nat) : Prop :=
  j ∈ s.ingesting ∨ ∃ session began, t.captures j = some (session, began) ∧ s.session ≤ session

/-- No selection of a session that is over is handed over, and only what is handed over adds
entries. -/
structure Later (s t : Daemon F) : Prop where
  session : s.session ≤ t.session
  captures : ∀ j begun, s.captures j = some begun → t.captures j = some begun
  commits : s.commits <+: t.commits
  ingesting : ∀ j ∈ t.ingesting, Since s t j
  added : ∀ k commit, s.commits.length ≤ k → t.commits[k]? = some commit →
    commit.before.AddsNothing commit.after ∨ ∃ j, commit.source = .capture j ∧ Since s t j

theorem Later.refl (s : Daemon F) : Later s s where
  session := le_rfl
  captures _ _ h := h
  commits := List.prefix_rfl
  ingesting _ hj := .inl hj
  added _ _ hle hk := absurd (List.getElem?_eq_some_iff.mp hk).1 hle.not_gt

theorem Later.trans {s t u : Daemon F} (h : Later s t) (h' : Later t u) : Later s u := by
  have hold : ∀ {j}, Since s t j → Since s u j := fun hj => hj.imp_right
    fun ⟨session, began, hbegan, hle⟩ => ⟨session, began, h'.captures _ _ hbegan, hle⟩
  have hnew : ∀ {j}, Since t u j → Since s u j := by
    rintro j (hj | ⟨session, began, hbegan, hle⟩)
    · exact hold (h.ingesting j hj)
    · exact .inr ⟨session, began, hbegan, h.session.trans hle⟩
  refine ⟨h.session.trans h'.session, fun j begun hj => h'.captures j begun (h.captures j begun hj),
    h.commits.trans h'.commits, fun j hj => hnew (h'.ingesting j hj), fun k commit hle hk => ?_⟩
  rcases lt_or_ge k t.commits.length with hlt | hge
  · have hk : t.commits[k]? = some commit := by
      obtain ⟨more, hmore⟩ := h'.commits
      rwa [← hmore, List.getElem?_append_left hlt] at hk
    exact (h.added k commit hle hk).imp_right fun ⟨j, hsource, hj⟩ => ⟨j, hsource, hold hj⟩
  · exact (h'.added k commit hge hk).imp_right fun ⟨j, hsource, hj⟩ => ⟨j, hsource, hnew hj⟩

/-- As long as nobody takes the lock of the settings capture stays stopped, and no entry is new. -/
structure Idles (s t : Daemon F) : Prop where
  later : Later s t
  governors : s.governors <+: t.governors
  idle : t.governors = s.governors → s.settings = none → s.captureFenced = true →
    t.settings = none ∧ t.captureFenced = true ∧ s.committed.AddsNothing t.committed

theorem Idles.refl (s : Daemon F) : Idles s s where
  later := .refl s
  governors := List.prefix_rfl
  idle _ hfree hstopped := ⟨hfree, hstopped, .refl _⟩

theorem Idles.trans {s t u : Daemon F} (h : Idles s t) (h' : Idles t u) : Idles s u where
  later := h.later.trans h'.later
  governors := h.governors.trans h'.governors
  idle hsame hfree hstopped := by
    have hmiddle : t.governors = s.governors :=
      (h.governors.eq_of_length_le (hsame ▸ h'.governors.length_le)).symm
    obtain ⟨hfree', hstopped', hadds⟩ := h.idle hmiddle hfree hstopped
    obtain ⟨hfree'', hstopped'', hadds'⟩ := h'.idle (hsame.trans hmiddle.symm) hfree' hstopped'
    exact ⟨hfree'', hstopped'', hadds.trans hadds'⟩

/-- What thread `i` finds between two of its statements.  While it holds the lock of the settings,
capture is not started. -/
structure Unmoved (i : Nat) (s t : Daemon F) : Prop where
  captures : t.captures i = s.captures i
  ingesting : i ∈ s.ingesting → i ∈ t.ingesting
  commits : s.commits <+: t.commits
  quiesced : s.quiesced ⊆ t.quiesced
  settings : s.settings = some i → t.settings = some i
  stopped : s.settings = some i → s.captureFenced = true → t.captureFenced = true
  governors : ∃ more, t.governors = s.governors ++ more ∧ i ∉ more
  idles : Idles s t

theorem Unmoved.refl (i : Nat) (s : Daemon F) : Unmoved i s s where
  captures := rfl
  ingesting h := h
  commits := List.prefix_rfl
  quiesced := List.Subset.refl _
  settings h := h
  stopped _ h := h
  governors := ⟨[], (List.append_nil _).symm, List.not_mem_nil⟩
  idles := .refl s

theorem Unmoved.trans {i : Nat} {s t u : Daemon F} (h : Unmoved i s t) (h' : Unmoved i t u) :
    Unmoved i s u where
  captures := h'.captures.trans h.captures
  ingesting hi := h'.ingesting (h.ingesting hi)
  commits := h.commits.trans h'.commits
  quiesced := List.Subset.trans h.quiesced h'.quiesced
  settings hi := h'.settings (h.settings hi)
  stopped hi hstopped := h'.stopped (h.settings hi) (h.stopped hi hstopped)
  governors := by
    obtain ⟨more, hmore, hnone⟩ := h.governors
    obtain ⟨more', hmore', hnone'⟩ := h'.governors
    refine ⟨more ++ more', by rw [hmore', hmore, List.append_assoc], fun hi => ?_⟩
    exact (List.mem_append.mp hi).elim hnone hnone'
  idles := h.idles.trans h'.idles

/-- Capture that was stopped adds nothing. -/
def fence (P : Platform) (origin : Tables) : Discipline (Daemon F) where
  valid := Guarded P origin
  grows := Idles
  rely := Unmoved
  fresh i s := s.captures i = none
  grows_refl := Idles.refl
  grows_trans := Idles.trans
  rely_refl := Unmoved.refl
  rely_trans := Unmoved.trans
  fresh_rely hmove hfresh := hmove.captures.trans hfresh

/-- Rights of a program that leaves capture alone. -/
structure Rights.Tame (rights : Rights) : Prop where
  requests : ∀ source r, rights.requests source r → adds r = false
  locks : ¬rights.locks
  switches : ¬rights.switches
  captures : ¬rights.captures

theorem tame_idle : idle.Tame := ⟨fun _ _ h => h.elim, id, id, id⟩

theorem tame_still : (Rights.only fun _ _ => False).Tame := ⟨fun _ _ h => h.elim, id, id, id⟩

theorem tame_annotated (id : Uuid) : (annotated id).Tame :=
    ⟨fun _ _ h => h.2, fun h => h, fun h => h, fun h => h⟩

theorem tame_admitted : admitted.Tame := ⟨fun _ _ h => h.2, id, id, id⟩

theorem tame_asked {i : Nat} : (Rights.only (Asked i)).Tame := ⟨fun _ _ h => h.2, id, id, id⟩

theorem tame_asking {i : Nat} {leases stages governs tokens : Prop} (hgoverns : ¬governs) :
    (asking i leases stages governs tokens).Tame := ⟨fun _ _ h => h.2, hgoverns, hgoverns, id⟩

section Fence

variable {P : Platform} {H : Machine F} {origin : Tables} {rights : Rights} {i j : Nat}
  {owner : Owner} {s t : Daemon F}

/-- What the statements add to the points at which capture was found stopped. -/
theorem Turn.points (h : Turn P rights i owner s t) : s.quiesced ⊆ t.quiesced := by
  rcases h.quiesced with hsame | ⟨-, hmore⟩
  · exact hsame ▸ List.Subset.refl _
  · exact hmore ▸ List.subset_append_left _ _

/-- The new commit, if there is one. -/
theorem Turn.fenced_commit (h : Turn P rights i owner s t) (hs : Guarded P origin s)
    (hcaptures : t.captures = s.captures)
    (hrequests : ∀ source r, rights.requests source r →
      adds r = false ∨ ∃ j ∈ s.ingesting, source = .capture j) {k : Nat} {commit : Commit}
    (hk : t.commits[k]? = some commit) : Fenced t k commit := by
  -- at the points that are new there are more commits than `k`, or nothing is handed over
  have hold : s.commits[k]? = some commit → Fenced t k commit := fun hk => by
    refine (hs.commits k commit hk).imp_right ?_
    rintro ⟨j, session, began, hsource, hbegan, hpoints⟩
    refine ⟨j, session, began, hsource, hcaptures ▸ hbegan, fun point hpoint hle => ?_⟩
    rcases h.quiesced with hsame | ⟨-, hmore⟩
    · exact hpoints point (hsame ▸ hpoint) hle
    · rw [hmore] at hpoint
      rcases List.mem_append.mp hpoint with hpoint | hnew
      · exact hpoints point hpoint hle
      · obtain rfl := List.mem_singleton.mp hnew
        have hlt := (List.getElem?_eq_some_iff.mp hk).1
        have := h.commits.length_le
        omega
  rcases h.recorded with ⟨-, hsame⟩ | ⟨source, r, env, reply, hr, heffect, -, hmore⟩
  · exact hold (hsame ▸ hk)
  · rw [hmore, List.getElem?_append] at hk
    split at hk
    · exact hold hk
    · obtain ⟨-, rfl⟩ : k - s.commits.length = 0 ∧ _ = commit := by
        simpa [List.getElem?_singleton] using hk
      rcases hrequests source r hr with hadds | ⟨j, hj, rfl⟩
      · exact .inl (Request.adds_nothing hadds heffect)
      · obtain ⟨session, began, hbegan, hpoints⟩ := hs.ingesting j hj
        refine .inr ⟨j, session, began, rfl, hcaptures ▸ hbegan, fun point hpoint _ => ?_⟩
        rcases h.quiesced with hsame | ⟨hstopped, -⟩
        · exact hpoints point (hsame ▸ hpoint)
        · simp only [captureFenced, Bool.and_eq_true, List.isEmpty_iff] at hstopped
          rw [hstopped.2] at hj
          cases hj

theorem Turn.guarded (h : Turn P rights i owner s t) (hcaptures : ¬rights.captures)
    (hrequests : ∀ source r, rights.requests source r →
      adds r = false ∨ ∃ j ∈ s.ingesting, source = .capture j)
    (hs : Guarded P origin s) : Guarded P origin t := by
  obtain ⟨hingesting, hbegan⟩ := h.captures.resolve_right fun hc => hcaptures hc.1
  have hle : s.session ≤ t.session := by
    rcases h.capture with ⟨-, hsame⟩ | ⟨-, hnext | ⟨hsame, -⟩⟩ <;> omega
  have hstopped : t.capturing = false → s.capturing = false ∨ s.session < t.session := by
    rcases h.capture with ⟨hsame, -⟩ | ⟨-, hnext | ⟨-, hcapturing⟩⟩
    · exact fun hc => .inl (hsame ▸ hc)
    · exact fun _ => .inr (by omega)
    · exact fun hc => .inl (hcapturing hc)
  have hfenced : t.quiesced = s.quiesced ∨ s.capturing = false ∧ s.ingesting = [] := by
    refine h.quiesced.imp_right fun hmore => ?_
    simpa [captureFenced] using hmore.1
  exact {
    leads := h.leads hs.leads
    settled := h.settled hs.settled
    began := fun j session began hj => (hs.began j session began (hbegan ▸ hj)).trans hle
    stopped := fun hc j session began hj => by
      rcases hstopped hc with hc | hlt
      · exact (hs.stopped hc j session began (hbegan ▸ hj)).trans_le hle
      · exact (hs.began j session began (hbegan ▸ hj)).trans_lt hlt
    quiesced := fun point hpoint => by
      rcases h.quiesced with hsame | ⟨-, hmore⟩
      · exact (hs.quiesced point (hsame ▸ hpoint)).trans h.commits.length_le
      · rw [hmore] at hpoint
        rcases List.mem_append.mp hpoint with hpoint | hnew
        · exact (hs.quiesced point hpoint).trans h.commits.length_le
        · exact (List.mem_singleton.mp hnew).le
    current := fun j began hj => by
      have hj : s.captures j = some (t.session, began) := hbegan ▸ hj
      have heq : t.session = s.session := le_antisymm (hs.began j _ _ hj) hle
      rcases hfenced with hsame | ⟨hc, -⟩
      · exact hsame ▸ hs.current j began (heq ▸ hj)
      · have := hs.stopped hc j _ _ hj
        omega
    ingesting := fun j hj => by
      rcases hfenced with hsame | ⟨-, hnone⟩
      · rw [hsame, hbegan]
        exact hs.ingesting j (hingesting ▸ hj)
      · rw [hingesting, hnone] at hj
        cases hj
    commits := fun k commit hk => h.fenced_commit hs hbegan hrequests hk }

theorem Turn.later (h : Turn P rights i owner s t) (hcaptures : ¬rights.captures)
    (hrequests : ∀ source r, rights.requests source r →
      adds r = false ∨ ∃ j ∈ s.ingesting, source = .capture j) : Later s t := by
  obtain ⟨hingesting, hbegan⟩ := h.captures.resolve_right fun hc => hcaptures hc.1
  refine ⟨?_, fun j begun hj => hbegan ▸ hj, h.commits, fun j hj => .inl (hingesting ▸ hj), ?_⟩
  · rcases h.capture with ⟨-, hsame⟩ | ⟨-, hnext | ⟨hsame, -⟩⟩ <;> omega
  intro k commit hle hk
  rcases h.recorded with ⟨-, hsame⟩ | ⟨source, r, env, reply, hr, heffect, -, hmore⟩
  · exact absurd (List.getElem?_eq_some_iff.mp (hsame ▸ hk)).1 hle.not_gt
  · rw [hmore, List.getElem?_append_right hle] at hk
    obtain ⟨-, rfl⟩ : k - s.commits.length = 0 ∧ _ = commit := by
      simpa [List.getElem?_singleton] using hk
    rcases hrequests source r hr with hadds | ⟨j, hj, rfl⟩
    · exact .inl (Request.adds_nothing hadds heffect)
    · exact .inr ⟨j, rfl, .inl hj⟩

/-- A statement that hands nothing over leaves capture alone, unless the lock is held or taken. -/
theorem Turn.idles (h : Turn P rights i owner s t) (hcaptures : ¬rights.captures)
    (hrequests : ∀ source r, rights.requests source r →
      adds r = false ∨ ∃ j ∈ s.ingesting, source = .capture j)
    (hlocks : rights.locks → s.settings ≠ none ∨ t.governors ≠ s.governors)
    (hswitches : rights.switches → s.settings ≠ none) : Idles s t where
  later := h.later hcaptures hrequests
  governors := by
    rcases h.governors with hsame | ⟨-, hmore⟩
    · exact hsame ▸ List.prefix_rfl
    · exact ⟨_, hmore.symm⟩
  idle hsame hfree hstopped := by
    have hsettings : t.settings = s.settings := h.settings.resolve_right fun hl =>
      (hlocks hl).elim (fun hheld => hheld hfree) fun hnew => hnew hsame
    obtain ⟨hcapturing, -⟩ := h.capture.resolve_right fun hs => hswitches hs.1 hfree
    obtain ⟨hingesting, -⟩ := h.captures.resolve_right fun hc => hcaptures hc.1
    refine ⟨hsettings.trans hfree,
      by rw [captureFenced, hcapturing, hingesting]; exact hstopped, ?_⟩
    rcases h.recorded with ⟨hcommitted, -⟩ | ⟨source, r, env, reply, hr, heffect, -, -⟩
    · exact hcommitted ▸ .refl _
    · refine Request.adds_nothing ((hrequests source r hr).resolve_right ?_) heffect
      rintro ⟨j, hj, -⟩
      simp only [captureFenced, Bool.and_eq_true, List.isEmpty_iff] at hstopped
      rw [hstopped.2] at hj
      cases hj

theorem Turn.unmoved (h : Turn P rights i owner s t) (hcaptures : ¬rights.captures)
    (hsettings : s.settings = some j → t.settings = some j)
    (hswitches : rights.switches → s.settings ≠ some j) (hlocks : rights.locks → j ≠ i)
    (hidles : Idles s t) : Unmoved j s t := by
  obtain ⟨hingesting, hbegan⟩ := h.captures.resolve_right fun hc => hcaptures hc.1
  exact {
    captures := by rw [hbegan]
    ingesting := fun hj => hingesting ▸ hj
    commits := h.commits
    quiesced := h.points
    settings := hsettings
    stopped := fun hj hstopped => by
      obtain ⟨hcapturing, -⟩ := h.capture.resolve_right fun hs => hswitches hs.1 hj
      rw [captureFenced, hcapturing, hingesting]
      exact hstopped
    governors := by
      rcases h.governors with hsame | ⟨hl, hmore⟩
      · exact ⟨[], by rw [hsame, List.append_nil], List.not_mem_nil⟩
      · exact ⟨[i], hmore, fun hj => hlocks hl (List.mem_singleton.mp hj)⟩
    idles := hidles }

theorem Turn.tame_idles (h : Turn P rights i owner s t) (htame : rights.Tame) : Idles s t :=
  h.idles htame.captures (fun source r hr => .inl (htame.requests source r hr))
    (fun hl => (htame.locks hl).elim) fun hs => (htame.switches hs).elim

theorem Turn.tame_unmoved (h : Turn P rights i owner s t) (htame : rights.Tame) (j : Nat) :
    Unmoved j s t :=
  h.unmoved htame.captures (fun hj => h.settings.resolve_right htame.locks ▸ hj)
    (fun hswitches => (htame.switches hswitches).elim) (fun hl => (htame.locks hl).elim)
    (h.tame_idles htame)

/-- A statement of a program that leaves capture alone. -/
theorem Turn.tame (h : Turn P rights i owner s t) (htame : rights.Tame) (hs : Guarded P origin s) :
    (fence P origin).Allows i s t :=
  ⟨h.guarded htame.captures (fun source r hr => .inl (htame.requests source r hr)) hs,
    h.tame_idles htame, fun j _ => h.tame_unmoved htame j⟩

end Fence

/-! ## Rules -/

/-- More was committed, and capture was found stopped more often. -/
def Extends (s t : Daemon F) : Prop := s.commits <+: t.commits ∧ s.quiesced ⊆ t.quiesced

theorem Unmoved.extends {i : Nat} {s t : Daemon F} (h : Unmoved i s t) : Extends s t :=
  ⟨h.commits, h.quiesced⟩

theorem stable_unmoved {i : Nat} {R : Daemon F → Prop} (hR : Thread.Stable Extends R) :
    Thread.Stable (Unmoved i) R := fun s t hmove => hR s t hmove.extends

/-- The rights of a thread that holds the lock of the settings. -/
def holding (i : Nat) : Rights := { Rights.only (Asked i) with switches := True, tokens := True }

/-- The thread holds the lock of the settings, and capture was stopped. -/
def Stopped (i : Nat) (s : Daemon F) : Prop := s.settings = some i ∧ s.captureFenced = true

theorem stable_stopped {i : Nat} : Thread.Stable (Unmoved i) (Stopped (F := F) i) :=
  fun _ _ hmove h => ⟨hmove.settings h.1, hmove.stopped h.1 h.2⟩

/-- A thread that may switch capture need not do so. -/
theorem Turn.switching {P : Platform} {i : Nat} {owner : Owner} {s t : Daemon F}
    (h : Turn P (Rights.only (Asked i)) i owner s t) : Turn P (holding i) i owner s t :=
  { h with capture := .inl (h.capture.resolve_right And.left), aside := .inl trivial }

section Rules

variable {ε : Type} {P : Platform} {H : Machine F} {origin : Tables} {rights : Rights} {i : Nat}
  {owner : Owner} {s : Daemon F} {R : Daemon F → Prop} {T : α → Daemon F → Prop}

theorem mild_of_tame {m : Thread (Daemon F) Chance α} (htame : rights.Tame)
    (hm : Takes P rights i owner m) : m.Mild (fence P origin) i :=
  Thread.mild_of_each hm (fun _ _ hvalid h => h.tame htame hvalid)
    fun _ _ _ h => h.tame_unmoved htame i

theorem mild_asked {m : Thread (Daemon F) Chance α}
    (hm : Takes P (Rights.only (Asked i)) i none m) :
    m.Mild (fence P origin) i := mild_of_tame tame_asked hm

theorem lenient_fence : Lenient P (fence (F := F) P origin) :=
  fun _ _ hm => mild_of_tame tame_idle (hm none)

theorem governs_holding : (holding i).Governs (.request i) := by
  refine ⟨fun r h => ⟨rfl, ?_⟩, trivial⟩
  cases r with
  | insert mime bytes => cases h
  | _ => rfl

/-- Who holds the lock keeps it, and may switch capture. -/
theorem keeps_holding {m : Thread (Daemon F) Chance α} (hm : Takes P (holding i) i owner m)
    (hR : Thread.Stable Extends R) (hs : s.settings = some i ∧ R s) :
    m.Keeps (fence P origin) i (fun _ u => u.settings = some i ∧ R u) s := by
  have hkept : ∀ {t u : Daemon F}, Turn P (holding i) i owner t u → u.settings = t.settings :=
    fun h => h.settings.resolve_right id
  refine hm.keeps_under (fun t u hvalid ht h => ?_) (fun t u hmove ht => ?_)
    (fun t u _ h ht => ?_) hs
  · have hheld : t.settings ≠ none := by rw [ht.1]; exact Option.some_ne_none i
    have hidles : Idles t u :=
      h.idles id (fun source r hr => .inl hr.2) (fun hl => hl.elim) fun _ => hheld
    refine ⟨h.guarded id (fun source r hr => .inl hr.2) hvalid, hidles, fun j hne => ?_⟩
    exact h.unmoved id (fun hj => hkept h ▸ hj)
      (fun _ hj => hne (Option.some.inj (hj.symm.trans ht.1)))
      (fun hl => hl.elim) hidles
  · exact ⟨hmove.settings ht.1, hR t u hmove.extends ht.2⟩
  · exact ⟨(hkept h).trans ht.1, hR t u ⟨h.commits, h.points⟩ ht.2⟩

theorem gives_holding {m : ExceptT ε (Thread (Daemon F) Chance) α}
    (hm : Takes P (holding i) i owner m.run) (hR : Thread.Stable Extends R)
    (hs : s.settings = some i ∧ R s) :
    Gives (fence P origin) i m (fun _ u => u.settings = some i ∧ R u) s :=
  Thread.gives_of_keeps (keeps_holding hm hR hs)

/-! ### The lock of the settings -/

theorem gives_lockSettings :
    Gives (fence P origin) i (lockSettings i : Act F Unit) (fun _ u => u.settings = some i) s := by
  have htakes : Takes P { idle with locks := True } i none (lockSettings i : Act F Unit).run :=
    takes_lockSettings trivial
  refine Thread.keeps_attempt fun t hvalid _ c r u hop => ?_
  have hturn := htakes.1 c t r u hop
  split at hop <;> cases hop
  next hfree =>
    have hidles : Idles t { t with settings := some i, governors := t.governors ++ [i] } :=
      hturn.idles id (fun _ _ h => h.elim) (fun _ => .inr (by simp)) fun h => h.elim
    refine ⟨⟨hturn.guarded id (fun _ _ h => h.elim) hvalid, hidles, fun j hne => ?_⟩,
      fun _ _ => rfl⟩
    refine hturn.unmoved id (fun hj => ?_) (fun h => h.elim) (fun _ => hne) hidles
    rw [hfree] at hj
    cases hj

theorem gives_unlockSettings (hR : Thread.Stable Extends R) (hs : s.settings = some i ∧ R s) :
    Gives (fence P origin) i (unlockSettings : Act F Unit) (fun _ u => R u) s := by
  have htakes : Takes P { idle with locks := True } i none (unlockSettings : Act F Unit).run :=
    takes_unlockSettings trivial
  refine Thread.keeps_attempt fun t hvalid hmove c r u hop => ?_
  have hturn := htakes.1 c t r u hop
  cases hop
  have hheld : t.settings = some i := hmove.settings hs.1
  have hidles : Idles t { t with settings := none } := hturn.idles id (fun _ _ h => h.elim)
    (fun _ => .inl (by rw [hheld]; exact Option.some_ne_none i)) fun h => h.elim
  refine ⟨⟨hturn.guarded id (fun _ _ h => h.elim) hvalid, hidles, fun j hne => ?_⟩, fun _ _ => ?_⟩
  · refine hturn.unmoved id (fun hj => ?_) (fun h => h.elim) (fun _ => hne) hidles
    exact (hne (Option.some.inj (hj.symm.trans hheld))).elim
  · exact hR t _ ⟨hturn.commits, hturn.points⟩ (hR s t hmove.extends hs.2)

theorem gives_settled {m : Act F α} (hm : Takes P (holding i) i owner m.run)
    (hT : ∀ a, Thread.Stable Extends (T a))
    (hgives : ∀ t, t.settings = some i → Gives (fence P origin) i m T t) :
    Gives (fence P origin) i (settled i m) T s := by
  refine gives_bind (gives_lockSettings.weaken fun _ t ht => ?_)
  have hbody : m.run.Keeps (fence P origin) i
      (fun r u => (u.settings = some i ∧ True) ∧ ∀ a, r = .ok a → T a u) t :=
    (keeps_holding hm stable_of ⟨ht, trivial⟩).and (hgives t ht)
  refine Thread.keeps_run_bind (Thread.keeps_outcome (hbody.weaken fun r u hr => ?_))
  have hr' : Thread.Stable Extends fun u => ∀ a, r = .ok a → T a u :=
    fun u v hmove h a ha => hT a u v hmove (h a ha)
  exact gives_bind ((gives_unlockSettings hr' ⟨hr.1.1, hr.2⟩).weaken fun _ v hv => gives_result hv)

end Rules

/-! ## The wipe -/

/-- All that was there was removed, while capture was found stopped. -/
def Wiped (i : Nat) (s : Daemon F) : Prop :=
  ∃ before t wiped later, s.commits = before ++ ⟨.request i, t, wiped⟩ :: later ∧
    wiped.entries = [] ∧ before.length + 1 ∈ s.quiesced

section Wipe

variable {P : Platform} {H : Machine F} {origin : Tables} {i : Nat} {owner : Owner} {s : Daemon F}

theorem stable_wiped : Thread.Stable Extends (Wiped (F := F) i) := by
  rintro s t ⟨⟨more, hmore⟩, hpoints⟩ ⟨before, u, wiped, later, hcommits, hnone, hpoint⟩
  refine ⟨before, u, wiped, later ++ more, ?_, hnone, hpoints hpoint⟩
  rw [← hmore, hcommits, List.append_assoc, List.cons_append]

theorem wipe_effect {env : Env} {t t' : Tables} {reply : ClipDaemon.Reply}
    (h : Request.wipe.effect P env t = .ok (reply, t')) : t'.entries = [] ∧ t' ≠ t := by
  obtain ⟨-, ht⟩ := Database.wipe_ok (Request.unit_ok h).2
  simp only at ht
  subst ht
  refine ⟨?_, fun h => ?_⟩
  · refine List.eq_nil_iff_forall_not_mem.mpr fun e he => ?_
    obtain ⟨e', he', -⟩ := List.mem_map.mp he
    obtain ⟨hmem, hkept⟩ := Eviction.mem_deleteKeys.mp he'
    exact hkept (List.mem_map_of_mem (List.mem_filter.mpr ⟨hmem, rfl⟩))
  · have := congrArg (fun u : Tables => u.storeMeta.revision) h
    simp [Tables.deleteEntries, Tables.deleteInlineEchoes, Tables.bumped] at this

/-- The wipe is committed, and capture is found stopped after it. -/
theorem gives_wipe (hs : Stopped i s) :
    Gives (fence P origin) i (onBackend (.request i) (Artifacts.request P H.toHost .wipe))
      (fun _ u => u.settings = some i ∧ Wiped i u) s := by
  have hserves : Artifacts.Serves P (fun r => r = .wipe) (Artifacts.request P H.toHost .wipe) :=
    Artifacts.serves_request rfl
  have heach : Takes P (.only fun source r => source = .request i ∧ r = .wipe) i none
      (onBackend (.request i) (Artifacts.request P H.toHost .wipe)).run :=
    takes_onBackend hserves fun r h => ⟨rfl, h⟩
  intro t hvalid hmove c answer u hop
  have hturn := heach.1 c t answer u hop
  obtain ⟨hsettings, hstopped⟩ := stable_stopped s t hmove hs
  refine ⟨hturn.tame ⟨fun _ r h => h.2 ▸ rfl, id, id, id⟩ hvalid, fun reply hreply => ?_⟩
  obtain ⟨⟨answer', b⟩, hserved, heq⟩ := Option.map_eq_some_iff.mp hop
  cases heq
  cases hreply
  clear hop
  split at hserved
  · cases hserved
  · have heffect := Artifacts.serve_ok hvalid.settled (Option.some.inj hserved)
    obtain ⟨hnone, hne⟩ := wipe_effect heffect
    refine ⟨hsettings, t.commits, t.committed, b.committed, [], if_neg hne, hnone, ?_⟩
    have hquiesced : (setBackend (.request i) t b).quiesced =
        t.quiesced ++ [(setBackend (.request i) t b).commits.length] := if_pos hstopped
    have hcommits : (setBackend (.request i) t b).commits =
        t.commits ++ [⟨.request i, t.committed, b.committed⟩] := if_neg hne
    rw [hquiesced, hcommits]
    simp

theorem gives_mutateWipe (hs : Stopped i s) :
    Gives (fence P origin) i (mutate P H i "" none .wipe)
      (fun _ u => u.settings = some i ∧ Wiped i u) s := by
  have hstable : Thread.Stable (Unmoved i) fun u : Daemon F => u.settings = some i ∧ Wiped i u :=
    Thread.Stable.and (fun _ _ hmove h => hmove.settings h) (stable_unmoved stable_wiped)
  refine gives_bind (gives_result fun _ _ => ?_)
  refine gives_gated lenient_fence stable_stopped (fun _ => hstable) (fun t ht => ?_) hs
  refine gives_then (lenient_fence i fun _ => takes_lift (takes_onJobs _)) stable_stopped ht
    fun _ u hu => ?_
  refine gives_transacted lenient_fence stable_stopped (fun _ => hstable) (fun v hv => ?_) hu
  refine gives_onBackend_bind (gives_result fun _ _ => ?_)
  refine gives_onBackend_bind
    (gives_onBackend_bind ((gives_wipe hv).weaken fun _ w hw => ?_) |>.weaken
    fun _ w hw => gives_pure hw)
  -- then the files are removed, as far as that succeeds
  have hserves : Artifacts.Serves P (fun r => r.isAside = true) (outcome do
      let _ ← Artifacts.cleanupBackend P H.toHost
      Artifacts.clearAll P H.toHost) :=
    Artifacts.serves_outcome (Artifacts.serves_bind (Artifacts.serves_cleanupBackend fun _ h => h)
      fun _ => Artifacts.serves_clearAll fun _ h => h)
  refine gives_onBackend_bind
    (((mild_asked (takes_aside asked_of_aside hserves)).gives hstable hw).weaken
    fun _ x hx => ?_)
  exact gives_pure hx

theorem gives_captureStopped (hs : s.settings = some i) :
    Gives (fence P origin) i (captureSetPaused true : Act F Unit) (fun _ u => Stopped i u) s := by
  have htakes : Takes P (holding i) i none (captureSetPaused true : Act F Unit).run :=
    takes_captureSetPaused trivial true
  have hheld : (captureSetPaused true : Act F Unit).run.Keeps (fence P origin) i
      (fun _ u => u.settings = some i ∧ True) s := keeps_holding htakes stable_of ⟨hs, trivial⟩
  intro t hvalid hmove c r u hop
  obtain ⟨hallows, hsettings, -⟩ := hheld t hvalid hmove c r u hop
  refine ⟨hallows, ?_⟩
  rintro a rfl
  refine ⟨hsettings, ?_⟩
  dsimp only at hop
  split at hop
  · cases hop
  · rw [if_pos rfl] at hop
    split at hop <;> cases hop
    next hnone =>
      rw [Bool.and_eq_true] at hnone
      exact hnone.2

theorem gives_wipeLocked (hs : s.settings = some i) :
    Gives (fence P origin) i (wipeLocked P H i) (fun _ u => Wiped i u) s := by
  have hclose : Takes P (Rights.only (Asked i)) i none (closeAdmission P H (.request i)).run :=
    takes_closeAdmission governs_holding.requests
  have hresume : Takes P (holding i) i none (resume P H i).run := takes_resume governs_holding
  refine gives_bind (gives_bind ((gives_captureStopped hs).weaken fun _ t ht =>
    (mild_asked hclose).gives stable_stopped ht) |>.weaken fun _ t ht => ?_)
  refine gives_then (lenient_fence i fun _ => takes_clearEdits trivial) stable_stopped ht
    fun _ u hu => ?_
  refine gives_bind ((gives_fromBackend (gives_mutateWipe hu)).weaken fun operation v hv => ?_)
  refine gives_bind ((gives_holding (m := outcome (resume P H i)) (takes_outcome hresume)
    stable_wiped hv).weaken fun resumed w hw => ?_)
  cases resumed <;> exact gives_pure hw.2

theorem gives_commitWipe (params : WipeParams) :
    Gives (fence P origin) i (commitWipe P H i params owner) (fun _ u => Wiped i u) s := by
  have hlocked : Takes P (holding i) i none (wipeLocked P H i).run := by
    refine takes_run_bind (takes_quiesceLocked governs_holding) fun _ => ?_
    refine takes_run_bind (takes_clearEdits trivial) fun _ => ?_
    refine takes_run_bind (takes_fromBackend ?_) fun operation => ?_
    · have hmutate : Serving P i False False False False none (mutate P H i "" none .wipe).run :=
        serving_mutate _ _ fun h => h.elim
      exact hmutate.mono fun _ _ => Turn.switching
    · refine takes_run_bind (takes_outcome (takes_resume governs_holding)) fun resumed => ?_
      cases resumed <;> exact takes_run_pure _
  rw [commitWipe]
  split
  · exact gives_throw _
  refine gives_then
    (mild_of_tame tame_idle (takes_onAuthority trivial (Authority.local_redeemWipe _)))
    stable_of trivial fun challenge t _ => ?_
  refine gives_then
    (lenient_fence i fun _ => takes_onAuthority trivial (Authority.local_unexpired _ _))
    stable_of trivial fun _ u _ => ?_
  exact gives_settled hlocked (fun _ => stable_wiped) fun v hv => gives_wipeLocked hv

end Wipe

/-! ## The pause -/

/-- Unless others have taken the lock of the settings since, capture is stopped. -/
def Paused (i : Nat) (s : Daemon F) : Prop :=
  s.governors.getLast? = some i → s.settings = none ∧ s.captureFenced = true

section Pause

variable {P : Platform} {H : Machine F} {origin : Tables} {i : Nat} {s : Daemon F}

theorem stable_paused : Thread.Stable (Unmoved i) (Paused (F := F) i) := by
  intro s t hmove h hlast
  obtain ⟨more, hmore, hnone⟩ := hmove.governors
  rcases List.eq_nil_or_concat more with rfl | ⟨others, j, rfl⟩
  · rw [List.append_nil] at hmore
    obtain ⟨hfree, hstopped⟩ := h (hmore ▸ hlast)
    exact ⟨(hmove.idles.idle hmore hfree hstopped).1, (hmove.idles.idle hmore hfree hstopped).2.1⟩
  · have hj : j = i := by simpa [hmore] using hlast
    exact absurd (by simp [hj]) hnone

/-- Capture is stopped when it is given back. -/
theorem gives_unlockStopped (hs : Stopped i s) :
    Gives (fence P origin) i (unlockSettings : Act F Unit) (fun _ u => Paused i u) s := by
  have hunlock : Gives (fence P origin) i (unlockSettings : Act F Unit) (fun _ _ => True) s :=
    gives_unlockSettings stable_of ⟨hs.1, trivial⟩
  intro t hvalid hmove c r u hop
  refine ⟨(hunlock t hvalid hmove c r u hop).1, fun _ _ _ => ?_⟩
  have hstopped : t.captureFenced = true := (stable_stopped s t hmove hs).2
  cases hop
  exact ⟨rfl, hstopped⟩

theorem gives_applyPaused {updated : ClipboardSettings} (hpaused : updated.capturePaused = true)
    (hs : s.settings = some i) :
    Gives (fence P origin) i (applyCapture P H (.request i) updated)
      (fun _ u => Stopped i u) s := by
  have hclose : Takes P (Rights.only (Asked i)) i none (closeAdmission P H (.request i)).run :=
    takes_closeAdmission governs_holding.requests
  have hswitch : Gives (fence P origin) i (switchCapture P H (.request i) updated)
      (fun _ u => Stopped i u) s := by
    rw [switchCapture, if_pos hpaused, hpaused]
    refine gives_bind ((gives_captureStopped hs).weaken fun _ t ht => ?_)
    refine gives_then (mild_asked hclose) stable_stopped ht fun _ u hu => ?_
    exact (lenient_fence i fun _ => takes_elsewhere).gives stable_stopped hu
  rw [applyCapture, synchronized, if_pos hpaused]
  exact gives_bind (gives_pure hswitch)

/-- What is answered is preferred now, and if that is a pause, then capture is stopped. -/
def Obeyed (i : Nat) (answer : Answer) (s : Daemon F) : Prop :=
  ∀ updated, answer = .settings updated → updated.capturePaused = true → Stopped i s

theorem gives_obeyed {updated : ClipboardSettings} (hs : s.settings = some i) :
    Gives (fence P origin) i (do
        applyCapture P H (.request i) updated
        pure (.settings updated)) (fun a u => Obeyed i a u) s := by
  have happly : Takes P (holding i) i none (applyCapture P H (.request i) updated).run :=
    takes_applyCapture governs_holding updated
  cases hpaused : updated.capturePaused with
  | true =>
      refine gives_bind ((gives_applyPaused hpaused hs).weaken fun _ t ht => gives_pure ?_)
      exact fun _ _ _ => ht
  | false =>
      refine gives_bind ((gives_holding happly stable_of ⟨hs, trivial⟩).weaken fun _ t _ =>
        gives_pure fun updated' heq hpaused' => ?_)
      cases heq
      rw [hpaused] at hpaused'
      cases hpaused'

theorem gives_pauseLocked (paused priv : Bool) (hs : s.settings = some i) :
    Gives (fence P origin) i (pauseLocked P H i paused priv) (fun a u => Obeyed i a u) s := by
  have hheld : Thread.Stable (Unmoved i) fun u : Daemon F => u.settings = some i :=
    fun _ _ hmove h => hmove.settings h
  have hsave : ∀ updated, Takes P idle i none
      (outcome (do elsewhere; setPreferences updated) : Act F (ApiResult Unit)).run :=
        fun updated =>
    takes_outcome (takes_run_bind takes_elsewhere fun _ => takes_setPreferences updated)
  refine gives_then (lenient_fence i fun _ => takes_readPreferences) hheld hs fun current t ht => ?_
  refine gives_then (mild_of_tame tame_idle (hsave _)) hheld ht fun saved u hu => ?_
  cases saved with
  | ok _ => exact gives_obeyed hu
  | error error =>
      have hstop : Takes P (holding i) i none
          (outcome (captureSetPaused true) : Act F (ApiResult Unit)).run :=
        takes_outcome (takes_captureSetPaused trivial true)
      have hclose : Takes P (holding i) i none (outcome (closeAdmission P H (.request i))).run :=
        takes_outcome (takes_closeAdmission governs_holding.requests)
      dsimp only
      split
      · refine gives_bind ((gives_holding hstop stable_of ⟨hu, trivial⟩).weaken fun _ v hv => ?_)
        exact gives_bind ((gives_holding hclose stable_of hv).weaken fun _ _ _ => gives_throw _)
      · exact gives_throw _

theorem gives_updateLocked (update : SettingsUpdate) (hs : s.settings = some i) :
    Gives (fence P origin) i (updateLocked P H i update) (fun a u => Obeyed i a u) s := by
  have hheld : ∀ {α : Type} {m : Act F α} {t : Daemon F}, Takes P (holding i) i none m.run →
      t.settings = some i → Gives (fence P origin) i m (fun _ u => u.settings = some i) t :=
    fun hm ht => (gives_holding hm stable_of ⟨ht, trivial⟩).weaken fun _ _ h => h.1
  refine gives_bind ((hheld takes_readPreferences hs).weaken fun current t ht => ?_)
  refine gives_bind (gives_result fun updated _ => ?_)
  refine gives_bind ((hheld ?_ ht).weaken fun _ u hu => ?_)
  · rw [fenceRetention]
    split
    · exact takes_quiesceLocked governs_holding
    · exact takes_run_pure _
  refine gives_bind ((hheld ?_ hu).weaken fun _ v hv => ?_)
  · rw [savePreferences]
    split
    · exact takes_run_pure _
    · exact takes_run_bind takes_elsewhere fun _ => takes_setPreferences _
  exact gives_bind ((hheld (takes_applyRetention governs_holding _) hv).weaken fun _ w hw =>
    gives_obeyed hw)

/-- Once the lock is given back, capture stays as it is until somebody takes it again. -/
theorem gives_settings {m : Act F Answer} (hm : ∀ {owner}, Takes P (holding i) i owner m.run)
    (hgives : ∀ t, t.settings = some i → Gives (fence P origin) i m (fun a u => Obeyed i a u) t) :
    Gives (fence P origin) i (settled i m)
      (fun a u => ∀ updated, a = .settings updated → updated.capturePaused = true →
        Paused i u) s := by
  have htakes : Takes P (holding i) i none m.run := hm
  refine gives_bind (gives_lockSettings.weaken fun _ t ht => ?_)
  have hbody : m.run.Keeps (fence P origin) i
      (fun r u => (u.settings = some i ∧ True) ∧ ∀ a, r = .ok a → Obeyed i a u) t :=
    (keeps_holding htakes stable_of ⟨ht, trivial⟩).and (hgives t ht)
  refine Thread.keeps_run_bind (Thread.keeps_outcome (hbody.weaken fun r u hr => ?_))
  obtain ⟨hheld, hobeyed⟩ := hr
  by_cases hpaused : ∃ updated, r = .ok (.settings updated) ∧ updated.capturePaused = true
  · obtain ⟨updated, rfl, hpaused⟩ := hpaused
    exact gives_bind ((gives_unlockStopped (hobeyed _ rfl updated rfl hpaused)).weaken fun _ v hv =>
      gives_result fun _ _ _ _ _ => hv)
  · refine gives_bind ((gives_unlockSettings stable_of hheld).weaken fun _ v _ =>
      gives_result fun a ha updated heq hp => ?_)
    exact absurd ⟨updated, heq ▸ ha, hp⟩ hpaused

end Pause

/-! ## Captured selections -/

section Captures

variable {P : Platform} {H : Machine F} {origin : Tables} {i : Nat} {s : Daemon F}

/-- The parts of a capture that change nothing in the store. -/
theorem Idles.of_beside {t : Daemon F} (hgovernors : t.governors = s.governors)
    (hsettings : t.settings = s.settings) (hcommitted : t.committed = s.committed)
    (hcommits : t.commits = s.commits) (hsession : t.session = s.session)
    (hcaptures : ∀ j begun, s.captures j = some begun → t.captures j = some begun)
    (hingesting : ∀ j ∈ t.ingesting, Since s t j)
    (hstopped : s.captureFenced = true → t.captureFenced = true) : Idles s t where
  later := {
    session := hsession.ge
    captures := hcaptures
    commits := hcommits ▸ List.prefix_rfl
    ingesting := hingesting
    added := fun _ _ hle hk =>
      absurd (List.getElem?_eq_some_iff.mp (hcommits ▸ hk)).1 hle.not_gt }
  governors := hgovernors ▸ List.prefix_rfl
  idle _ hfree hfenced := ⟨hsettings.trans hfree, hstopped hfenced, hcommitted ▸ .refl _⟩

/-- The transfer of a selection begins now. -/
theorem keeps_admits (hs : s.captures i = none) :
    (admits i : Work F (Option Nat)).Keeps (fence P origin) i (fun found u =>
      ∀ session, found = some session → ∃ began, u.captures i = some (session, began)) s := by
  refine Thread.keeps_atomic fun t hvalid hmove c found u hop => ?_
  split at hop <;> cases hop
  next hcapturing =>
    have hnone : t.captures i = none := hmove.captures.trans hs
    have hidles : Idles t { t with
        captures := Function.update t.captures i (some (t.session, t.commits.length)) } := by
      refine .of_beside rfl rfl rfl rfl rfl (fun j begun hj => ?_) (fun j hj => .inl hj) id
      rcases eq_or_ne j i with rfl | hne
      · rw [hnone] at hj
        cases hj
      · exact (Function.update_of_ne hne _ _).trans hj
    refine ⟨⟨?_, hidles, fun j hne => ?_⟩, fun session hsession => ?_⟩
    · have hself : Function.update t.captures i (some (t.session, t.commits.length)) i =
          some (t.session, t.commits.length) := Function.update_self ..
      have hother : ∀ {j}, j ≠ i →
          Function.update t.captures i (some (t.session, t.commits.length)) j = t.captures j :=
        fun hne => Function.update_of_ne hne _ _
      exact {
        leads := hvalid.leads
        settled := hvalid.settled
        began := fun j session began hj => by
          rcases eq_or_ne j i with rfl | hne
          · cases hself.symm.trans hj
            exact le_rfl
          · exact hvalid.began j session began ((hother hne).symm.trans hj)
        stopped := fun hstopped => by
          rw [hcapturing] at hstopped
          cases hstopped
        quiesced := hvalid.quiesced
        current := fun j began hj => by
          rcases eq_or_ne j i with rfl | hne
          · cases hself.symm.trans hj
            exact hvalid.quiesced
          · exact hvalid.current j began ((hother hne).symm.trans hj)
        ingesting := fun j hj => by
          rcases eq_or_ne j i with rfl | hne
          · exact ⟨_, _, hself, hvalid.quiesced⟩
          · obtain ⟨session, began, hbegan, hpoints⟩ := hvalid.ingesting j hj
            exact ⟨session, began, (hother hne).trans hbegan, hpoints⟩
        commits := fun k commit hk => by
          refine (hvalid.commits k commit hk).imp_right ?_
          rintro ⟨j, session, began, hsource, hbegan, hpoints⟩
          rcases eq_or_ne j i with rfl | hne
          · exact ⟨j, _, _, hsource, hself, fun point hpoint _ => hvalid.quiesced point hpoint⟩
          · exact ⟨j, session, began, hsource, (hother hne).trans hbegan, hpoints⟩ }
    · exact { Unmoved.refl j t with captures := Function.update_of_ne hne _ _, idles := hidles }
    · cases hsession
      exact ⟨_, Function.update_self ..⟩
  · exact ⟨.refl hvalid, fun session hsession => by cases hsession⟩

/-- What is handed over has begun after capture was found stopped the last time. -/
theorem keeps_enters {session : Nat} (hs : ∃ began, s.captures i = some (session, began)) :
    (enters i session : Work F Bool).Keeps (fence P origin) i
      (fun entered u => entered = true → i ∈ u.ingesting) s := by
  refine Thread.keeps_atomic fun t hvalid hmove c entered u hop => ?_
  split at hop <;> cases hop
  next hcurrent =>
    rw [Bool.and_eq_true, decide_eq_true_eq] at hcurrent
    obtain ⟨hcapturing, rfl⟩ := hcurrent
    obtain ⟨began, hbegan⟩ := hs
    have hbegan : t.captures i = some (t.session, began) := hmove.captures.trans hbegan
    have hrunning : t.captureFenced = true → False := fun hstopped => by
      simp [captureFenced, hcapturing] at hstopped
    have hidles : Idles t { t with ingesting := i :: t.ingesting } := by
      refine .of_beside rfl rfl rfl rfl rfl (fun _ _ hj => hj) (fun j hj => ?_)
        fun h => (hrunning h).elim
      rcases List.mem_cons.mp hj with rfl | hj
      · exact .inr ⟨_, began, hbegan, le_rfl⟩
      · exact .inl hj
    refine ⟨⟨{ hvalid with ingesting := fun j hj => ?_ }, hidles, fun j _ => ?_⟩, fun _ =>
      List.mem_cons_self⟩
    · rcases List.mem_cons.mp hj with rfl | hj
      · exact ⟨_, began, hbegan, hvalid.current j began hbegan⟩
      · exact hvalid.ingesting j hj
    · exact { Unmoved.refl j t with
        ingesting := List.mem_cons_of_mem _
        stopped := fun _ hstopped => (hrunning hstopped).elim
        idles := hidles }
  · exact ⟨.refl hvalid, fun h => by cases h⟩

theorem keeps_leaves : (leaves i : Work F Unit).Keeps (fence P origin) i (fun _ _ => True) s := by
  refine Thread.keeps_modify fun t hvalid _ => ?_
  have hstopped : t.captureFenced = true →
      captureFenced { t with ingesting := t.ingesting.filter (· ≠ i) } = true := fun h => by
    simp only [captureFenced, Bool.and_eq_true, List.isEmpty_iff] at h ⊢
    exact ⟨h.1, by rw [h.2]; rfl⟩
  have hidles : Idles t { t with ingesting := t.ingesting.filter (· ≠ i) } :=
    .of_beside rfl rfl rfl rfl rfl (fun _ _ hj => hj) (fun _ hj => .inl (List.mem_filter.mp hj).1)
      hstopped
  refine ⟨⟨?_, hidles, fun j hne => ?_⟩, trivial⟩
  · exact { hvalid with ingesting := fun j hj => hvalid.ingesting j (List.mem_filter.mp hj).1 }
  · exact { Unmoved.refl j t with
      ingesting := fun hj => List.mem_filter.mpr ⟨hj, by simpa using hne⟩
      stopped := fun _ => hstopped
      idles := hidles }

theorem keeps_handover (mime : String) (bytes : Bytes) (hs : i ∈ s.ingesting) :
    (transacted i (.capture i) (Artifacts.ingest P H.toHost mime bytes)).run.Keeps
      (fence P origin) i
      (fun _ u => i ∈ u.ingesting) s := by
  have htakes : Takes P (.only (Handover i mime bytes)) i none
      (transacted i (.capture i) (Artifacts.ingest P H.toHost mime bytes)).run :=
    takes_handover mime bytes fun _ _ h => h
  refine htakes.keeps_under (fun t u hvalid ht h => ?_) (fun t u hmove => hmove.ingesting)
    (fun t u _ h ht => (h.captures.resolve_right And.left).1 ▸ ht) hs
  have hidles : Idles t u := h.idles id (fun source r hr => .inr ⟨i, ht, hr.1⟩)
    (fun hlocks => hlocks.elim) fun hswitches => hswitches.elim
  refine ⟨h.guarded id (fun source r hr => .inr ⟨i, ht, hr.1⟩) hvalid, hidles, fun j _ => ?_⟩
  exact h.unmoved id (fun hj => h.settings.resolve_right id ▸ hj) (fun hswitches => hswitches.elim)
    (fun hlocks => hlocks.elim) hidles

theorem keeps_capture (mime : String) (bytes : Bytes) (hs : s.captures i = none) :
    (capture P H i mime bytes).Keeps (fence P origin) i (fun _ _ => True) s := by
  refine Thread.keeps_bind ((keeps_admits hs).weaken fun found t ht => ?_)
  cases found with
  | none => trivial
  | some session =>
      refine Thread.keeps_bind ((keeps_enters (ht session rfl)).weaken fun entered u hu => ?_)
      split
      next hentered =>
        exact Thread.keeps_bind
          ((keeps_handover mime bytes (hu hentered)).weaken fun _ _ _ => keeps_leaves)
      · trivial

end Captures

/-! ## Calls -/

/-- What is so of a wipe or of a pause that was answered. -/
def FenceTold (i : Nat) : Call F → Reply → Daemon F → Prop
  | .request _ _ (.wipeCommit _), .ok (.operation _) => Wiped i
  | .request _ _ (.setPaused ..), .ok (.settings updated)
  | .request _ _ (.updateSettings _), .ok (.settings updated) =>
      fun s => updated.capturePaused = true → Paused i s
  | _, _ => fun _ => True

section Calls

variable {P : Platform} {H : Machine F} {origin : Tables} {i : Nat} {owner : Owner} {s : Daemon F}

theorem stable_fenceTold (call : Call F) (reply : Reply) :
    Thread.Stable (Unmoved i) (FenceTold i call reply) := by
  unfold FenceTold
  split
  · exact stable_unmoved stable_wiped
  · exact fun u v hmove h hpaused => stable_paused u v hmove (h hpaused)
  · exact fun u v hmove h hpaused => stable_paused u v hmove (h hpaused)
  · exact stable_of

/-- A program that runs under the lock of the settings. -/
theorem keeps_switching {m : Act F α} (hm : Takes P (holding i) i none m.run) :
    (settled i m).run.Keeps (fence P origin) i (fun _ _ => True) s := by
  have hgives : Gives (fence P origin) i (settled i m) (fun _ _ => True) s :=
    gives_settled hm (fun _ => stable_of) fun t ht =>
      (gives_holding hm stable_of ⟨ht, trivial⟩).weaken fun _ _ h => h.2
  exact Thread.Keeps.weaken hgives fun _ _ _ => trivial

theorem gives_method {client : Option (Transport × String)} {reserves : Bool} (method : Method) :
    Gives (fence P origin) i (dispatchMethod P H i method owner)
      (fun a u => FenceTold i (.request client reserves method) (.ok a) u) s := by
  by_cases hgoverns : method.Governs
  · cases method with
    | wipeCommit params =>
        refine (gives_commitWipe params).weaken fun a u hu => ?_
        cases a with
        | operation operation => exact hu
        | _ => trivial
    | setPaused paused priv =>
        refine (gives_settings (takes_pauseLocked governs_holding paused priv)
          fun t ht => gives_pauseLocked paused priv ht).weaken fun a u hu => ?_
        cases a with
        | settings updated => exact hu updated rfl
        | _ => trivial
    | updateSettings update =>
        refine (gives_settings (takes_updateLocked governs_holding update)
          fun t ht => gives_updateLocked update ht).weaken fun a u hu => ?_
        cases a with
        | settings updated => exact hu updated rfl
        | _ => trivial
    | _ => exact hgoverns.elim
  · have htakes : Serving P i method.Leases method.Stages method.Governs method.Holds owner
        (dispatchMethod P H i method owner).run := serving_dispatchMethod method
    refine ((mild_of_tame (tame_asking hgoverns) htakes).gives stable_of trivial).weaken
      fun a u _ => ?_
    cases method with
    | wipeCommit params => exact (hgoverns trivial).elim
    | setPaused paused priv => exact (hgoverns trivial).elim
    | updateSettings update => exact (hgoverns trivial).elim
    | _ => trivial

theorem goes_tame {call : Call F} {t : Daemon F} (htame : (call.rights i).Tame)
    (h : Goes P i call s t) (hs : Guarded P origin s) : (fence P origin).Allows i s t := by
  rcases h with hturn | ⟨name, -, rfl⟩
  · exact hturn.tame htame hs
  · have hidles : Idles s { s with departed := Function.update s.departed name true } :=
      .of_beside rfl rfl rfl rfl rfl (fun _ _ hj => hj) (fun _ hj => .inl hj) id
    exact ⟨{ hs with }, hidles, fun j _ => { Unmoved.refl j s with idles := hidles }⟩

/-- Every call keeps the discipline. -/
theorem keeps_fenced (i : Nat) (call : Call F) (hs : s.captures i = none) :
    (program P H i call).Keeps (fence P origin) i (FenceTold i call) s := by
  have htame : ∀ call : Call F, (call.rights i).Tame →
      (program P H i call).Keeps (fence P origin) i (fun _ _ => True) s :=
    fun call h => Thread.Each.keeps (program_goes i call) fun _ _ hvalid hgoes =>
      goes_tame h hgoes hvalid
  cases call with
  | request client reserves method =>
      have hdispatch : ∀ owner t, (dispatchOwned P H i reserves method owner).Keeps
          (fence P origin) i (FenceTold i (.request client reserves method)) t :=
        fun owner t => keeps_dispatchOwned lenient_fence (fun r => stable_fenceTold _ r)
          (fun e u => by cases method <;> trivial) (fun _ _ u => by cases method <;> trivial)
          stable_of (fun u _ => gives_method method) trivial
      cases client with
      | none => exact hdispatch none s
      | some client =>
          exact keeps_callerDispatch' lenient_fence (fun r => stable_fenceTold _ r)
            (fun e u => by cases method <;> trivial) stable_of (fun t _ => hdispatch _ t) trivial
  | ingest mime bytes =>
      exact Thread.keeps_bind ((keeps_capture mime bytes hs).weaken fun _ _ _ => trivial)
  | publish mime bytes => exact htame _ (tame_asking id)
  | annotate id => exact htame _ (tame_annotated id)
  | setAdmission enabled => exact htame _ tame_admitted
  | startup =>
      have hretention : Takes P (holding i) i none (do
          let preferences ← readPreferences
          applyPolicy P H (.request i) (storePolicy preferences) : Act F Unit).run :=
        takes_run_bind takes_readPreferences fun _ => takes_applyPolicy governs_holding.requests _
      refine Thread.keeps_bind ((keeps_switching hretention).weaken fun _ t _ => ?_)
      exact Thread.keeps_bind
        ((keeps_switching (takes_resume governs_holding)).weaken fun _ _ _ => trivial)
  | shutdown =>
      exact Thread.keeps_bind ((keeps_switching (takes_quiesceLocked governs_holding)).weaken
        fun _ _ _ => trivial)
  | _ => exact htame _ tame_still

end Calls

/-! ## All runs -/

/-- Only the call of a captured selection may change the store under its source. -/
theorem rights_capture {i j : Nat} {call : Call F} {r : Request}
    (h : (call.rights j).requests (.capture i) r) :
    j = i ∧ ∃ mime bytes, call = .ingest mime bytes ∧ Handover i mime bytes (.capture i) r := by
  cases call with
  | ingest mime bytes =>
      obtain ⟨hsource, hr⟩ := h
      cases hsource
      exact ⟨rfl, mime, bytes, rfl, rfl, hr⟩
  | request | publish | annotate | setAdmission | startup | shutdown => cases h.1
  | _ => exact h.elim

/-- The commit is that of a selection that the call hands over. -/
def Hands (P : Platform) (i : Nat) (call : Call F) (commit : Commit) : Prop :=
  ∃ mime bytes, call = .ingest mime bytes ∧ ∃ r env reply, Handover i mime bytes (.capture i) r ∧
    r.effect P env commit.before = .ok (reply, commit.after)

theorem Goes.handed {P : Platform} {i j : Nat} {call : Call F} {s t : Daemon F} {commit : Commit}
    (h : Goes P j call s t) (hcommit : commit ∈ t.commits) (hsource : commit.source = .capture i) :
    commit ∈ s.commits ∨ j = i ∧ Hands P i call commit := by
  rcases h with hturn | ⟨name, -, rfl⟩
  · rcases hturn.recorded with ⟨-, hsame⟩ | ⟨source, r, env, reply, hr, heffect, -, hmore⟩
    · exact .inl (hsame ▸ hcommit)
    · rw [hmore] at hcommit
      rcases List.mem_append.mp hcommit with hold | hnew
      · exact .inl hold
      · obtain rfl := List.mem_singleton.mp hnew
        cases hsource
        obtain ⟨hsame, mime, bytes, hcall, hhandover⟩ := rights_capture hr
        exact .inr ⟨hsame, mime, bytes, hcall, r, env, reply, hhandover, heffect⟩
  · exact .inl hcommit

section Runs

variable {P : Platform} {H : Machine F} {ops : List DatabaseOp} {files : F} {clock now : Nat}
  {preferences : ClipboardSettings} {moves : List (Pool.Move (Call F) Chance)}

theorem handed_running : Pool.Numbered
    (fun i s => ∀ commit ∈ s.commits, commit.source ≠ .capture i)
    (fun i call s => ∀ commit ∈ s.commits, commit.source = .capture i → Hands P i call commit)
    (running P H ops files clock now preferences moves) := by
  refine Pool.numbered_after (P := Goes P) program_goes ?_ ?_ ?_ ?_ (Pool.each_start _)
    (Pool.numbered_start fun i commit hcommit => by cases hcommit) moves
  · exact fun i call s hnone commit hcommit hsource => (hnone commit hcommit hsource).elim
  · intro i call s t hgoes hs commit hcommit hsource
    exact (hgoes.handed hcommit hsource).elim (fun hold => hs commit hold hsource) And.right
  · intro i j call s t hne hgoes hnone commit hcommit hsource
    exact (hgoes.handed hcommit hsource).elim (fun hold => hnone commit hold hsource)
      fun hnew => hne hnew.1
  · intro i j call other s t hne hgoes hs commit hcommit hsource
    exact (hgoes.handed hcommit hsource).elim (fun hold => hs commit hold hsource)
      fun hnew => (hne hnew.1).elim

theorem fence_running : (fence P (Store.fresh.after P ops).committed).Keeps FenceTold
    (running P H ops files clock now preferences moves) := by
  have hstart : (fence P (Store.fresh.after P ops).committed).Keeps FenceTold
      (service (Store.fresh.after P ops) files clock now preferences :
        Pool (Daemon F) Chance (Call F) Reply) := by
    refine Discipline.keeps_start ?_ fun _ => rfl
    exact {
      leads := rfl
      settled := Store.after_settled P ops
      began := fun _ _ _ h => by cases h
      stopped := fun _ _ _ _ h => by cases h
      quiesced := fun _ h => by cases h
      current := fun _ _ h => by cases h
      ingesting := fun _ h => by cases h
      commits := fun _ _ h => by cases h }
  exact (Discipline.run_keeps (fun i call s _ hfresh => keeps_fenced i call hfresh)
    (fun i call reply s t _ _ hmove h => stable_fenceTold call reply s t hmove h) moves hstart).1

/-- An entry that was not there was added on the way. -/
theorem Leads.added {t u : Tables} {commits : List Commit} {id : String} (h : Leads P t commits u)
    (hnone : t.hasEntry id = false) (hsome : u.hasEntry id = true) :
    ∃ (k : Nat) (commit : Commit), commits[k]? = some commit ∧ commit.before.hasEntry id = false ∧
      commit.after.hasEntry id = true := by
  induction commits generalizing t with
  | nil =>
      obtain rfl := h
      rw [hnone] at hsome
      cases hsome
  | cons commit commits ih =>
      obtain ⟨hbefore, -, hrest⟩ := h
      cases hafter : commit.after.hasEntry id with
      | true => exact ⟨0, commit, rfl, hbefore ▸ hnone, hafter⟩
      | false =>
          obtain ⟨k, found, hk, hfound⟩ := ih hrest hafter
          exact ⟨k + 1, found, hk, hfound⟩

/-- A wipe is fenced.  In every run, once a wipe was answered, each entry of the history was added
after it by a captured selection whose transfer has begun after it. -/
theorem wipe_is_fenced {i : Nat} {client : Option (Transport × String)} {reserves : Bool}
    {params : WipeParams} {operation : OperationResult}
    (hwiped : (running P H ops files clock now preferences moves).Returned i
      (.request client reserves (.wipeCommit params)) (.ok (.operation operation))) :
    ∃ past t wiped later, (running P H ops files clock now preferences moves).shared.commits =
        past ++ ⟨.request i, t, wiped⟩ :: later ∧
      wiped.entries = [] ∧ wiped.payloads = [] ∧ wiped.searchContent = [] ∧
      ∀ id, (running P H ops files clock now preferences moves).shared.committed.hasEntry
        id = true →
        ∃ commit ∈ later, commit.before.hasEntry id = false ∧ commit.after.hasEntry id = true ∧
        ∃ j mime bytes rest session began, commit.source = .capture j ∧
          (running P H ops files clock now preferences moves).threads j =
            some (.ingest mime bytes, rest) ∧
          (running P H ops files clock now preferences moves).shared.captures j =
            some (session, began) ∧ past.length < began ∧
          ∃ env reply, (Request.insert (captureMime mime) bytes).effect P env commit.before =
            .ok (reply, commit.after) := by
  set p := running P H ops files clock now preferences moves with hp
  have hkeeps : (fence P (Store.fresh.after P ops).committed).Keeps FenceTold p := fence_running
  have hvalid : Guarded P (Store.fresh.after P ops).committed p.shared := hkeeps.valid
  obtain ⟨past, t, wiped, later, hcommits, hnone, hpoint⟩ : Wiped i p.shared :=
    hkeeps.threads i _ _ hwiped
  have hleads := hvalid.leads
  rw [hcommits] at hleads
  obtain ⟨before, hpast, rfl, hchange, hlater⟩ := leads_append.mp hleads
  have hwell : WellFormed P wiped :=
    hchange.wellFormed (hpast.wellFormed (Store.after_wellFormed P ops))
  obtain ⟨hpayloads, hsearch⟩ := hwell.emptied hnone
  refine ⟨past, _, wiped, later, hcommits, hnone, hpayloads, hsearch, fun id hid => ?_⟩
  have habsent : wiped.hasEntry id = false := by simp [Tables.hasEntry, hnone]
  obtain ⟨k, commit, hk, hbefore, hafter⟩ := hlater.added habsent hid
  have hindex : p.shared.commits[past.length + 1 + k]? = some commit := by
    rw [hcommits, List.getElem?_append_right (by omega)]
    simpa [Nat.add_sub_cancel_left, Nat.add_assoc, Nat.add_comm 1 k] using hk
  have hadds : ¬commit.before.AddsNothing commit.after := fun h => by
    rw [h id hafter] at hbefore
    cases hbefore
  obtain ⟨j, session, began, hsource, hbegan, hpoints⟩ :=
    (hvalid.commits _ commit hindex).resolve_left hadds
  have hmem : commit ∈ p.shared.commits := List.mem_of_getElem? hindex
  have hhands : ∃ call rest, p.threads j = some (call, rest) ∧ Hands P j call commit := by
    have hhanded := (handed_running : Pool.Numbered _ _ p) j
    rcases hthread : p.threads j with - | ⟨call, rest⟩
    · rw [hthread] at hhanded
      exact (hhanded commit hmem hsource).elim
    · rw [hthread] at hhanded
      exact ⟨call, rest, rfl, hhanded commit hmem hsource⟩
  obtain ⟨_, rest, hthread, mime, bytes, rfl, r, env, reply, ⟨-, hr⟩, heffect⟩ := hhands
  have hinsert : r = .insert (captureMime mime) bytes := hr.resolve_left fun haside => by
    refine hadds (Request.adds_nothing ?_ heffect)
    cases r with
    | insert mime bytes => cases haside
    | _ => rfl
  subst hinsert
  have hlt : past.length + 1 ≤ began := hpoints _ hpoint (by omega)
  exact ⟨commit, List.mem_of_getElem? hk, hbefore, hafter, j, mime, bytes, rest, session, began,
    hsource, hthread, hbegan, hlt, env, reply, heffect⟩

/-- What was being transferred when capture was found stopped is not added any more. -/
theorem Later.stale {s t : Daemon F} {origin : Tables} {j k : Nat} {commit : Commit}
    (h : Later s t) (hs : Guarded P origin s) (hstopped : s.captureFenced = true)
    (hbegun : s.captures j ≠ none) (hle : s.commits.length ≤ k)
    (hk : t.commits[k]? = some commit) (hsource : commit.source = .capture j) :
    commit.before.AddsNothing commit.after := by
  refine (h.added k commit hle hk).resolve_right ?_
  rintro ⟨j', hsource', hsince⟩
  cases hsource.symm.trans hsource'
  simp only [captureFenced, Bool.and_eq_true, Bool.not_eq_true', List.isEmpty_iff] at hstopped
  obtain ⟨⟨session, began⟩, hbegan⟩ := Option.ne_none_iff_exists'.mp hbegun
  rcases hsince with hj | ⟨session', began', hbegan', hle'⟩
  · rw [hstopped.2] at hj
    cases hj
  · have hlt : session < s.session := hs.stopped hstopped.1 j session began hbegan
    cases (h.captures j _ hbegan).symm.trans hbegan'
    omega

theorem grows_running (more : List (Pool.Move (Call F) Chance)) :
    Idles (running P H ops files clock now preferences moves).shared
      (running P H ops files clock now preferences (moves ++ more)).shared := by
  rw [show running P H ops files clock now preferences (moves ++ more) =
    (running P H ops files clock now preferences moves).after (program P H) more from
      Pool.after_append moves more]
  exact (Discipline.run_keeps (fun i call s _ hfresh => keeps_fenced i call hfresh)
    (fun i call reply s t _ _ hmove h => stable_fenceTold call reply s t hmove h) more
    (fence_running : (fence P (Store.fresh.after P ops).committed).Keeps FenceTold _)).2

/-- Paused means paused.  In every run, once a pause was answered, no entry is added and capture
stays stopped, until somebody takes the lock of the settings again; and what was being
transferred then is never captured, not even when capture has been resumed. -/
theorem paused_adds_nothing {i : Nat} {client : Option (Transport × String)} {reserves : Bool}
    {method : Method} {updated : ClipboardSettings}
    (hmethod : (∃ paused priv, method = .setPaused paused priv) ∨
      ∃ update, method = .updateSettings update)
    (hreturned : (running P H ops files clock now preferences moves).Returned i
      (.request client reserves method) (.ok (.settings updated)))
    (hpaused : updated.capturePaused = true)
    (hlast : (running P H ops files clock now preferences moves).shared.governors.getLast? = some i)
    (more : List (Pool.Move (Call F) Chance)) :
    ((running P H ops files clock now preferences (moves ++ more)).shared.governors =
        (running P H ops files clock now preferences moves).shared.governors →
      (running P H ops files clock now preferences (moves ++ more)).shared.captureFenced = true ∧
      (running P H ops files clock now preferences moves).shared.committed.AddsNothing
        (running P H ops files clock now preferences (moves ++ more)).shared.committed) ∧
    ∀ commit ∈ (running P H ops files clock now preferences (moves ++ more)).shared.commits.drop
        (running P H ops files clock now preferences moves).shared.commits.length,
      ∀ j, commit.source = .capture j →
        (running P H ops files clock now preferences moves).shared.captures j ≠ none →
        commit.before.AddsNothing commit.after := by
  have hkeeps : (fence P (Store.fresh.after P ops).committed).Keeps FenceTold
      (running P H ops files clock now preferences moves) := fence_running
  have htold : Paused i (running P H ops files clock now preferences moves).shared := by
    rcases hmethod with ⟨paused, priv, rfl⟩ | ⟨update, rfl⟩ <;>
      exact hkeeps.threads i _ _ hreturned hpaused
  obtain ⟨hfree, hstopped⟩ := htold hlast
  have hidles : Idles (running P H ops files clock now preferences moves).shared
      (running P H ops files clock now preferences (moves ++ more)).shared := grows_running more
  refine ⟨fun hsame => (hidles.idle hsame hfree hstopped).2,
    fun commit hcommit j hsource hbegun => ?_⟩
  obtain ⟨k, hk⟩ := List.mem_iff_getElem?.mp hcommit
  rw [List.getElem?_drop] at hk
  exact hidles.later.stale hkeeps.valid hstopped hbegun (Nat.le_add_right _ _) hk hsource

/-- The transfer of a selection begins, and capture is paused before it ends. -/
def pausing : List (Pool.Move (Call Unit) Chance) :=
  .call 0 (.request none false (.setPaused false false)) :: steps 0 12 ++
  .call 1 (.ingest "text/plain" (asBytes "ha")) :: steps 1 1 ++
  .call 2 (.request none false (.setPaused true true)) :: steps 2 11

/-- Then it ends, and another one is copied. -/
def copying : List (Pool.Move (Call Unit) Chance) :=
  steps 1 10 ++ .call 3 (.ingest "text/plain" (asBytes "ho")) :: steps 3 10

/-- Capture is resumed, the transfer ends, and another selection is copied. -/
def resuming : List (Pool.Move (Call Unit) Chance) :=
  .call 3 (.request none false (.setPaused false false)) :: steps 3 12 ++
  .call 4 (.setAdmission true) :: steps 4 8 ++ steps 1 10 ++
  .call 5 (.ingest "text/plain" (asBytes "ho")) :: steps 5 10

set_option maxRecDepth 100000 in
theorem pause_of_text :
    (running .plain emptyMachine copied () 0 0 .default
      (pausing ++ copying)).shared.captureFenced = true ∧
    (running .plain emptyMachine copied () 0 0 .default pausing).shared.committed.AddsNothing
      (running .plain emptyMachine copied () 0 0 .default (pausing ++ copying)).shared.committed ∧
    ∀ commit ∈
      (running .plain emptyMachine copied () 0 0 .default (pausing ++ resuming)).shared.commits.drop
        (running .plain emptyMachine copied () 0 0 .default pausing).shared.commits.length,
      commit.source = .capture 1 → commit.before.AddsNothing commit.after := by
  have hpaused : ∃ updated, (running .plain emptyMachine copied () 0 0 .default pausing).Returned 2
      (.request none false (.setPaused true true)) (.ok (.settings updated)) ∧
        updated.capturePaused = true := ⟨_, rfl, rfl⟩
  obtain ⟨updated, hreturned, hpaused⟩ := hpaused
  have hbegun :
      (running .plain emptyMachine copied () 0 0 .default pausing).shared.captures 1 ≠ none := by
    intro h
    cases h
  have hquiet := (paused_adds_nothing (.inl ⟨true, true, rfl⟩) hreturned hpaused rfl copying).1 rfl
  refine ⟨hquiet.1, hquiet.2, fun commit hcommit hsource => ?_⟩
  exact (paused_adds_nothing (.inl ⟨true, true, rfl⟩) hreturned hpaused rfl resuming).2
    commit hcommit 1
    hsource hbegun

/-- The transfer of a selection begins, and its history is wiped before it ends; another selection
is copied afterwards. -/
def wiping : List (Pool.Move (Call Unit) Chance) :=
  .call 0 (.request none false (.setPaused false false)) :: steps 0 12 ++
  .call 1 (.ingest "text/plain" (asBytes "ha")) :: steps 1 1 ++
  .call 2 (.request none false .wipePrepare) :: steps 2 6 ++
  .call 3 (.request none false (.wipeCommit ⟨2, "WIPE"⟩)) :: steps 3 40 ++ steps 1 1 ++
  .call 4 (.setAdmission true) :: steps 4 8 ++
  .call 5 (.ingest "text/plain" (asBytes "ho")) :: steps 5 10

set_option maxRecDepth 100000 in
theorem wipe_of_text :
    ∃ past t wiped later,
      (running .plain emptyMachine copied () 0 0 .default wiping).shared.commits =
        past ++ ⟨.request 3, t, wiped⟩ :: later ∧
      wiped.entries = [] ∧ wiped.payloads = [] ∧ wiped.searchContent = [] ∧
      ∀ id, (running .plain emptyMachine copied () 0 0 .default wiping).shared.committed.hasEntry
        id =
          true →
        ∃ commit ∈ later, commit.before.hasEntry id = false ∧ commit.after.hasEntry id = true ∧
        ∃ j mime bytes rest session began, commit.source = .capture j ∧
          (running .plain emptyMachine copied () 0 0 .default wiping).threads j =
            some (.ingest mime bytes, rest) ∧
          (running .plain emptyMachine copied () 0 0 .default wiping).shared.captures j =
            some (session, began) ∧ past.length < began ∧
          ∃ env reply, (Request.insert (captureMime mime) bytes).effect .plain env commit.before =
            .ok (reply, commit.after) := by
  have hwiped : ∃ operation, (running .plain emptyMachine copied () 0 0 .default wiping).Returned 3
      (.request none false (.wipeCommit ⟨2, "WIPE"⟩)) (.ok (.operation operation)) := ⟨_, rfl⟩
  obtain ⟨operation, hwiped⟩ := hwiped
  exact wipe_is_fenced hwiped

end Runs

end Daemon

end ClipDaemon
