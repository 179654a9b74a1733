import ClipDaemon.Daemon.Commits

/-!
# Nothing is written over that was not shown

A client edits what it was shown, and an editor edits the picture that it was given.  Between the
showing and the writing other requests go on, the history is changed by captures, and the
transaction lock is free.  Revisions alone keep the two together (`actions.rs`,
`history/mutation.rs`): a replacement names the revision that was shown, and fails if the entry
has another one.

So in every run, what an edit or an annotation replaces has been there, as it was shown, in all
tables from the showing on.
-/

namespace ClipDaemon

namespace Daemon

variable {F : Type}

/-! ## Reading and writing -/

section Order

variable {P : Platform} {env : Env} {reply : ClipDaemon.Reply} {t t' origin seen : Tables}

/-- A replacement moves the revision of the catalog. -/
theorem replace_changes {id mime : String} {expected : Nat} {bytes : Bytes}
    (h : (Request.replace id expected mime bytes).effect P env t = .ok (reply, t')) : t' ≠ t := by
  rintro rfl
  obtain ⟨summary, -, hbody⟩ := Request.entry_ok h
  obtain ⟨e, -, -, -, -, -, hreplaced, -⟩ := Database.replace_ok hbody
  have hrevision := congrArg (fun t : Tables => t.storeMeta.revision) hreplaced
  simp only [storeMeta_retained, Tables.replaced, Tables.written, storeMeta_linked] at hrevision
  exact absurd hrevision (Nat.ne_of_lt (Nat.lt_succ_self t'.storeMeta.revision))

/-- A request that names a revision is made where it was read before, and nothing has touched
the entry since. -/
theorem written_over {earlier later past rest : List Commit} {commit : Commit} {e : EntryRow}
    {r : Request} (horigin : WellFormed P origin) (hread : Leads P origin earlier seen)
    (hwrite : Leads P origin past commit.before)
    (hsplit : earlier ++ later = past ++ commit :: rest)
    (he : e ∈ seen.entries) (hn : r.Names e.id e.revision)
    (heffect : r.effect P env commit.before = .ok (reply, commit.after))
    (hchanged : commit.after ≠ commit.before) :
    ∃ between, past = earlier ++ between ∧ Leads P seen between commit.before ∧
      ∀ t ∈ tables seen between, seen.Keeps e t := by
  have hseen : WellFormed P seen := hread.wellFormed horigin
  have hbefore : WellFormed P commit.before := hwrite.wellFormed horigin
  have hcarries : commit.before.Carries e.id e.revision :=
    Request.carries_of_names hbefore.stamped hn heffect
  have hlast : ∀ {between}, past = earlier ++ between → ∃ between, past = earlier ++ between ∧
      Leads P seen between commit.before ∧ ∀ t ∈ tables seen between, seen.Keeps e t := by
    rintro between rfl
    obtain ⟨v, hv, hbetween⟩ := leads_append.mp hwrite
    obtain rfl := hv.unique hread
    obtain ⟨e', he', hid, hrevision⟩ := hcarries
    exact ⟨between, rfl, hbetween, hbetween.kept hseen he he' hid hrevision⟩
  rcases List.append_eq_append_iff.mp hsplit with ⟨between, hpast, -⟩ | ⟨missed, hearlier, hrest⟩
  · exact hlast hpast
  · cases missed with
    | nil => exact hlast (by rw [hearlier, List.append_nil, List.append_nil])
    | cons first missed =>
        -- the change is older than the read, which then shows a revision that was gone
        obtain ⟨rfl, -⟩ := List.cons.inj hrest
        rw [hearlier] at hread
        obtain ⟨v, -, hcommit, hchange, hmissed⟩ := leads_append.mp hread
        obtain rfl := hcommit
        obtain ⟨e', he', hid, hrevision⟩ := hcarries
        have hle : e.revision ≤ commit.after.storeMeta.revision :=
          (hrevision ▸ hbefore.stamped.revision_le e' he').trans (hchange.advances hbefore).clock_le
        exact absurd ⟨e, he, rfl, rfl⟩ (hmissed.not_carries (hchange.wellFormed hbefore) hle
          (Request.not_carries_of_names hbefore hn heffect hchanged))

/-- What is replaced at the revision that was read was there from the reading on. -/
theorem replaced_over {earlier later past rest : List Commit} {commit : Commit} {e : EntryRow}
    {entryId mime : String} {bytes : Bytes} (horigin : WellFormed P origin)
    (hread : Leads P origin earlier seen) (hwrite : Leads P origin past commit.before)
    (hsplit : earlier ++ later = past ++ commit :: rest)
    (he : Database.findEntry entryId seen = some e)
    (heffect : (Request.replace entryId e.revision mime bytes).effect P env commit.before =
      .ok (reply, commit.after)) :
    ∃ between, past = earlier ++ between ∧ Leads P seen between commit.before ∧
      ∀ t ∈ tables seen between, seen.Keeps e t := by
  obtain ⟨hmem, rfl⟩ := Database.findEntry_some he
  have hnames : Request.Names e.id e.revision (.replace e.id e.revision mime bytes) := ⟨rfl, rfl⟩
  exact written_over horigin hread hwrite hsplit hmem hnames heffect (replace_changes heffect)

/-- The client was shown an entry of the tables. -/
theorem Shown.found {s : Daemon F} {i : Nat} {id : Uuid} {entryId mime value : String}
    {revision : Nat} (h : Shown P origin [] i id entryId revision mime value s) :
    ∃ earlier later seen e, s.commits = earlier ++ later ∧ Leads P origin earlier seen ∧
      Database.findEntry entryId seen = some e ∧ e.revision = revision ∧ e.resolvedMime = mime ∧
      fromUtf8 (seen.bytesOf entryId) = some value := by
  obtain ⟨-, -, queried, stored, hanswered, hid, hrevision, hmime, htext⟩ := h
  obtain ⟨earlier, later, seen, _, _, hcommits, -, hread, hget, -⟩ := hanswered
  obtain ⟨e, he, -, rfl, -⟩ := get_effect hget
  obtain ⟨-, rfl⟩ := Database.findEntry_some he
  subst hid hrevision hmime
  exact ⟨earlier, later, seen, e, hcommits, hread, he, rfl, rfl, htext⟩

/-- A revision is written over once. -/
theorem written_once {past between rest : List Commit} {first second : Commit} {last : Tables}
    {id : String} {revision : Nat} {r r' : Request} {env' : Env} {reply' : ClipDaemon.Reply}
    (horigin : WellFormed P origin)
    (hleads : Leads P origin (past ++ first :: (between ++ second :: rest)) last)
    (hn : r.Names id revision) (heffect : r.effect P env first.before = .ok (reply, first.after))
    (hchanged : first.after ≠ first.before) (hn' : r'.Names id revision)
    (heffect' : r'.effect P env' second.before = .ok (reply', second.after)) : False := by
  obtain ⟨v, hpast, hfirst, hchange, hafter⟩ := leads_append.mp hleads
  obtain rfl := hfirst
  obtain ⟨w, hbetween, hsecond, -, -⟩ := leads_append.mp hafter
  obtain rfl := hsecond
  have hbefore : WellFormed P first.before := hpast.wellFormed horigin
  have hwell : WellFormed P first.after := hchange.wellFormed hbefore
  obtain ⟨e, he, -, hrevision⟩ := Request.carries_of_names hbefore.stamped hn heffect
  have hle : revision ≤ first.after.storeMeta.revision :=
    (hrevision ▸ hbefore.stamped.revision_le e he).trans (hchange.advances hbefore).clock_le
  exact hbetween.not_carries hwell hle (Request.not_carries_of_names hbefore hn heffect hchanged)
    (Request.carries_of_names (hbetween.wellFormed hwell).stamped hn' heffect')

end Order

/-! ## All runs -/

section Runs

variable {P : Platform} {H : Machine F} {ops : List DatabaseOp} {files : F} {clock now : Nat}
  {preferences : ClipboardSettings} {moves : List (Pool.Move (Call F) Chance)}

theorem archived_initial (P : Platform) (H : Machine F) (ops : List DatabaseOp) (files : F)
    (clock now : Nat) (preferences : ClipboardSettings) :
    Archived P H (Store.fresh.after P ops).committed []
      (initial (Store.fresh.after P ops) files clock now preferences) where
  since := List.nil_prefix
  leads := rfl
  settled := Store.after_settled P ops
  leases _ _ h := by cases h
  stages _ _ h := by cases h
  operations _ h := by cases h

/-- A run after the store was opened. -/
def running (P : Platform) (H : Machine F) (ops : List DatabaseOp) (files : F) (clock now : Nat)
    (preferences : ClipboardSettings) (moves : List (Pool.Move (Call F) Chance)) :
    Pool (Daemon F) Chance (Call F) Reply :=
  (service (Store.fresh.after P ops) files clock now preferences).after (program P H) moves

theorem archived_running : (archive P H (Store.fresh.after P ops).committed []).Keeps
    (Told P H.codec (Store.fresh.after P ops).committed [])
    (running P H ops files clock now preferences moves) := by
  have hstart : (archive P H (Store.fresh.after P ops).committed []).Keeps
      (Told P H.codec (Store.fresh.after P ops).committed [])
      (service (Store.fresh.after P ops) files clock now preferences :
        Pool (Daemon F) Chance (Call F) Reply) :=
    Discipline.keeps_start (archived_initial P H ops files clock now preferences)
      fun _ => ⟨fun _ h => (by cases h), rfl⟩
  exact (Discipline.run_keeps (fun i call s _ hfresh => keeps_calls i call hfresh)
    (fun i call reply s t _ _ hmove h => stable_told call reply s t hmove h) moves hstart).1

/-- An edit is written over the entry that the client was shown.  In every run, the request that
saved it has replaced the entry at the revision of the lease, and from the tables in which the
client was shown the entry to those in which it was replaced, all tables have it as it was. -/
theorem edit_replaces_what_was_shown {i j : Nat} {client client' : Option (Transport × String)}
    {reserves reserves' : Bool} {params : EntryParams} {saved : EditCommitParams}
    {entryId mime value : String} {revision : Nat} {replacement : ReplacementResult}
    {paste : Option Bool}
    (hbegan : (running P H ops files clock now preferences moves).Returned i
      (.request client reserves (.editBegin params))
      (.ok (.authority (.edit saved.editId entryId revision mime value))))
    (hsaved : (running P H ops files clock now preferences moves).Returned j
      (.request client' reserves' (.editCommit saved)) (.ok (.replaced replacement paste))) :
    ∃ earlier between commit later seen e,
      (running P H ops files clock now preferences moves).shared.commits =
        earlier ++ between ++ commit :: later ∧
      Leads P (Store.fresh.after P ops).committed earlier seen ∧
      Leads P seen between commit.before ∧
      Database.findEntry entryId seen = some e ∧ e.revision = revision ∧ e.resolvedMime = mime ∧
      fromUtf8 (seen.bytesOf entryId) = some value ∧
      (∀ t ∈ tables seen between, seen.Keeps e t) ∧ commit.source = .request j ∧
      ∃ env reply, (Request.replace entryId revision mime (asBytes saved.value)).effect P env
        commit.before = .ok (reply, commit.after) := by
  set p := running P H ops files clock now preferences moves with hp
  have hkeeps : (archive P H (Store.fresh.after P ops).committed []).Keeps
      (Told P H.codec (Store.fresh.after P ops).committed []) p := archived_running
  have hshown : Shown P (Store.fresh.after P ops).committed [] i saved.editId entryId revision mime
      value p.shared := hkeeps.threads i _ _ hbegan
  obtain ⟨earlier, later, seen, e, hcommits, hread, he, rfl, rfl, htext⟩ := hshown.found
  obtain ⟨rfl, hlease, -⟩ := hshown
  obtain ⟨lease, hleased, reply, past, later', before, after, env, hcommits', -, hwrite,
      heffect, hafter⟩ :
      Saved P (Store.fresh.after P ops).committed [] j saved p.shared := hkeeps.threads j _ _ hsaved
  obtain ⟨hlid, hlrevision, hlmime⟩ := hlease lease hleased
  rw [hlid, hlrevision, hlmime] at heffect
  obtain ⟨rest, rfl⟩ := hafter.resolve_left (replace_changes heffect)
  obtain ⟨between, rfl, hbetween, hkept⟩ := replaced_over (Store.after_wellFormed P ops) hread
    hwrite (hcommits.symm.trans hcommits') he heffect
  exact ⟨earlier, between, _, rest, seen, e, hcommits', hread, hbetween, he, rfl, rfl,
    htext, hkept, rfl, env, reply, heffect⟩

/-- A text is copied. -/
def copied : List DatabaseOp :=
  [.request (.applyPolicy { StorePolicy.default with admission := true }) ⟨.empty, "p"⟩ .none,
   .request (.insert "text/plain" (asBytes "hi")) ⟨.empty, "a"⟩ .none]

def saving : EditCommitParams := ⟨0, "ho", none⟩

/-- Another text is captured while the first one is edited. -/
def editing : List (Pool.Move (Call Unit) Chance) :=
  .call 3 (.request none false (.setPaused false false)) :: steps 3 10 ++
  .call 0 (.request none false (.editBegin ⟨"entry-a", none⟩)) :: steps 0 10 ++
  .call 1 (.ingest "text/plain" (asBytes "ha")) :: steps 1 10 ++
  .call 2 (.request none false (.editCommit saving)) :: steps 2 19

set_option maxRecDepth 100000 in
theorem edit_after_capture :
    ∃ earlier between commit later seen e,
      (running .png emptyMachine copied () 0 0 .default editing).shared.commits =
        earlier ++ between ++ commit :: later ∧
      Leads .png (Store.fresh.after .png copied).committed earlier seen ∧
      Leads .png seen between commit.before ∧
      Database.findEntry "entry-a" seen = some e ∧ e.revision = 2 ∧ e.resolvedMime = "text/plain" ∧
      fromUtf8 (seen.bytesOf "entry-a") = some "hi" ∧
      (∀ t ∈ tables seen between, seen.Keeps e t) ∧ commit.source = .request 2 ∧
      ∃ env reply, (Request.replace "entry-a" 2 "text/plain" (asBytes saving.value)).effect .png env
        commit.before = .ok (reply, commit.after) := by
  have hsaved : ∃ replacement, (running .png emptyMachine copied () 0 0 .default editing).Returned 2
      (.request none false (.editCommit saving)) (.ok (.replaced replacement none)) :=
    ⟨_, rfl⟩
  obtain ⟨replacement, hsaved⟩ := hsaved
  have hbegan : (running .png emptyMachine copied () 0 0 .default editing).Returned 0
      (.request none false (.editBegin ⟨"entry-a", none⟩))
      (.ok (.authority (.edit saving.editId "entry-a" 2 "text/plain" "hi"))) := rfl
  exact edit_replaces_what_was_shown hbegan hsaved

/-- An annotation is written over the entry whose picture the editor was given, and once.  In
every run, all tables from those in which the picture was taken to those in which it was replaced
have the entry as it was, and what replaces it is a picture that decodes. -/
theorem annotation_replaces_what_was_staged {id : Uuid} {past rest : List Commit} {commit : Commit}
    (hcommits : (running P H ops files clock now preferences moves).shared.commits =
      past ++ commit :: rest)
    (hsource : commit.source = .operation id) :
    ∃ staged earlier between seen e bytes env reply,
      (running P H ops files clock now preferences moves).shared.stages id = some staged ∧
      past = earlier ++ between ∧ Leads P (Store.fresh.after P ops).committed earlier seen ∧
      Leads P seen between commit.before ∧
      Database.findEntry staged.opaqueId seen = some e ∧ e.revision = staged.revision ∧
      e.kind = .image ∧ (∀ t ∈ tables seen between, seen.Keeps e t) ∧
      P.readerFormat bytes = some "image/png" ∧ H.decodes bytes = true ∧
      (Request.replace staged.opaqueId staged.revision "image/png" bytes).effect P env
        commit.before =
        .ok (reply, commit.after) ∧
      ∀ other ∈ past ++ rest, other.source ≠ .operation id := by
  set p := running P H ops files clock now preferences moves with hp
  have hkeeps : (archive P H (Store.fresh.after P ops).committed []).Keeps
      (Told P H.codec (Store.fresh.after P ops).committed []) p := archived_running
  have hvalid : Archived P H (Store.fresh.after P ops).committed [] p.shared := hkeeps.valid
  have horigin := Store.after_wellFormed P ops
  have hleads := hvalid.leads
  rw [hcommits] at hleads
  obtain ⟨v, hpast, hv, -, -⟩ := leads_append.mp hleads
  obtain rfl := hv
  have hmem : ∀ other ∈ past ++ commit :: rest, other ∈ p.shared.commits := fun other h => by
    rw [hcommits]
    exact h
  obtain ⟨staged, hstaged, -, env, reply, ⟨bytes, hformat, hdecodes, rfl⟩, heffect⟩ :=
    hvalid.operations commit (hmem commit (by simp)) id hsource
  have hnames : ∀ bytes, Request.Names staged.opaqueId staged.revision
      (.replace staged.opaqueId staged.revision "image/png" bytes) := fun _ => ⟨rfl, rfl⟩
  have hchanged : commit.after ≠ commit.before := replace_changes heffect
  obtain ⟨expected, stored, hanswered, hkind, hrevision⟩ := hvalid.stages id staged hstaged
  obtain ⟨earlier, later, seen, _, _, hsplit, -, hread, hget, -⟩ := hanswered
  obtain ⟨e, he, -, rfl, -⟩ := get_effect hget
  obtain ⟨heseen, hid⟩ := Database.findEntry_some he
  obtain ⟨between, hbetween, hleadsBetween, hkept⟩ := written_over horigin hread hpast
    (hsplit.symm.trans hcommits) heseen
    (by rw [hid, show e.revision = staged.revision from hrevision]; exact hnames bytes) heffect
    hchanged
  refine ⟨staged, earlier, between, seen, e, bytes, env, reply, hstaged, hbetween, hread,
    hleadsBetween,
    he, hrevision, hkind, hkept, hformat, hdecodes, heffect, fun other hother hsame => ?_⟩
  -- another replacement would name the same revision
  have hin : other ∈ past ++ commit :: rest := by
    rcases List.mem_append.mp hother with h | h <;> simp [h]
  obtain ⟨staged', hstaged', -, env', reply', ⟨bytes', -, -, rfl⟩, heffect'⟩ :=
    hvalid.operations other (hmem other hin) id hsame
  obtain rfl : staged' = staged := Option.some.inj (hstaged'.symm.trans hstaged)
  rcases List.mem_append.mp hother with hbefore | hafter
  · obtain ⟨l, m, rfl⟩ := List.append_of_mem hbefore
    rw [List.append_assoc, List.cons_append] at hleads
    exact written_once horigin hleads (hnames bytes') heffect' (replace_changes heffect')
      (hnames bytes) heffect
  · obtain ⟨l, m, rfl⟩ := List.append_of_mem hafter
    exact written_once horigin hleads (hnames bytes) heffect hchanged (hnames bytes') heffect'

/-- A picture is copied. -/
def drawn : List DatabaseOp :=
  [.request (.applyPolicy { StorePolicy.default with admission := true }) ⟨.empty, "p"⟩ .none,
   .request (.insert "image/png" picture) ⟨.empty, "a"⟩ .none]

/-- A machine on which every file is that picture. -/
def studio : Machine Unit :=
  { emptyMachine with
    world _ := ⟨fun _ => some ⟨true, 67, 0, 0, 0⟩, fun _ => true, fun _ => some (67, picture)⟩
    decodes _ := true }

/-- The picture is given to the editor, which returns. -/
def annotating : List (Pool.Move (Call Unit) Chance) :=
  .call 0 (.request none false (.entryAction ⟨"entry-a", 2, "annotate", none, none⟩)) ::
    steps 0 22 ++
  List.replicate 6 (.step 0 { calm with jobs := .backend (.uuid 0) }) ++
  .call 1 (Call.annotate 0) ::
    List.replicate 15 (.step 1 { calm with authority := { calm.authority with flag := false } })

set_option maxRecDepth 100000 in
theorem annotation_of_picture :
    ∃ past commit rest, (running .png studio drawn () 0 0 .default annotating).shared.commits =
        past ++ commit :: rest ∧
      ∃ staged earlier between seen e bytes env reply,
        (running .png studio drawn () 0 0 .default annotating).shared.stages 0 = some staged ∧
        past = earlier ++ between ∧
          Leads .png (Store.fresh.after .png drawn).committed earlier seen ∧
        Leads .png seen between commit.before ∧
        Database.findEntry staged.opaqueId seen = some e ∧ e.revision = staged.revision ∧
        e.kind = .image ∧ (∀ t ∈ tables seen between, seen.Keeps e t) ∧
        Platform.png.readerFormat bytes = some "image/png" ∧ studio.decodes bytes = true ∧
        (Request.replace staged.opaqueId staged.revision "image/png" bytes).effect .png env
          commit.before = .ok (reply, commit.after) ∧
        ∀ other ∈ past ++ rest, other.source ≠ .operation 0 := by
  have hcommits : ∃ commit, (running .png studio drawn () 0 0 .default annotating).shared.commits =
      [] ++ [commit] ∧ commit.source = .operation 0 := ⟨_, rfl, rfl⟩
  obtain ⟨commit, hcommits, hsource⟩ := hcommits
  exact ⟨[], commit, [], hcommits, annotation_replaces_what_was_staged hcommits hsource⟩

end Runs

end Daemon

end ClipDaemon
