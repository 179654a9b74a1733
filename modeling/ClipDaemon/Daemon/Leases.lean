import ClipDaemon.Daemon.Failures

/-!
# An edit is saved over what was shown, or not at all

The commit of an edit redeems a lease, and asks the store for one replacement, at the revision of
the lease (`EditLease::replace` of `actions.rs`).  So whatever it answers, what it has committed is
this replacement or leaves the entries alone, and a replacement is made only where nothing has
touched the entry since it was shown.

`lending` is the discipline under which this is so.
-/

namespace ClipDaemon.Daemon

variable {F : Type}

/-- The commit replaces what a lease of that number names. -/
def Redeems (P : Platform) (saved : EditCommitParams) (s : Daemon F) (commit : Commit) : Prop :=
  ∃ lease, (saved.editId, lease) ∈ s.leases ∧ ∃ env reply,
    (Request.replace lease.entryId lease.revision lease.mime (asBytes saved.value)).effect P env
      commit.before = .ok (reply, commit.after)

/-- What request `i` has committed leaves the entries as they were, or replaces what the lease
names. -/
def Leased (P : Platform) (i : Nat) (saved : EditCommitParams) (s : Daemon F) : Prop :=
  ∀ commit ∈ s.commits, commit.source = .request i →
    SameEntries commit.before commit.after ∨ Redeems P saved s commit

/-- All leases that can be redeemed have been handed out, and threads are beside each other. -/
def lending : Discipline (Daemon F) where
  valid s := ∀ id lease, s.authority.edits id = some lease → (id, lease) ∈ s.leases
  grows _ _ := True
  rely i s t := Beside i s t ∧ s.leases <+: t.leases
  fresh := faults.fresh
  grows_refl _ := trivial
  grows_trans _ _ := trivial
  rely_refl i s := ⟨faults.rely_refl i s, List.prefix_rfl⟩
  rely_trans h h' := ⟨faults.rely_trans h.1 h'.1, h.2.trans h'.2⟩
  fresh_rely h := faults.fresh_rely h.1

section Lending

variable {α : Type} {P : Platform} {H : Machine F} {rights : Rights} {i j : Nat} {owner : Owner}
  {saved : EditCommitParams} {lease : EditLease} {s t : Daemon F}

theorem Turn.lends (h : Turn P rights i owner s t) : s.leases <+: t.leases := by
  obtain ⟨more, hmore, -⟩ := h.leases
  exact ⟨more, hmore.symm⟩

theorem Turn.lent (h : Turn P rights i owner s t) (hs : (lending (F := F)).valid s) :
    (lending (F := F)).valid t := by
  intro id lease hlease
  rcases h.edits id lease hlease with hold | ⟨-, -, hnew⟩
  · exact h.lends.mem (hs id lease hold)
  · exact hnew

theorem Goes.lending {call : Call F} (hs : (lending (F := F)).valid s) (h : Goes P i call s t) :
    (lending (F := F)).Allows i s t := by
  have hbeside : ∀ j, j ≠ i → Beside j s t := fun _ hne => h.beside hne
  rcases h with h | ⟨name, -, rfl⟩
  · exact ⟨h.lent hs, trivial, fun j hne => ⟨hbeside j hne, h.lends⟩⟩
  · exact ⟨hs, trivial, fun j hne => ⟨hbeside j hne, List.prefix_rfl⟩⟩

theorem mild_lending {m : Thread (Daemon F) Chance α} (hm : Takes P idle i owner m) :
    m.Mild lending i := by
  have hturn : ∀ {s t : Daemon F} (j : Nat), Turn P idle i owner s t →
      Beside j s t ∧ s.leases <+: t.leases := fun _ h => ⟨h.beside fun _ hr => hr, h.lends⟩
  exact Thread.mild_of_each hm (fun s t hs h => ⟨h.lent hs, trivial, fun j _ => hturn j h⟩)
    fun s t _ h => hturn i h

theorem lenient_lending : Lenient P (lending : Discipline (Daemon F)) := fun _ _ hm =>
  mild_lending (hm none)

theorem Redeems.mono {commit : Commit} (h : Redeems P saved s commit)
    (hleases : s.leases <+: t.leases) : Redeems P saved t commit := by
  obtain ⟨lease, hlease, heffect⟩ := h
  exact ⟨lease, hleases.mem hlease, heffect⟩

theorem stable_redeems : Thread.Stable (lending.rely i) (Leased (F := F) P i saved) := by
  rintro s t ⟨⟨⟨more, hmore, hothers⟩, -⟩, hleases⟩ h commit hcommit hsource
  rw [hmore] at hcommit
  rcases List.mem_append.mp hcommit with hold | hnew
  · exact (h commit hold hsource).imp_right fun hredeems => hredeems.mono hleases
  · exact absurd hsource (hothers commit hnew)

theorem stable_lent {id : Uuid} :
    Thread.Stable (lending.rely i) fun s : Daemon F => (id, lease) ∈ s.leases :=
  fun _ _ hmove h => hmove.2.mem h

/-- What the request may do to the store that saves an edit under a lease. -/
def replacing (i : Nat) (lease : EditLease) (value : String) : Rights :=
  .only fun source r => source = .request i ∧
    (r.isAside = true ∨ r = .replace lease.entryId lease.revision lease.mime (asBytes value))

theorem Turn.leased (h : Turn P (replacing i lease saved.value) i owner s t)
    (hlease : (saved.editId, lease) ∈ s.leases) (hs : Leased P i saved s) :
    Leased P i saved t := by
  intro commit hcommit hsource
  rcases h.recorded with ⟨-, hcommits⟩ | ⟨source, r, env, reply, ⟨-, hr⟩, heffect, -, hcommits⟩
  · exact (hs commit (hcommits ▸ hcommit) hsource).imp_right fun h' => h'.mono h.lends
  · rw [hcommits] at hcommit
    rcases List.mem_append.mp hcommit with hold | hnew
    · exact (hs commit hold hsource).imp_right fun h' => h'.mono h.lends
    · obtain rfl := List.mem_singleton.mp hnew
      rcases hr with haside | rfl
      · exact .inl (Request.effect_isAside haside heffect)
      · exact .inr ⟨lease, h.lends.mem hlease, env, reply, heffect⟩

/-! ## The programs -/

theorem upholds_replaceLeased (maxBytes : Nat) :
    (replaceLeased P H i lease saved.value maxBytes).run.Upholds lending i
      fun s => Leased P i saved s ∧ (saved.editId, lease) ∈ s.leases := by
  have haside : ∀ r : Request, r.isAside = true →
      (replacing i lease saved.value).requests (.request i) r := fun r h => ⟨rfl, .inl h⟩
  have htakes : Takes P (replacing i lease saved.value) i none
      (replaceLeased P H i lease saved.value maxBytes).run :=
    takes_replaceLeased haside _ _ _ ⟨rfl, .inr rfl⟩
  refine fun s hs => htakes.keeps_inv
    (fun s t hvalid h => ⟨h.lent hvalid, trivial, fun j hne => ?_⟩)
    (fun s t hmove => (stable_redeems.and stable_lent) s t hmove) (fun s t _ h hs => ?_) hs
  · exact ⟨h.beside fun r hr => hne (Source.request.inj hr.1), h.lends⟩
  · exact ⟨h.leased hs.2 hs.1, h.lends.mem hs.2⟩

/-- What callers hold is used without a request. -/
theorem mild_tokens {m : Authority.Act α} (hm : m.run.Each (Authority.Local i owner)) :
    (onAuthority m : Act F α).run.Mild lending i :=
  mild_lending (P := .png) (takes_onAuthority trivial hm)

theorem upholds_commitEdit (maxBytes : Nat) :
    (commitEdit P H i saved maxBytes owner).run.Upholds lending i (Leased P i saved) := by
  refine Thread.upholds_run_bind
    ((mild_tokens (Authority.local_validateSession _)).upholds stable_redeems) fun target => ?_
  refine fun s hs => Thread.keeps_run_bind
    ((keeps_redeemEdit (mild_tokens (Authority.local_redeemEdit _))
    (fun t hvalid => hvalid) stable_redeems hs).weaken fun r t ht => ?_)
  cases r with
  | error e => exact ht.1
  | ok lease =>
      have hreplaced := upholds_replaceLeased (P := P) (H := H) maxBytes t ⟨ht.1, ht.2 lease rfl⟩
      refine Thread.keeps_run_bind (hreplaced.weaken fun r u hu => ?_)
      cases r with
      | error e => exact hu.1
      | ok replacement =>
          exact Thread.upholds_run_bind
            ((mild_tokens (Authority.local_prepareSession _ _)).upholds stable_redeems)
            (fun _ => Thread.upholds_pure _) u hu.1

section Lenient

variable {D : Discipline (Daemon F)} {R : Daemon F → Prop} (hD : Lenient P D)
  (hR : Thread.Stable (D.rely i) R)
include hD hR

theorem upholds_dispatchEntry {m : Nat → Act F Answer}
    (hm : ∀ maxBytes, (m maxBytes).run.Upholds D i R) :
    (dispatchEntry m).run.Upholds D i R := by
  refine Thread.upholds_run_bind (Thread.Mild.upholds (hD i fun _ =>
    takes_onAuthority trivial Authority.each_maxEntryBytes) hR) fun maxBytes => ?_
  exact Thread.upholds_run_bind (Thread.Mild.upholds (hD i fun _ =>
    takes_onAuthority trivial Authority.local_purgeEdits) hR) fun _ => hm maxBytes

theorem upholds_dispatchOwned {reserves : Bool} {method : Method}
    (hmethod : (dispatchMethod P H i method owner).run.Upholds D i R) :
    (dispatchOwned P H i reserves method owner).Upholds D i R := by
  have hjobs : ∀ {β : Type} (m : Jobs.Work β), (onJobs m : Work F β).Upholds D i R :=
    fun m => Thread.Mild.upholds (hD i fun _ => takes_onJobs m) hR
  have hreserved : (dispatchReserved P H i method owner).run.Upholds D i R :=
    Thread.upholds_run_bind hmethod fun answer =>
      Thread.Mild.upholds (hD i fun _ => takes_track answer) hR
  refine Thread.upholds_bind (hjobs _) fun _ => ?_
  split
  · refine Thread.upholds_bind (hjobs _) fun reserved => ?_
    cases reserved with
    | error e => exact Thread.upholds_pure _
    | ok _ =>
        exact Thread.upholds_bind hreserved fun reply =>
          Thread.upholds_bind (hjobs _) fun _ => Thread.upholds_pure _
  · exact hreserved

theorem upholds_callerDispatch {transport : Transport} {reserves : Bool} {method : Method}
    {name : String}
    (hmethod : (dispatchMethod P H i method (some name)).run.Upholds D i R) :
    (callerDispatch P H i transport reserves method name).Upholds D i R := by
  have hrelease : (releaseOwner i name : Act F Unit).run.Upholds D i R :=
    Thread.Mild.upholds (hD i fun _ => takes_releaseOwner name) hR
  have halive : (alive transport name : Work F Bool).Upholds D i R :=
    Thread.Mild.upholds (hD i fun _ => takes_alive _ _) hR
  refine Thread.upholds_bind halive fun there => ?_
  split
  · refine Thread.upholds_bind (upholds_dispatchOwned hD hR hmethod) fun reply => ?_
    refine Thread.upholds_bind halive fun there => ?_
    dsimp only
    split
    · exact Thread.upholds_bind hrelease fun _ => Thread.upholds_pure _
    · exact Thread.upholds_pure _
  · dsimp only
    split
    · exact Thread.upholds_bind hrelease fun _ => Thread.upholds_pure _
    · exact Thread.upholds_pure _

end Lenient

/-- What an edit that is saved is answered with. -/
def Saves (reply : Reply) : Prop :=
  ∀ answer, reply = .ok answer → ∃ replacement paste, answer = .replaced replacement paste

theorem saves_error (e : ApiError) : Saves (.error e) := by
  intro answer h
  cases h

theorem saves_replaced {replacement : ReplacementResult} {paste : Option Bool} :
    Saves (.ok (.replaced replacement paste)) := by
  intro answer h
  cases h
  exact ⟨replacement, paste, rfl⟩

theorem upholds_request {client : Option (Transport × String)} {reserves : Bool} :
    (program P H i (.request client reserves (.editCommit saved))).Upholds lending i
      (Leased P i saved) := by
  have hmethod : ∀ owner, (dispatchMethod P H i (.editCommit saved) owner).run.Upholds lending i
      (Leased P i saved) := fun owner =>
    upholds_dispatchEntry (P := P) lenient_lending stable_redeems fun maxBytes =>
      upholds_commitEdit maxBytes
  cases client with
  | none => exact upholds_dispatchOwned lenient_lending stable_redeems (hmethod none)
  | some client => exact upholds_callerDispatch lenient_lending stable_redeems (hmethod _)

theorem returns_commitEdit (params : EditCommitParams) (maxBytes : Nat) :
    (commitEdit P H i params maxBytes owner).run.Returns Saves := by
  refine Thread.returns_run_last (fun target => ?_) saves_error
  refine Thread.returns_run_last (fun lease => ?_) saves_error
  refine Thread.returns_run_last (fun replacement => ?_) saves_error
  exact Thread.returns_run_last (fun paste => saves_replaced) saves_error

theorem returns_editCommit (params : EditCommitParams) (reserves : Bool) :
    (dispatchOwned P H i reserves (.editCommit params) owner).Returns Saves := by
  have hreserved : (dispatchReserved P H i (.editCommit params) owner).run.Returns Saves := by
    refine Thread.returns_run_bind (Q := Saves) ?_ (fun answer hanswer => ?_) fun e _ =>
      saves_error e
    · refine Thread.returns_run_last (fun maxBytes => ?_) saves_error
      exact Thread.returns_run_last (fun _ => returns_commitEdit _ _) saves_error
    · obtain ⟨replacement, paste, rfl⟩ := hanswer answer rfl
      exact saves_replaced
  refine Thread.returns_bind (Thread.returns_any _) fun _ _ => ?_
  split
  · refine Thread.returns_bind (Thread.returns_any _) fun reserved _ => ?_
    cases reserved with
    | error e => exact saves_error e
    | ok _ =>
        refine Thread.returns_bind hreserved fun reply hreply => ?_
        exact Thread.returns_bind (Thread.returns_any _) fun _ _ => hreply
  · exact hreserved

theorem returns_request (client : Option (Transport × String)) (params : EditCommitParams)
    (reserves : Bool) :
    (program P H i (.request client reserves (.editCommit params))).Returns Saves := by
  cases client with
  | none => exact returns_editCommit params reserves
  | some client =>
      refine Thread.returns_bind (Thread.returns_any _) fun there _ => ?_
      split
      · refine Thread.returns_bind (returns_editCommit params reserves) fun reply hreply => ?_
        refine Thread.returns_bind (Thread.returns_any _) fun there _ => ?_
        dsimp only
        split
        · exact Thread.returns_bind (Thread.returns_any _) fun _ _ => hreply
        · exact hreply
      · dsimp only
        split
        · exact Thread.returns_bind (Thread.returns_any _) fun _ _ => saves_error _
        · exact saves_error _

end Lending

/-! ## All runs -/

section Runs

variable {P : Platform} {H : Machine F} {ops : List DatabaseOp} {files : F} {clock now : Nat}
  {preferences : ClipboardSettings} {moves : List (Pool.Move (Call F) Chance)}

/-- What is so of an edit that was saved, or not. -/
def Ended (P : Platform) (i : Nat) : Call F → Reply → Daemon F → Prop
  | .request _ _ (.editCommit saved), reply => fun s => Leased P i saved s ∧ Saves reply
  | _, _ => fun _ => True

theorem stable_ended {i : Nat} (call : Call F) (reply : Reply) :
    Thread.Stable (lending.rely i) (Ended P i call reply) := by
  unfold Ended
  split
  · exact stable_redeems.and Thread.stable_of
  · exact Thread.stable_of

theorem keeps_ended (i : Nat) (call : Call F) {s : Daemon F} (hs : lending.fresh i s) :
    (program P H i call).Keeps lending i (Ended P i call) s := by
  have hgoes : (program P H i call).Each (Goes P i call) := program_goes i call
  have hallows : ∀ s t : Daemon F, lending.valid s → Goes P i call s t → lending.Allows i s t :=
    fun s t hvalid h => h.lending hvalid
  have hother : (∀ reply t, Ended P i call reply t) →
      (program P H i call).Keeps lending i (Ended P i call) s := fun h =>
    (hgoes.keeps hallows).weaken fun reply t _ => h reply t
  cases call with
  | request client reserves method =>
      cases method with
      | editCommit saved =>
          have hleased : Leased P i saved s := fun commit hcommit hsource =>
            absurd hsource (hs commit hcommit)
          exact (upholds_request s hleased).and
            ((returns_request client saved reserves).keeps hgoes hallows)
      | _ => exact hother fun _ _ => trivial
  | _ => exact hother fun _ _ => trivial

theorem ended_running {i : Nat} {call : Call F} {reply : Reply}
    (h : (running P H ops files clock now preferences moves).Returned i call reply) :
    Ended P i call reply (running P H ops files clock now preferences moves).shared := by
  have hstart : lending.Keeps (Ended P)
      (service (Store.fresh.after P ops) files clock now preferences :
        Pool (Daemon F) Chance (Call F) Reply) :=
    Discipline.keeps_start (fun id lease h => by cases h) fun _ _ h => absurd h List.not_mem_nil
  exact (Discipline.run_keeps (fun i call s _ hfresh => keeps_ended i call hfresh)
    (fun i call reply s t _ _ hmove h => stable_ended call reply s t hmove h) moves
    hstart).1.threads i _ _ h

/-- A replacement does not leave all entries as they are. -/
theorem replace_differs {env : Env} {t t' : Tables} {reply : ClipDaemon.Reply} {id mime : String}
    {expected : Nat} {bytes : Bytes} (ht : WellFormed P t)
    (h : (Request.replace id expected mime bytes).effect P env t = .ok (reply, t')) :
    ¬SameEntries t t' := by
  have hn : Request.Names id expected (.replace id expected mime bytes) := ⟨rfl, rfl⟩
  intro hsame
  refine Request.not_carries_of_names ht hn h (replace_changes h) ?_
  obtain ⟨e, he, hcarries⟩ := Request.carries_of_names ht.stamped hn h
  exact ⟨e, hsame.entries ▸ he, hcarries⟩

/-- A commit under the lease is one over the entry that was shown. -/
theorem Redeems.over {origin seen : Tables} {s : Daemon F} {i : Nat} {saved : EditCommitParams}
    {entryId mime value : String} {earlier later past rest : List Commit} {commit : Commit}
    {e : EntryRow} (h : Redeems P saved s commit) (horigin : WellFormed P origin)
    (hs : Archived P H origin [] s)
    (hshown : Shown P origin [] i saved.editId entryId e.revision mime value s)
    (hcommits : s.commits = earlier ++ later) (hread : Leads P origin earlier seen)
    (he : Database.findEntry entryId seen = some e) (hsplit : s.commits = past ++ commit :: rest) :
    ∃ between, past = earlier ++ between ∧ Leads P seen between commit.before ∧
      (∀ t ∈ tables seen between, seen.Keeps e t) ∧
      ∃ env reply, (Request.replace entryId e.revision mime (asBytes saved.value)).effect P env
        commit.before = .ok (reply, commit.after) := by
  obtain ⟨lease, hhanded, env, reply, heffect⟩ := h
  obtain ⟨rfl, hlease, -⟩ := hshown
  obtain ⟨hid, hrevision, hmime⟩ := hlease lease hhanded
  rw [hid, hrevision, hmime] at heffect
  have hleads := hs.leads
  rw [hsplit] at hleads
  obtain ⟨v, hwrite, hv, -, -⟩ := leads_append.mp hleads
  obtain rfl := hv
  obtain ⟨between, hpast, hbetween, hkept⟩ :=
    replaced_over horigin hread hwrite (hcommits.symm.trans hsplit) he heffect
  exact ⟨between, hpast, hbetween, hkept, env, reply, heffect⟩

/-- The commit lies beyond the part of the way, or was made on it. -/
theorem kept_or_mem {seen : Tables} {e : EntryRow} {between rest before rest' : List Commit}
    {commit : Commit} (hsplit : between ++ rest = before ++ commit :: rest')
    (hkept : ∀ t ∈ tables seen before, seen.Keeps e t) :
    (∀ t ∈ tables seen between, seen.Keeps e t) ∨ commit ∈ between := by
  rcases List.append_eq_append_iff.mp hsplit with ⟨more, rfl, -⟩ | ⟨more, hmore, hrest⟩
  · exact .inl fun t ht => hkept t (tables_append ht)
  · cases more with
    | nil => exact .inl fun t ht => hkept t (by rwa [hmore, List.append_nil] at ht)
    | cons first more =>
        obtain ⟨rfl, -⟩ := List.cons.inj hrest
        exact .inr (by simp [hmore])

/-- An edit is saved over what the client was shown, or not at all.  In every run, let a client have
been shown an entry under the lease that another request commits.  If this request succeeds, it has
replaced the entry, and all tables from the showing on have the entry as it was, with the text that
the client was shown.  If the entry was changed or removed before, by anything but this request,
then it has failed, and what it has committed leaves all entries as they are. -/
theorem edit_commits_over_what_was_shown {i j : Nat} {client client' : Option (Transport × String)}
    {reserves reserves' : Bool} {params : EntryParams} {saved : EditCommitParams}
    {entryId mime value : String} {revision : Nat} {reply : Reply}
    (hbegan : (running P H ops files clock now preferences moves).Returned i
      (.request client reserves (.editBegin params))
      (.ok (.authority (.edit saved.editId entryId revision mime value))))
    (hended : (running P H ops files clock now preferences moves).Returned j
      (.request client' reserves' (.editCommit saved)) reply) :
    ∃ earlier later seen e,
      (running P H ops files clock now preferences moves).shared.commits = earlier ++ later ∧
      Leads P (Store.fresh.after P ops).committed earlier seen ∧
      Database.findEntry entryId seen = some e ∧ e.revision = revision ∧ e.resolvedMime = mime ∧
      fromUtf8 (seen.bytesOf entryId) = some value ∧
      (∀ answer, reply = .ok answer → ∃ between commit rest, later = between ++ commit :: rest ∧
        commit.source = .request j ∧ Leads P seen between commit.before ∧
        (∀ t ∈ tables seen between, seen.Keeps e t) ∧ commit.before.Carries entryId revision ∧
        fromUtf8 (commit.before.bytesOf entryId) = some value ∧
        ∃ env reply, (Request.replace entryId revision mime (asBytes saved.value)).effect P env
          commit.before = .ok (reply, commit.after)) ∧
      ∀ between rest, later = between ++ rest →
        (∀ commit ∈ between, commit.source = .request j →
          SameEntries commit.before commit.after) →
        (∃ t ∈ tables seen between, ¬seen.Keeps e t) →
        (∃ error, reply = .error error) ∧
        ∀ commit ∈ (running P H ops files clock now preferences moves).shared.commits,
          commit.source = .request j → SameEntries commit.before commit.after := by
  set p := running P H ops files clock now preferences moves with hp
  have hkeeps : (archive P H (Store.fresh.after P ops).committed []).Keeps
      (Told P H.codec (Store.fresh.after P ops).committed []) p := archived_running
  have hshown : Shown P (Store.fresh.after P ops).committed [] i saved.editId entryId revision mime
      value p.shared := hkeeps.threads i _ _ hbegan
  obtain ⟨hleased, hsaves⟩ : Leased P j saved p.shared ∧ Saves reply := ended_running hended
  have horigin : WellFormed P (Store.fresh.after P ops).committed := Store.after_wellFormed P ops
  obtain ⟨earlier, later, seen, e, hcommits, hread, he, rfl, hmime, htext⟩ := hshown.found
  -- a success is one of a commit under the lease
  have hmade : ∀ answer, reply = .ok answer → ∃ past commit rest,
      p.shared.commits = past ++ commit :: rest ∧ commit.source = .request j ∧
      Redeems P saved p.shared commit := by
    rintro answer rfl
    obtain ⟨replacement, paste, rfl⟩ := hsaves answer rfl
    obtain ⟨lease, hhanded, reply, past, rest, before, after, env, hsplit, -, -, heffect, hafter⟩ :
        Saved P (Store.fresh.after P ops).committed [] j saved p.shared :=
      hkeeps.threads j _ _ hended
    obtain ⟨rest, rfl⟩ := hafter.resolve_left (replace_changes heffect)
    exact ⟨past, _, rest, hsplit, rfl, lease, hhanded, env, reply, heffect⟩
  refine ⟨earlier, later, seen, e, hcommits, hread, he, rfl, hmime, htext,
    fun answer hanswer => ?_, fun between rest hlater hown hchanged => ?_⟩
  · obtain ⟨past, commit, rest, hsplit, hsource, hredeems⟩ := hmade answer hanswer
    obtain ⟨between, rfl, hbetween, hkept, env, answered, heffect⟩ :=
      hredeems.over horigin hkeeps.valid hshown hcommits hread he hsplit
    have hbefore : WellFormed P commit.before := hbetween.wellFormed (hread.wellFormed horigin)
    have hnames : Request.Names entryId e.revision
        (.replace entryId e.revision mime (asBytes saved.value)) := ⟨rfl, rfl⟩
    have hcarries := Request.carries_of_names hbefore.stamped hnames heffect
    refine ⟨between, commit, rest, ?_, hsource, hbetween, hkept, hcarries, ?_, env, answered,
      heffect⟩
    · rw [hcommits, List.append_assoc] at hsplit
      exact List.append_cancel_left hsplit
    · obtain ⟨-, rfl⟩ := Database.findEntry_some he
      rw [(hkept _ hbetween.last).bytesOf]
      exact htext
  · -- what was changed is not replaced any more
    have hspared : ∀ past commit rest', p.shared.commits = past ++ commit :: rest' →
        commit.source = .request j → ¬Redeems P saved p.shared commit := by
      intro past commit rest' hsplit hsource hredeems
      obtain ⟨before, rfl, hbefore, hkept, env, answered, heffect⟩ :=
        hredeems.over horigin hkeeps.valid hshown hcommits hread he hsplit
      rw [hcommits, hlater, List.append_assoc] at hsplit
      rcases kept_or_mem (List.append_cancel_left hsplit) hkept with hall | hmem
      · obtain ⟨t, ht, hgone⟩ := hchanged
        exact hgone (hall t ht)
      · exact replace_differs (hbefore.wellFormed (hread.wellFormed horigin)) heffect
          (hown commit hmem hsource)
    refine ⟨?_, fun commit hcommit hsource => ?_⟩
    · cases reply with
      | ok answer =>
          obtain ⟨past, commit, rest', hsplit, hsource, hredeems⟩ := hmade answer rfl
          exact (hspared past commit rest' hsplit hsource hredeems).elim
      | error error => exact ⟨error, rfl⟩
    · obtain ⟨past, rest', hsplit⟩ := List.append_of_mem hcommit
      exact (hleased commit hcommit hsource).resolve_right
        (hspared past commit rest' hsplit hsource)

/-- The entry becomes a favorite while its text is edited. -/
def favoring : List (Pool.Move (Call Unit) Chance) :=
  .call 0 (.request none false (.editBegin ⟨"entry-a", none⟩)) :: steps 0 10 ++
  .call 1 (.request none false (.entryAction ⟨"entry-a", 2, "favorite", none, none⟩)) ::
    steps 1 20 ++
  .call 2 (.request none false (.editCommit saving)) :: steps 2 19

set_option maxRecDepth 100000 in
theorem favorite_is_not_edited :
    ∃ reply : Reply, ∃ earlier later seen e,
      (running .png emptyMachine copied () 0 0 .default favoring).shared.commits =
        earlier ++ later ∧
      Leads .png (Store.fresh.after .png copied).committed earlier seen ∧
      Database.findEntry "entry-a" seen = some e ∧ e.revision = 2 ∧ e.resolvedMime = "text/plain" ∧
      fromUtf8 (seen.bytesOf "entry-a") = some "hi" ∧
      (∀ answer, reply = .ok answer → ∃ between commit rest, later = between ++ commit :: rest ∧
        commit.source = .request 2 ∧ Leads .png seen between commit.before ∧
        (∀ t ∈ tables seen between, seen.Keeps e t) ∧ commit.before.Carries "entry-a" 2 ∧
        fromUtf8 (commit.before.bytesOf "entry-a") = some "hi" ∧
        ∃ env reply, (Request.replace "entry-a" 2 "text/plain" (asBytes saving.value)).effect .png
          env commit.before = .ok (reply, commit.after)) ∧
      ∀ between rest, later = between ++ rest →
        (∀ commit ∈ between, commit.source = .request 2 →
          SameEntries commit.before commit.after) →
        (∃ t ∈ tables seen between, ¬seen.Keeps e t) →
        (∃ error, reply = .error error) ∧
        ∀ commit ∈ (running .png emptyMachine copied () 0 0 .default favoring).shared.commits,
          commit.source = .request 2 → SameEntries commit.before commit.after := by
  have hended : ∃ error, (running .png emptyMachine copied () 0 0 .default favoring).Returned 2
      (.request none false (.editCommit saving)) (.error error) := ⟨_, rfl⟩
  obtain ⟨error, hended⟩ := hended
  have hbegan : (running .png emptyMachine copied () 0 0 .default favoring).Returned 0
      (.request none false (.editBegin ⟨"entry-a", none⟩))
      (.ok (.authority (.edit saving.editId "entry-a" 2 "text/plain" "hi"))) := rfl
  exact ⟨.error error, edit_commits_over_what_was_shown hbegan hended⟩

end Runs

end ClipDaemon.Daemon
