import ClipDaemon.Daemon.Edits
import ClipDaemon.Store.Search

/-!
# Answers have an order

A listing, a read, a deletion and a favorite are long programs: they wait for the transaction
lock, ask the store, and a listing then reconciles the cache.  The store answers at one point in
between, and to the clients the call happens there, at once.  That point is not before the call,
and it is not after the answer.

So a client that has deleted or replaced an entry is never shown it again, by whatever other
clients do at the same time.
-/

namespace ClipDaemon

/-! ## Revisions that are taken away -/

/-- The request takes the revision away from the entry. -/
structure Request.Retires (id : String) (revision : Nat) (r : Request) : Prop where
  names : r.Names id revision
  unmarked : ∀ i expected value, r ≠ .favorite i expected value

section Revisions

variable {P : Platform} {env : Env} {t t' : Tables} {reply : Reply} {id : String} {revision : Nat}
  {r : Request}

theorem Request.Retires.changes (hretires : r.Retires id revision)
    (h : r.effect P env t = .ok (reply, t')) : t' ≠ t := by
  cases r with
  | replace i expected mime bytes => exact Daemon.replace_changes h
  | favorite i expected value => exact absurd rfl (hretires.unmarked i expected value)
  | removeMany targets =>
      obtain ⟨target, htarget, -, -⟩ := hretires.names
      simp only [effect, job, if_neg (List.ne_nil_of_mem htarget)] at h
      have ht : t' = _ := (Database.removeMany_ok (unit_ok h).2).2.2
      rintro rfl
      have hrevision : t'.storeMeta.revision = t'.storeMeta.revision + 1 :=
        congrArg (fun u : Tables => u.storeMeta.revision) ht
      exact absurd hrevision (Nat.ne_of_lt (Nat.lt_succ_self _))
  | _ => exact hretires.names.elim

theorem query_effect {query : HistoryQuery} {page : HistoryPage}
    (h : (Request.query query).effect P env t = .ok (.page page, t')) :
    page = Database.pageOf P query t ∧ t' = t := by
  simp only [Request.effect, Request.job, Request.read, Job.eval, Prog.eval_bind,
    Database.eval_query, Prog.eval_pure, Except.map] at h
  have heq := Prod.mk.inj (Except.ok.inj h)
  exact ⟨(Reply.page.inj heq.1).symm, heq.2.symm⟩

/-- What a page lists is in the tables. -/
theorem carries_of_query {query : HistoryQuery} {page : HistoryPage} {item : EntrySummary}
    (hw : WellFormed P t) (h : (Request.query query).effect P env t = .ok (.page page, t'))
    (hitem : item ∈ page.entries) : t.Carries item.id item.revision := by
  rw [(query_effect h).1, (pageOf_listing hw query).2.1] at hitem
  obtain ⟨e, he, rfl⟩ := List.mem_map.mp hitem
  have hlisted : e ∈ listing P query t := List.mem_of_mem_drop (List.mem_of_mem_take he)
  rw [listing, List.mem_insertionSort] at hlisted
  exact ⟨e, (selected_sublist hw.toSound _ _).mem hlisted, rfl, rfl⟩

end Revisions

namespace Daemon

variable {F : Type}

/-! ## From a point on -/

theorem refines_archive (P : Platform) (H : Machine F) (origin : Tables) (past : List Commit) :
    (archive P H origin past).Refines (archive P H origin []) where
  valid _ h := { h with since := List.nil_prefix }
  rely _ _ _ h := h
  allows i _ _ h hallows :=
    { hallows with
      valid := { hallows.valid with
        since := h.since.trans (hallows.others (i + 1) (Nat.succ_ne_self i)).commits } }

/-! ## What a method does at once -/

/-- The methods that come down to one request of the store. -/
def Method.Atomic : Method → Answer → Prop
  | .query _, .history _ => True
  | .details _, .entry _ => True
  | .deleteEntries _, .operation _ => True
  | .entryAction params, .operation _ =>
      params.action ∈ ["delete", "favorite", "pin-current", "unfavorite"]
  | _, _ => False

/-- The answer to the owner says what the store replies to the request on the tables.  For a listing
this is the page at the offset that is named, by the request or by its cursor; self-echoes are
collapsed as the settings say. -/
def Method.Means (P : Platform) (C : CursorCodec) (owner : Owner) (t : Tables) (r : Request)
    (reply : ClipDaemon.Reply) : Method → Answer → Prop
  | .query params, .history data => ∃ collapse offset found,
      Pages C params owner collapse found offset data.history ∧
        r = .query (params.historyQuery offset collapse) ∧ reply = .page found ∧
        data.snapshotRevision = UInt64.ofNat t.storeMeta.revision
  | .details params, .entry shown => ∃ stored W, r = .get params.entryId none ∧
      reply = .stored stored ∧ shown = entryDetails P W stored MAX_EDIT_BYTES
  | .deleteEntries targets, .operation _ => r = .removeMany targets
  | .entryAction params, .operation _ => ∃ mutation,
      BackendMutation.forAction params.action 0 = some mutation ∧
        BackendMutation.request params.entryId params.revision mutation = some r
  | _, _ => False

section Tells

variable {P : Platform} {C : CursorCodec} {origin : Tables} {past : List Commit} {i : Nat}
  {owner : Owner} {method : Method} {answer : Answer} {s : Daemon F}

/-- The token of the store. -/
theorem revision_effect {env : Env} {t t' : Tables} {revision : Nat}
    (h : Request.revision.effect P env t = .ok (.revision revision, t')) :
    revision = t.storeMeta.revision := by
  cases h
  rfl

theorem Leads.between {earlier later : List Commit} {t u : Tables} (ht : Leads P origin earlier t)
    (hu : Leads P origin later u) (h : earlier <+: later) : ∃ commits, Leads P t commits u := by
  obtain ⟨commits, rfl⟩ := h
  obtain ⟨v, hv, hcommits⟩ := leads_append.mp hu
  exact ⟨commits, hv.unique ht ▸ hcommits⟩

/-- If the token is the same before and after, then it is in between. -/
theorem token_between {earlier first last : List Commit} {t₁ t₂ t₃ : Tables}
    (horigin : WellFormed P origin) (h₁ : Leads P origin first t₁) (h₂ : Leads P origin earlier t₂)
    (h₃ : Leads P origin last t₃) (hfirst : first <+: earlier) (hlast : earlier <+: last)
    (htokens : UInt64.ofNat t₁.storeMeta.revision = UInt64.ofNat t₃.storeMeta.revision) :
    t₂.storeMeta.revision = t₃.storeMeta.revision := by
  obtain ⟨_, hbetween⟩ := h₁.between h₂ hfirst
  obtain ⟨_, hbetween'⟩ := h₂.between h₃ hlast
  have hclock : t₁.storeMeta.revision ≤ t₂.storeMeta.revision :=
    (hbetween.advances (h₁.wellFormed horigin)).clock_le
  have hclock' : t₂.storeMeta.revision ≤ t₃.storeMeta.revision :=
    (hbetween'.advances (h₂.wellFormed horigin)).clock_le
  have hmax : MAX_REVISION < 2 ^ 64 := by decide
  have hsame := congrArg UInt64.toNat htokens
  rw [UInt64.toNat_ofNat_of_lt' ((h₁.wellFormed horigin).inRange.revision.trans hmax),
    UInt64.toNat_ofNat_of_lt' ((h₃.wellFormed horigin).inRange.revision.trans hmax)] at hsame
  omega

/-- If the token was the same before and after the page, the page has it. -/
theorem Listed.labelled {params : QueryParams} {data : QueryData} (horigin : WellFormed P origin)
    (h : Listed P C origin past i owner params data s) :
    ∃ earlier later t env r reply, s.commits = earlier ++ later ∧ past <+: earlier ∧
      Leads P origin earlier t ∧ r.effect P env t = .ok (reply, t) ∧
      (Method.query params).Means P C owner t r reply (.history data) := by
  obtain ⟨collapse, offset, found, before, after, hpages, hbefore, hafter, w, hw, -, hlast⟩ := h
  obtain ⟨v, hfirst, hv, hpage⟩ := hw
  obtain ⟨earlier₁, later₁, t₁, _, _, hcommits₁, hpast₁, hleads₁, heffect₁, -⟩ := hfirst
  obtain ⟨earlier₂, later₂, t₂, t', env, hcommits₂, hpast₂, hleads₂, heffect₂, -⟩ := hpage
  obtain ⟨earlier₃, later₃, t₃, _, _, hcommits₃, hpast₃, hleads₃, heffect₃, -⟩ := hlast
  have hle₁ : earlier₁ <+: earlier₂ := .trans ⟨later₁, hcommits₁.symm⟩ hpast₂
  have hle₂ : earlier₂ <+: earlier₃ := .trans ⟨later₂, hcommits₂.symm⟩ hpast₃
  obtain ⟨later, hlater⟩ : earlier₂ <+: s.commits := hle₂.trans ⟨later₃, hcommits₃.symm⟩
  rw [revision_effect heffect₁] at hbefore
  rw [revision_effect heffect₃] at hafter
  have htoken : t₂.storeMeta.revision = t₃.storeMeta.revision :=
    token_between horigin hleads₁ hleads₂ hleads₃ hle₁ hle₂ (hbefore.symm.trans hafter)
  rw [← htoken] at hafter
  rw [(query_effect heffect₂).2] at heffect₂
  exact ⟨earlier₂, later, t₂, env, _, _, hlater.symm, hpast₁.trans hle₁, hleads₂, heffect₂,
    collapse, offset, found, hpages, rfl, rfl, hafter⟩

/-- A call that has returned is one request that was answered after all that was past. -/
theorem atomic_of_tells (horigin : WellFormed P origin) (hatomic : method.Atomic answer)
    (htells : method.Tells P C origin past i owner answer s) :
    ∃ earlier later before after env r reply, s.commits = earlier ++ later ∧ past <+: earlier ∧
      Leads P origin earlier before ∧ r.effect P env before = .ok (reply, after) ∧
      (after = before ∨ ∃ rest, later = ⟨.request i, before, after⟩ :: rest) ∧
      method.Means P C owner before r reply answer := by
  unfold Method.Atomic at hatomic
  split at hatomic
  next params data =>
    obtain ⟨earlier, later, t, env, r, reply, heq, hpast, hleads, heffect, hmeans⟩ :=
      Listed.labelled horigin htells
    exact ⟨earlier, later, t, t, env, r, reply, heq, hpast, hleads, heffect, .inl rfl, hmeans⟩
  next params shown =>
    obtain ⟨stored, W, hanswered, rfl⟩ := htells
    obtain ⟨earlier, later, before, after, env, heq, hpast, hleads, heffect, hafter⟩ := hanswered
    exact ⟨earlier, later, before, after, env, _, _, heq, hpast, hleads, heffect, hafter, stored, W,
      rfl, rfl, rfl⟩
  next targets operation =>
    obtain ⟨reply, earlier, later, before, after, env, heq, hpast, hleads, heffect, hafter⟩ :=
      htells
    exact ⟨earlier, later, before, after, env, _, reply, heq, hpast, hleads, heffect, hafter, rfl⟩
  next params operation =>
    obtain ⟨mutation, r, hmutation, hr⟩ : ∃ mutation r,
        BackendMutation.forAction params.action 0 = some mutation ∧
          BackendMutation.request params.entryId params.revision mutation = some r := by
      simp only [List.mem_cons, List.not_mem_nil, or_false] at hatomic
      rcases hatomic with h | h | h | h <;> rw [h] <;> exact ⟨_, _, rfl, rfl⟩
    obtain ⟨stored, reply, -, hanswered⟩ := htells 0 mutation hmutation _ r rfl hr
    obtain ⟨earlier, later, before, after, env, heq, hpast, hleads, heffect, hafter⟩ := hanswered
    exact ⟨earlier, later, before, after, env, r, reply, heq, hpast, hleads, heffect, hafter,
      mutation, hmutation, hr⟩
  · exact hatomic.elim

end Tells

section Runs

variable {P : Platform} {H : Machine F} {ops : List DatabaseOp} {files : F} {clock now : Nat}
  {preferences : ClipboardSettings} {moves more : List (Pool.Move (Call F) Chance)}

/-- What is told of the calls that are made from a point on. -/
theorem told_since {i : Nat} {client : Option (Transport × String)} {reserves : Bool}
    {method : Method} {answer : Answer}
    (hnew : (running P H ops files clock now preferences moves).threads i = none)
    (hreturned : (running P H ops files clock now preferences (moves ++ more)).Returned i
      (.request client reserves method) (.ok answer)) :
    method.Tells P H.codec (Store.fresh.after P ops).committed
      (running P H ops files clock now preferences moves).shared.commits i
      (Call.request (F := F) client reserves method).owner answer
      (running P H ops files clock now preferences (moves ++ more)).shared := by
  set p := running P H ops files clock now preferences moves with hp
  set D := archive P H (Store.fresh.after P ops).committed p.shared.commits with hD
  set Q : Nat → Call F → Reply → Daemon F → Prop := fun j k a s => p.threads j = none →
    Told P H.codec (Store.fresh.after P ops).committed p.shared.commits j k a s with hQ
  have hkeeps : (archive P H (Store.fresh.after P ops).committed []).Keeps
      (Told P H.codec (Store.fresh.after P ops).committed []) p := archived_running
  have hsince : D.Keeps Q p :=
    hkeeps.refine (refines_archive ..) { hkeeps.valid with since := List.prefix_rfl } (fun _ h => h)
      fun _ _ _ _ hcalled _ hfree => absurd hfree hcalled
  have hprogram : ∀ j k s, D.valid s → D.fresh j s → (program P H j k).Keeps D j (Q j k) s :=
    fun j k s _ hfresh => (keeps_calls j k hfresh).weaken fun _ _ h _ => h
  have hstable : ∀ j k a s t, D.valid s → D.valid t → D.rely j s t → Q j k a s → Q j k a t :=
    fun j k a s t _ _ hmove h hfree => stable_told k a s t hmove (h hfree)
  rw [running, Pool.after_append, ← running, ← hp] at hreturned ⊢
  exact (Discipline.run_keeps hprogram hstable more hsince).1.threads i _ _ hreturned hnew

/-- A listing, a read, a deletion or a favorite happens at one point, which is not before the
call.  In every run, the answer of a call that was made after `moves` is that of the store to one
request on tables that the commits lead to, with all commits that there were after `moves`.  If
the request changes the tables, then this is the commit that comes there; and what a listing is
labelled with is the revision of these tables. -/
theorem calls_are_atomic {i : Nat} {client : Option (Transport × String)} {reserves : Bool}
    {method : Method} {answer : Answer}
    (hnew : (running P H ops files clock now preferences moves).threads i = none)
    (hreturned : (running P H ops files clock now preferences (moves ++ more)).Returned i
      (.request client reserves method) (.ok answer))
    (hatomic : method.Atomic answer) :
    ∃ between later before after env r reply,
      (running P H ops files clock now preferences (moves ++ more)).shared.commits =
        (running P H ops files clock now preferences moves).shared.commits ++ between ++ later ∧
      Leads P (Store.fresh.after P ops).committed
        ((running P H ops files clock now preferences moves).shared.commits ++ between) before ∧
      r.effect P env before = .ok (reply, after) ∧
      (after = before ∨ ∃ rest, later = ⟨.request i, before, after⟩ :: rest) ∧
      method.Means P H.codec (Call.request (F := F) client reserves method).owner before r reply
        answer := by
  obtain ⟨_, later, before, after, env, r, reply, hcommits, ⟨between, rfl⟩, h⟩ :=
    atomic_of_tells (Store.after_wellFormed P ops) hatomic (told_since hnew hreturned)
  exact ⟨between, later, before, after, env, r, reply, hcommits, h⟩

def everything : QueryParams := ⟨"", 0, 0, 10, false, none⟩

/-- A deletion has begun. -/
def begun : List (Pool.Move (Call Unit) Chance) :=
  .call 0 (.request none false (.deleteEntries [⟨"entry-a", 2⟩])) :: steps 0 2

/-- A listing is begun, and both end. -/
def ended : List (Pool.Move (Call Unit) Chance) :=
  .call 1 (.request none false (.query everything)) :: steps 0 8 ++ steps 1 40

set_option maxRecDepth 100000 in
theorem listing_beside_deletion :
    ∃ data between later before after env r reply,
      (running .png emptyMachine copied () 0 0 .default (begun ++ ended)).shared.commits =
        (running .png emptyMachine copied () 0 0 .default begun).shared.commits ++
          between ++ later ∧
      Leads .png (Store.fresh.after .png copied).committed
        ((running .png emptyMachine copied () 0 0 .default begun).shared.commits ++ between)
          before ∧
      r.effect .png env before = .ok (reply, after) ∧
      (after = before ∨ ∃ rest, later = ⟨.request 1, before, after⟩ :: rest) ∧
      (Method.query everything).Means .png emptyMachine.codec none before r reply
        (.history data) := by
  have hreturned :
      ∃ data, (running .png emptyMachine copied () 0 0 .default (begun ++ ended)).Returned 1
      (.request none false (.query everything)) (.ok (.history data)) := ⟨_, rfl⟩
  obtain ⟨data, hreturned⟩ := hreturned
  exact ⟨data, calls_are_atomic rfl hreturned trivial⟩

end Runs

/-! ## What is gone -/

section Gone

variable {P : Platform} {C : CursorCodec} {origin t : Tables} {past commits : List Commit}
  {source : Source} {i : Nat} {owner : Owner} {r : Request} {reply : ClipDaemon.Reply} {id : String}
  {revision : Nat} {s : Daemon F}
  {method : Method} {answer : Answer}

/-- A revision that was taken away is in no tables after that. -/
theorem Answered.gone (horigin : WellFormed P origin) (h : Answered P origin past source r reply s)
    (hretires : r.Retires id revision) (hleads : Leads P origin commits t)
    (hcommits : s.commits <+: commits) : ¬t.Carries id revision := by
  obtain ⟨earlier, later, before, after, env, heq, -, hearlier, heffect, hafter⟩ := h
  obtain ⟨more, rfl⟩ := hcommits
  have hchanged : after ≠ before := hretires.changes heffect
  obtain ⟨rest, rfl⟩ := hafter.resolve_left hchanged
  rw [heq, List.append_assoc, List.cons_append] at hleads
  obtain ⟨v, hv, -, hchange, hrest⟩ := leads_append.mp hleads
  obtain rfl := hv.unique hearlier
  have hbefore : WellFormed P v := hearlier.wellFormed horigin
  obtain ⟨e, he, -, rfl⟩ := Request.carries_of_names hbefore.stamped hretires.names heffect
  exact hrest.not_carries (hchange.wellFormed hbefore)
    ((hbefore.stamped.revision_le e he).trans (hchange.advances hbefore).clock_le)
    (Request.not_carries_of_names hbefore hretires.names heffect hchanged)

/-- What a history lists. -/
def listedEntries : History → List EntrySummary
  | .search history => history.entries
  | .page page => page.entries

theorem Pages.entries {params : QueryParams} {collapse : Bool} {found : HistoryPage} {offset : Nat}
    {history : History} (h : Pages C params owner collapse found offset history) :
    listedEntries history = found.entries := by
  cases h <;> rfl

/-- The answer shows the entry at the revision. -/
def Method.Shows (id : String) (revision : Nat) : Method → Answer → Prop
  | .query _, .history data =>
      ∃ item ∈ listedEntries data.history, item.id = id ∧ item.revision = revision
  | .details _, .entry shown => shown.entry.id = id ∧ shown.entry.revision = revision
  | .editBegin _, .authority (.edit _ entryId found _ _) => entryId = id ∧ found = revision
  | _, _ => False

/-- What an answer shows was in the tables, after all that was past. -/
theorem Method.Shows.carries (h : method.Shows id revision answer) (horigin : WellFormed P origin)
    (htells : method.Tells P C origin past i owner answer s) :
    ∃ earlier t, past <+: earlier ∧ Leads P origin earlier t ∧ t.Carries id revision := by
  have hget : ∀ {queried : String} {stored : Database.StoredEntry},
      Answered P origin past (.request i) (.get queried none) (.stored stored) s →
      stored.summary.id = id → stored.summary.revision = revision →
      ∃ earlier t, past <+: earlier ∧ Leads P origin earlier t ∧ t.Carries id revision := by
    rintro queried stored ⟨earlier, later, t, _, _, -, hpast, hleads, heffect, -⟩ hid hrevision
    obtain ⟨e, he, -, rfl, -⟩ := get_effect heffect
    exact ⟨earlier, t, hpast, hleads, e, (Database.findEntry_some he).1, hid, hrevision⟩
  unfold Shows at h
  split at h
  · obtain ⟨item, hitem, rfl, rfl⟩ := h
    obtain ⟨earlier, later, t, _, r, reply, -, hpast, hleads, heffect, hmeans⟩ :=
      Listed.labelled horigin htells
    obtain ⟨collapse, offset, found, hpages, rfl, rfl, -⟩ := hmeans
    exact ⟨earlier, t, hpast, hleads,
      carries_of_query (hleads.wellFormed horigin) heffect (hpages.entries ▸ hitem)⟩
  · obtain ⟨stored, W, hanswered, rfl⟩ := htells
    exact hget hanswered h.1 h.2
  · obtain ⟨-, -, queried, stored, hanswered, hid, hrevision, -⟩ := htells
    exact hget hanswered (hid.trans h.1) (hrevision.trans h.2)
  · exact h.elim

/-- The method is to delete the entry at the revision. -/
def Method.Removes (id : String) (revision : Nat) : Method → Prop
  | .deleteEntries targets =>
      ∃ target ∈ targets, target.opaqueId = id ∧ target.expectedRevision.toNat = revision
  | .entryAction params =>
      params.action = "delete" ∧ params.entryId = id ∧ params.revision = revision
  | _ => False

theorem Method.Removes.answered {operation : OperationResult} (h : method.Removes id revision)
    (horigin : WellFormed P origin)
    (htells : method.Tells P C origin past i owner (.operation operation) s) :
    ∃ r reply, r.Retires id revision ∧ Answered P origin past (.request i) r reply s := by
  cases method with
  | deleteEntries targets =>
      obtain ⟨reply, hanswered⟩ := htells
      have hnames : Request.Names id revision (.removeMany targets) := h
      exact ⟨_, reply, ⟨hnames, fun _ _ _ h => by cases h⟩, hanswered⟩
  | entryAction params =>
      obtain ⟨haction, rfl, rfl⟩ := h
      have hremove : BackendMutation.forAction params.action 0 = some .remove := by
        rw [haction]
        rfl
      obtain ⟨stored, reply, hfound, hanswered⟩ := htells 0 .remove hremove _ _ rfl rfl
      -- the entry was found, so its revision is one that the store counts to
      have hlt : params.revision < 2 ^ 64 := by
        have hmax : MAX_REVISION < 2 ^ 64 := by decide
        obtain ⟨_, _, t, _, _, -, -, hleads, heffect, -⟩ := hfound
        obtain ⟨e, he, hrevision, -⟩ := get_effect heffect
        have hwell := hleads.wellFormed horigin
        rw [hrevision _ rfl]
        exact ((hwell.stamped.revision_le e (Database.findEntry_some he).1).trans_lt
          hwell.inRange.revision).trans hmax
      have hnames : Request.Names params.entryId params.revision
          (.removeMany [⟨params.entryId, UInt64.ofNat params.revision⟩]) :=
        ⟨_, List.mem_singleton_self _, rfl, UInt64.toNat_ofNat_of_lt' hlt⟩
      exact ⟨_, reply, ⟨hnames, fun _ _ _ h => by cases h⟩, hanswered⟩
  | _ => exact h.elim

/-- A call that has returned, or a call and the edit that it was for, took the revision away. -/
inductive Retired (p : Pool (Daemon F) Chance (Call F) Reply) (id : String) (revision : Nat) : Prop
  | removed {i : Nat} {client : Option (Transport × String)} {reserves : Bool} {method : Method}
      {operation : OperationResult} (hremoves : method.Removes id revision)
      (hreturned : p.Returned i (.request client reserves method) (.ok (.operation operation)))
  | replaced {i j : Nat} {client client' : Option (Transport × String)} {reserves reserves' : Bool}
      {params : EntryParams} {saved : EditCommitParams} {mime value : String}
      {replacement : ReplacementResult} {paste : Option Bool}
      (hbegan : p.Returned i (.request client reserves (.editBegin params))
        (.ok (.authority (.edit saved.editId id revision mime value))))
      (hsaved : p.Returned j (.request client' reserves' (.editCommit saved))
        (.ok (.replaced replacement paste)))

variable {H : Machine F} {ops : List DatabaseOp} {files : F} {clock now : Nat}
  {preferences : ClipboardSettings} {moves more : List (Pool.Move (Call F) Chance)}

/-- The request by which the revision was taken away. -/
theorem Retired.answered
    (h : Retired (running P H ops files clock now preferences moves) id revision) :
    ∃ i r reply, r.Retires id revision ∧ Answered P (Store.fresh.after P ops).committed []
      (.request i) r reply (running P H ops files clock now preferences moves).shared := by
  have hkeeps : (archive P H (Store.fresh.after P ops).committed []).Keeps
      (Told P H.codec (Store.fresh.after P ops).committed [])
      (running P H ops files clock now preferences moves) := archived_running
  cases h with
  | removed hremoves hreturned =>
      obtain ⟨r, reply, hretires, hanswered⟩ :=
        hremoves.answered (Store.after_wellFormed P ops) (hkeeps.threads _ _ _ hreturned)
      exact ⟨_, r, reply, hretires, hanswered⟩
  | @replaced _ _ _ _ _ _ _ saved _ _ _ _ hbegan hsaved =>
      obtain ⟨hid, hlease, -⟩ := hkeeps.threads _ _ _ hbegan
      obtain ⟨lease, hleased, reply, hanswered⟩ := hkeeps.threads _ _ _ hsaved
      obtain ⟨rfl, rfl, -⟩ := hlease lease (hid ▸ hleased)
      have hnames : Request.Names lease.entryId lease.revision
          (.replace lease.entryId lease.revision lease.mime (asBytes saved.value)) := ⟨rfl, rfl⟩
      exact ⟨_, _, reply, ⟨hnames, fun _ _ _ h => by cases h⟩, hanswered⟩

/-- What a client has deleted or replaced is never shown again.  In every run, once a deletion
or the saving of an edit has returned, no listing, no read and no edit of a later call shows the
entry at the revision that is gone. -/
theorem retired_is_not_shown {client : Option (Transport × String)} {reserves : Bool}
    (hretired : Retired (running P H ops files clock now preferences moves) id revision)
    (hnew : (running P H ops files clock now preferences moves).threads i = none)
    (hreturned : (running P H ops files clock now preferences (moves ++ more)).Returned i
      (.request client reserves method) (.ok answer)) :
    ¬method.Shows id revision answer := by
  intro hshows
  have horigin := Store.after_wellFormed P ops
  obtain ⟨_, _, _, hretires, hanswered⟩ := hretired.answered
  obtain ⟨earlier, t, hpast, hleads, hcarries⟩ :=
    hshows.carries horigin (told_since hnew hreturned)
  exact hanswered.gone horigin hretires hleads hpast hcarries

/-- The deletion has returned. -/
def deleted : List (Pool.Move (Call Unit) Chance) := begun ++ steps 0 6

def listed : List (Pool.Move (Call Unit) Chance) :=
  .call 1 (.request none false (.query everything)) :: steps 1 40

set_option maxRecDepth 100000 in
theorem listing_after_deletion :
    ∃ data, (running .png emptyMachine copied () 0 0 .default (deleted ++ listed)).Returned 1
        (.request none false (.query everything)) (.ok (.history data)) ∧
      ¬(Method.query everything).Shows "entry-a" 2 (.history data) := by
  have hdeleted : ∃ operation, (running .png emptyMachine copied () 0 0 .default deleted).Returned 0
      (.request none false (.deleteEntries [⟨"entry-a", 2⟩]))
      (.ok (.operation operation)) := ⟨_, rfl⟩
  obtain ⟨operation, hdeleted⟩ := hdeleted
  have hremoves : (Method.deleteEntries [⟨"entry-a", 2⟩]).Removes "entry-a" 2 :=
    ⟨⟨"entry-a", 2⟩, List.mem_singleton_self _, rfl, rfl⟩
  have hreturned : ∃ data, (running .png emptyMachine copied () 0 0 .default
      (deleted ++ listed)).Returned 1 (.request none false (.query everything))
        (.ok (.history data)) := ⟨_, rfl⟩
  obtain ⟨data, hreturned⟩ := hreturned
  exact ⟨data, hreturned, retired_is_not_shown (.removed hremoves hdeleted) rfl hreturned⟩

end Gone

end Daemon

end ClipDaemon
