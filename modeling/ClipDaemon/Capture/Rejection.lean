import ClipDaemon.Capture.Ingest
import ClipDaemon.Store.Insertion

/-!
# Rejected captures

Capture closes for good when `ingest` fails, so a payload that is only rejected has to be
returned as handled.  `ingest` looks at the admission and at the size of the payload before
it inserts, and after a refused insertion it reads the admission once more.

Other rejections are reported as failures: a payload over the total byte limit, a history
without room for main entries, a full queue.  `ingest_settles_iff` says exactly which calls
are handled.
-/

namespace ClipDaemon.Capture

/-! ## Specification -/

/-- What a read of the policy may find while the storage thread runs: a policy that was
applied, or a queue that is full. -/
def Answers (policy : BackendResult StorePolicy) : Prop :=
  match policy with
  | .ok policy => Database.validPolicy policy = true
  | .error error => error = .unavailable "History queue is full or closed"

/-- The backend runs, its store is open and works, and the file holds `bytes`. -/
structure IngestCall.Healthy (call : IngestCall) (bytes : Bytes) (s : Store) : Prop where
  running : call.running = .ok ()
  policy : Answers call.policy
  later : Answers call.later
  opened : s = ⟨Database.recovered s.committed, true⟩
  faults : call.faults = .none
  content : ∀ access, call.file.content access = bytes
  reads : ∀ access, call.file.fails access = false

/-- The store took the request and committed it. -/
structure Inserts (P : Platform) (call : IngestCall) (mime : String) (bytes : Bytes) (s : Store) :
    Prop where
  admitted : ∃ policy, call.policy = .ok policy ∧ admitBytes policy call.file = .ok (some bytes)
  valid : (Request.insert (captureMime mime) bytes).validate = .ok ()
  submitted : call.submitted = .ok ()
  committed : ∃ r, (Request.insert (captureMime mime) bytes).effect P call.env s.committed = .ok r

/-- A call is handled: it inserts the payload, or it returns as usual and changes nothing. -/
def Settles (P : Platform) (call : IngestCall) (mime : String) (bytes : Bytes) (s : Store) : Prop :=
  Inserts P call mime bytes s ∨ ingest P call mime s = (.ok (), s)

/-- The rejections `ingest` looks for, or a payload the store accepts. -/
def Expected (call : IngestCall) (mime : String) (bytes : Bytes) (s : Store) : Prop :=
  ∃ policy, call.policy = .ok policy ∧
    (policy.admission = false ∨ bytes = [] ∨ policy.maxEntryBytes < bytes.length ∨
      (∃ later, call.later = .ok later ∧ later.admission = false) ∨
      ((Request.insert (captureMime mime) bytes).validate = .ok () ∧ call.submitted = .ok () ∧
        Accepts call.env (captureMime mime) bytes s.committed))

/-! ## Reading the file -/

/-- A file that keeps its bytes is read whole. -/
theorem readToEnd_same {file : CaptureFile} {bytes : Bytes}
    (hcontent : ∀ access, file.content access = bytes)
    (hreads : ∀ access, file.fails access = false)
    (access fuel remaining : Nat) {read : Bytes} (hinitial : read <+: bytes)
    (hroom : bytes.length + 1 ≤ read.length + remaining) (hfuel : remaining ≤ fuel) :
    ∃ access', file.readToEnd access read fuel remaining = .ok (bytes, access') := by
  induction fuel generalizing access read remaining with
  | zero =>
      have hle := hinitial.length_le
      omega
  | succ fuel ih =>
      obtain ⟨rest, rfl⟩ := hinitial
      have hpositive : remaining ≠ 0 := by
        rw [List.length_append] at hroom
        omega
      rw [CaptureFile.readToEnd, if_neg hpositive, if_neg (by simp [hreads]), hcontent,
        List.drop_left]
      split
      next hchunk =>
        have hrest : rest = [] := by
          rcases List.take_eq_nil_iff.mp hchunk with hzero | hnil
          · omega
          · exact hnil
        exact ⟨access + 1, by rw [hrest, List.append_nil]⟩
      next b chunk hchunk =>
        have hlength := congrArg List.length hchunk
        rw [List.length_take, List.length_cons] at hlength
        have hle : (b :: chunk).length ≤ remaining := by
          rw [List.length_cons]
          omega
        rw [← hchunk] at hle ⊢
        refine ih _ _ (List.prefix_append_right_inj _ |>.mpr (List.take_prefix _ _)) ?_ ?_
        · rw [List.length_append] at hroom ⊢
          rw [List.length_append]
          omega
        · rw [hchunk, List.length_cons]
          omega

/-- What a file that keeps its bytes is admitted with. -/
theorem admitBytes_same {policy : StorePolicy} {file : CaptureFile} {bytes : Bytes}
    (hvalid : Database.validPolicy policy = true) (hcontent : ∀ access, file.content access = bytes)
    (hreads : ∀ access, file.fails access = false) :
    admitBytes policy file = .ok (if policy.admission = false ∨ bytes = [] ∨
      policy.maxEntryBytes < bytes.length then none else some bytes) := by
  have hlimit : effectiveLimit policy.maxEntryBytes = policy.maxEntryBytes := by
    simp only [Database.validPolicy, Bool.and_eq_true, decide_eq_true_eq] at hvalid
    exact Nat.min_eq_left hvalid.1.1.2
  simp only [admitBytes, hreads, hcontent, Bool.false_eq_true, if_false]
  cases hadmission : policy.admission with
  | false => simp
  | true =>
      simp only [Bool.not_true, Bool.false_eq_true, if_false, Bool.true_eq_false, false_or,
        List.length_eq_zero_iff]
      split
      · rfl
      next hsize =>
        rw [not_or, Nat.not_lt] at hsize
        obtain ⟨access, hread⟩ := readToEnd_same hcontent hreads 2 (policy.maxEntryBytes + 1)
          (policy.maxEntryBytes + 1) List.nil_prefix (by simpa using hsize.2) le_rfl
        have hvalidate : validateSize bytes.length policy.maxEntryBytes = .ok () := by
          rw [validateSize, hlimit, if_neg (Nat.not_lt.mpr hsize.2)]
        have hselection : readSelection file 2 bytes.length policy.maxEntryBytes =
            .ok (bytes, access) := by
          simp only [readSelection, hlimit, hvalidate, hread, bind, Except.bind, pure, Except.pure]
        simp [hselection]

/-! ## Refusals -/

/-- A refusal is handled when admission was closed in the meantime. -/
theorem IngestCall.refused_ok {call : IngestCall} {error : BackendError} :
    call.refused error = .ok () ↔ ∃ later, call.later = .ok later ∧ later.admission = false := by
  unfold refused
  cases call.later with
  | error later => simp
  | ok policy => cases hadmission : policy.admission <;> simp [hadmission]

/-- A refused payload is handled exactly when admission was closed in the meantime. -/
theorem settles_refused_iff {P : Platform} {call : IngestCall} {mime : String} {bytes : Bytes}
    {s : Store} {error : BackendError} (hinserts : ¬Inserts P call mime bytes s)
    (hingest : ingest P call mime s = (call.refused error, s)) :
    Settles P call mime bytes s ↔ ∃ later, call.later = .ok later ∧ later.admission = false := by
  rw [Settles, or_iff_right hinserts, hingest, ← call.refused_ok]
  exact ⟨congrArg Prod.fst, fun h => Prod.ext h rfl⟩

/-- On a working store, a request that is refused leaves everything as it was. -/
theorem execute_healthy {P : Platform} {call : IngestCall} {bytes : Bytes} {s : Store}
    (h : call.Healthy bytes s) (request : ClipDaemon.Request) :
    (∃ r, request.effect P call.env s.committed = .ok r) ∨
      ∃ error, (s.db.execute call.faults (request.job P call.env)).1 = .error error ∧
        s.step P (.request request call.env call.faults) = s := by
  have hopened : s.db = Database.recovered s.committed := congrArg Store.db h.opened
  have hopen : s.isOpen = true := congrArg Store.isOpen h.opened
  have hexecute := Database.execute_none (request.job P call.env) s.committed
  cases heffect : request.effect P call.env s.committed with
  | ok r => exact .inl ⟨r, rfl⟩
  | error error =>
      rw [ClipDaemon.Request.effect] at heffect
      rw [heffect, ← hopened] at hexecute
      refine .inr ⟨error, by rw [h.faults, hexecute], ?_⟩
      have hstep : s.step P (.request request call.env call.faults) =
          ⟨(s.db.execute call.faults (request.job P call.env)).2, true⟩ := by
        simp only [Store.step, hopen, if_true]
      rw [hstep, h.faults, hexecute]
      exact congrArg (Store.mk s.db) hopen.symm

/-- An admitted payload is handled exactly when the store accepts it, or admission was closed
in the meantime. -/
theorem settles_admitted_iff {P : Platform} (hP : P.Named) {call : IngestCall} {mime : String}
    {bytes : Bytes} {s : Store} (h : call.Healthy bytes s) (hreached : Reached P s.committed)
    {policy : StorePolicy} (hpolicy : call.policy = .ok policy)
    (hadmits : admitBytes policy call.file = .ok (some bytes)) :
    Settles P call mime bytes s ↔
      (∃ later, call.later = .ok later ∧ later.admission = false) ∨
      ((Request.insert (captureMime mime) bytes).validate = .ok () ∧ call.submitted = .ok () ∧
        Accepts call.env (captureMime mime) bytes s.committed) := by
  cases hvalid : (Request.insert (captureMime mime) bytes).validate with
  | error error =>
      have hingest : ingest P call mime s = (call.refused error, s) := by
        simp only [ingest, h.running, hpolicy, hadmits, hvalid]
      have hinserts : ¬Inserts P call mime bytes s := fun hinserts => by
        have hno := hinserts.valid
        rw [hvalid] at hno
        cases hno
      rw [settles_refused_iff hinserts hingest]
      simp
  | ok _ =>
      cases hsubmitted : call.submitted with
      | error error =>
          have hingest : ingest P call mime s = (call.refused error, s) := by
            simp only [ingest, h.running, hpolicy, hadmits, hvalid, hsubmitted]
          have hinserts : ¬Inserts P call mime bytes s := fun hinserts => by
            have hno := hinserts.submitted
            rw [hsubmitted] at hno
            cases hno
          rw [settles_refused_iff hinserts hingest]
          simp
      | ok _ =>
          have haccepts : (∃ r, (Request.insert (captureMime mime) bytes).effect P call.env
              s.committed = .ok r) ↔ Accepts call.env (captureMime mime) bytes s.committed := by
            rw [← insert_succeeds_iff hP hreached hvalid]
            constructor
            · rintro ⟨⟨reply, t'⟩, heffect⟩
              obtain ⟨summary, -, heval⟩ := insert_effect_iff.mp heffect
              exact ⟨_, heval⟩
            · rintro ⟨⟨summary, t'⟩, heval⟩
              exact ⟨_, insert_effect_iff.mpr ⟨summary, rfl, heval⟩⟩
          simp only [true_and]
          rcases execute_healthy (P := P) h (.insert (captureMime mime) bytes) with
            hcommitted | ⟨error, hexecute, hstep⟩
          · exact ⟨fun _ => .inr (haccepts.mp hcommitted),
              fun _ => .inl ⟨⟨policy, hpolicy, hadmits⟩, hvalid, hsubmitted, hcommitted⟩⟩
          · by_cases hcommitted : ∃ r, (Request.insert (captureMime mime) bytes).effect P call.env
                s.committed = .ok r
            · exact ⟨fun _ => .inr (haccepts.mp hcommitted),
                fun _ => .inl ⟨⟨policy, hpolicy, hadmits⟩, hvalid, hsubmitted, hcommitted⟩⟩
            · have hingest : ingest P call mime s = (call.refused error, s) := by
                simp only [ingest, h.running, hpolicy, hadmits, hvalid, hsubmitted, hexecute, hstep]
              rw [settles_refused_iff (fun hinserts => hcommitted hinserts.committed) hingest,
                ← haccepts]
              exact (or_iff_left hcommitted).symm

/-- A call on a working store is handled exactly when `ingest` expects what happens: admission
is closed before or after, the payload is empty or over the entry limit, or the store accepts
it. -/
theorem ingest_settles_iff (P : Platform) (hP : P.Named) (ops : List DatabaseOp)
    (call : IngestCall) (mime : String) (bytes : Bytes)
    (h : call.Healthy bytes (Store.fresh.after P ops)) :
    Settles P call mime bytes (Store.fresh.after P ops) ↔
      Expected call mime bytes (Store.fresh.after P ops) := by
  have hreached := Store.after_reached P ops
  generalize Store.fresh.after P ops = s at h hreached ⊢
  have hanswers := h.policy
  cases hpolicy : call.policy with
  | error error =>
      have hingest : ingest P call mime s = (.error error.message, s) := by
        simp only [ingest, h.running, hpolicy]
      constructor
      · rintro (⟨⟨policy, hok, -⟩, -, -, -⟩ | hok)
        · rw [hpolicy] at hok
          cases hok
        · rw [hingest] at hok
          cases hok
      · rintro ⟨policy, hok, -⟩
        rw [hpolicy] at hok
        cases hok
  | ok policy =>
      rw [hpolicy] at hanswers
      have hadmits := admitBytes_same hanswers h.content h.reads
      by_cases hearly : policy.admission = false ∨ bytes = [] ∨ policy.maxEntryBytes < bytes.length
      · rw [if_pos hearly] at hadmits
        have hingest : ingest P call mime s = (.ok (), s) := by
          simp only [ingest, h.running, hpolicy, hadmits]
        refine ⟨fun _ => ⟨policy, hpolicy, ?_⟩, fun _ => .inr hingest⟩
        rcases hearly with hclosed | hempty | hlarge
        · exact .inl hclosed
        · exact .inr (.inl hempty)
        · exact .inr (.inr (.inl hlarge))
      · rw [if_neg hearly] at hadmits
        rw [settles_admitted_iff hP h hreached hpolicy hadmits]
        rw [not_or, not_or] at hearly
        constructor
        · exact fun hcases => ⟨policy, hpolicy, .inr (.inr (.inr hcases))⟩
        · rintro ⟨policy', hpolicy', hcases⟩
          rw [hpolicy] at hpolicy'
          obtain rfl := Except.ok.inj hpolicy'
          rcases hcases with hclosed | hempty | hlarge | hcases
          · exact absurd hclosed hearly.1
          · exact absurd hempty hearly.2.1
          · exact absurd hlarge hearly.2.2
          · exact hcases

/-- A text of two bytes is captured under a policy. -/
def callUnder (policy : StorePolicy) : IngestCall :=
  { overwrittenCall with
    policy := .ok policy
    file.content := fun _ => asBytes "ab"
    later := .ok policy }

/-- The run that applies the policy. -/
def opsUnder (policy : StorePolicy) : List DatabaseOp :=
  [.request (.applyPolicy policy) ⟨.empty, "0"⟩ .none]

theorem callUnder_healthy (policy : StorePolicy) (hvalid : Database.validPolicy policy = true)
    {s : Store} (hopened : s = ⟨Database.recovered s.committed, true⟩) :
    (callUnder policy).Healthy (asBytes "ab") s :=
  ⟨rfl, hvalid, hvalid, hopened, rfl, fun _ => rfl, fun _ => rfl⟩

theorem Platform.plain_named : Platform.plain.Named where
  sha256 _ := by simp [Platform.plain]
  guessFormat _ _ h := nomatch h
  readerFormat _ _ h := nomatch h

/-- The text is stored when there is room. -/
theorem ingest_settles_iff_open : Settles .plain (callUnder openPolicy) "text/plain" (asBytes "ab")
    (Store.fresh.after .plain (opsUnder openPolicy)) := by
  have hhealthy := callUnder_healthy openPolicy
    (s := Store.fresh.after .plain (opsUnder openPolicy)) (by decide) (by decide +kernel)
  refine (ingest_settles_iff .plain Platform.plain_named _ _ "text/plain" _ hhealthy).mpr ?_
  refine ⟨openPolicy, rfl, .inr (.inr (.inr (.inr ⟨by decide, rfl, ?_⟩)))⟩
  exact ⟨by decide +kernel, by decide +kernel, by decide +kernel, .inl (by decide +kernel),
    .inl (by decide +kernel), .inl (by decide +kernel)⟩

/-- Where one byte may be stored, and where no entry may, the text is refused, and the refusal
is reported as a failure. -/
theorem ingest_rejected :
    [{ openPolicy with maxTotalBytes := 1 }, { openPolicy with maxEntries := 0 }].Forall
      fun policy =>
      let s := Store.fresh.after .plain (opsUnder policy)
      (callUnder policy).Healthy (asBytes "ab") s ∧
        ingest .plain (callUnder policy) "text/plain" s =
          (.error (if policy.maxEntries = 0 then "Clipboard main history capacity is zero"
            else "Clipboard entry exceeds effective storage limits"), s) := by
  refine List.forall_iff_forall_mem.mpr fun policy hpolicy => ?_
  have hvalid : ∀ policy ∈ [{ openPolicy with maxTotalBytes := 1 },
      { openPolicy with maxEntries := 0 }], Database.validPolicy policy = true := by decide
  have hrun : ∀ policy ∈ [{ openPolicy with maxTotalBytes := 1 },
      { openPolicy with maxEntries := 0 }],
      let s := Store.fresh.after .plain (opsUnder policy)
      s = ⟨Database.recovered s.committed, true⟩ ∧
        ingest .plain (callUnder policy) "text/plain" s =
          (.error (if policy.maxEntries = 0 then "Clipboard main history capacity is zero"
            else "Clipboard entry exceeds effective storage limits"), s) := by decide +kernel
  obtain ⟨hopened, hingest⟩ := hrun policy hpolicy
  exact ⟨callUnder_healthy policy (hvalid policy hpolicy) hopened, hingest⟩

end ClipDaemon.Capture
