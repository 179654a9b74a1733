import ClipDaemon.Api.Session
import ClipDaemon.Backend

/-!
# Edit leases and wipe challenges

Two kinds of single-use tokens (`actions.rs`, `api.rs`).  An edit lease is handed out with
the text of an entry and lets its owner replace that entry once.  A wipe challenge lets
its owner wipe the history once.  Both live in a map behind a lock, and are looked up with
their owner and removed in one critical section.
-/

namespace ClipDaemon

def MAX_EDIT_BYTES : Nat := 256 * 1024

/-- Milliseconds that an edit lease is good for. -/
def EDIT_TTL : Nat := 60000

/-- Milliseconds that a wipe challenge is good for. -/
def CHALLENGE_TTL : Nat := 30000

/-- What a client is told of one entry. -/
structure EntryDetails where
  entry : EntrySummary
  text : Option String
  files : List FilePreview
  image : Option ImageMetadata
  previewTruncated : Bool
deriving DecidableEq

def editError (message : String) : ApiError := .new "edit-error" message

def staleTarget (message : String) : ApiError := .new "stale-target" message

def settingsError (message : String) : ApiError := .new "settings-error" message

def validateEntryId (id : String) : ApiResult Unit :=
  if id.isEmpty then .error (.validation "entry_id is required") else .ok ()

/-- The revision that the client expects is the one that is there. -/
def validateRevision (expected : Option Nat) (actual : Nat) : ApiResult Unit :=
  match expected with
  | some revision =>
      if revision ≠ actual then
        .error ⟨"stale-entry", "Clipboard entry changed; refresh and try again", true⟩
      else .ok ()
  | none => .ok ()

/-- The kinds that are edited as text. -/
def EntryKind.editable : EntryKind → Bool
  | .text | .link | .html | .json | .color => true
  | .image | .files | .binary => false

/-- The whole text of an entry, if it may be edited. -/
def editableValue (details : EntryDetails) : ApiResult String :=
  if !details.entry.kind.editable || details.previewTruncated then
    .error (editError "Clipboard entry is not safely editable")
  else
    match details.text with
    | none => .error (editError "Clipboard entry is not valid UTF-8 text")
    | some value =>
        if byteLen value ≤ MAX_EDIT_BYTES then .ok value
        else .error (editError "Clipboard entry exceeds the editable text limit")

/-! ## Leases -/

/-- The right to save an edit of an entry as it was shown. -/
structure EditLease where
  owner : Owner
  entryId : String
  revision : Nat
  mime : String
  expires : Nat
deriving DecidableEq

/-- The right to wipe the history. -/
structure WipeChallenge where
  owner : Owner
  expires : Nat
deriving DecidableEq

/-- A map of tokens, each with its owner and its expiry. -/
abbrev Tokens (τ : Type) := Uuid → Option τ

/-- What the two kinds of tokens have in common. -/
class Token (τ : Type) where
  owner : τ → Owner
  expires : τ → Nat

instance : Token EditLease := ⟨EditLease.owner, EditLease.expires⟩

instance : Token WipeChallenge := ⟨WipeChallenge.owner, WipeChallenge.expires⟩

namespace Tokens

variable {τ : Type} [Token τ]

/-- `retain(|_, token| token.expires > Instant::now())`. -/
def purge (tokens : Tokens τ) (now : Nat) : Tokens τ :=
  fun id => (tokens id).filter fun token => Token.expires token > now

/-- `retain(|_, token| token.owner.as_deref() != Some(owner))`. -/
def release (tokens : Tokens τ) (owner : String) : Tokens τ :=
  fun id => (tokens id).filter fun token => Token.owner token ≠ some owner

/-- The token gets this id. -/
def insert (tokens : Tokens τ) (id : Uuid) (token : τ) : Tokens τ :=
  Function.update tokens id (some token)

/-- The token is removed for its owner only. -/
def redeem (tokens : Tokens τ) (id : Uuid) (owner : Owner) : Option τ × Tokens τ :=
  match tokens id with
  | some token =>
      if Token.owner token = owner then (some token, Function.update tokens id none)
      else (none, tokens)
  | none => (none, tokens)

variable {tokens : Tokens τ} {id : Uuid} {owner : Owner} {now : Nat} {token : τ}

theorem purge_some {j : Uuid} (h : tokens.purge now j = some token) : tokens j = some token :=
  (Option.filter_eq_some_iff.mp h).1

/-- Only expired tokens are purged. -/
theorem purge_of_live {j : Uuid} (h : tokens j = some token) (hlive : now < Token.expires token) :
    tokens.purge now j = some token := by
  simp [purge, h, hlive]

theorem release_some {owner : String} {j : Uuid} (h : tokens.release owner j = some token) :
    tokens j = some token :=
  (Option.filter_eq_some_iff.mp h).1

theorem redeem_some (h : (tokens.redeem id owner).1 = some token) :
    tokens id = some token ∧ Token.owner token = owner ∧
      (tokens.redeem id owner).2 = Function.update tokens id none := by
  simp only [redeem] at h ⊢
  cases hid : tokens id with
  | none => rw [hid] at h; cases h
  | some found =>
      rw [hid] at h
      rcases eq_or_ne (Token.owner found) owner with heq | hne
      · simp only [heq, if_true, Option.some.injEq] at h
        subst h
        simp [heq]
      · simp [hne] at h

/-- A refusal leaves every token where it is. -/
theorem redeem_none (h : (tokens.redeem id owner).1 = none) :
    (tokens.redeem id owner).2 = tokens ∧
      ∀ token, tokens id = some token → Token.owner token ≠ owner := by
  simp only [redeem] at h ⊢
  cases hid : tokens id with
  | none => simp
  | some found =>
      rw [hid] at h
      rcases eq_or_ne (Token.owner found) owner with heq | hne
      · simp [heq] at h
      · simp [hne]

/-- Nothing but the redeemed token leaves the map. -/
theorem of_redeem {j : Uuid} (h : (tokens.redeem id owner).2 j = some token) :
    tokens j = some token := by
  cases hr : (tokens.redeem id owner).1 with
  | none => rwa [(redeem_none hr).1] at h
  | some found =>
      rw [(redeem_some hr).2.2] at h
      rcases eq_or_ne j id with rfl | hne
      · rw [Function.update_self] at h
        cases h
      · rwa [Function.update_of_ne hne] at h

/-- A token of another owner is not touched. -/
theorem redeem_of_ne {j : Uuid} (h : tokens j = some token) (hne : Token.owner token ≠ owner) :
    (tokens.redeem id owner).2 j = some token := by
  cases hr : (tokens.redeem id owner).1 with
  | none => rw [(redeem_none hr).1, h]
  | some found =>
      obtain ⟨hid, howner, hrest⟩ := redeem_some hr
      rcases eq_or_ne j id with rfl | hj
      · rw [hid] at h
        cases h
        exact absurd howner hne
      · rw [hrest, Function.update_of_ne hj, h]

end Tokens

end ClipDaemon
