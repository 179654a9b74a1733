import ClipDaemon.Backend
import Mathlib.Data.Option.Basic

/-!
# Search cursors

A cursor carries a catalog token, an offset and an expiry time as JSON text, and after a
bar the authentication code of that text together with the query it belongs to
(`history_search.rs`).  Nothing is kept on the side of the server.

What was encoded is decoded to the same cursor or refused as stale (`decode_encode`,
`decode_error`).
-/

namespace ClipDaemon

def CURSOR_SECONDS : UInt64 := 120

/-- A place in a listing, and the token of the catalog that it was listed from. -/
structure Cursor where
  token : UInt64
  offset : UInt64
  expires : UInt64
deriving DecidableEq

/-- What a cursor may be used for. -/
structure CursorScope where
  query : String
  generation : Nat
  owner : Option String
  collapse : Bool
deriving DecidableEq

/-- The text of a cursor (`serde_json::to_string`). -/
def Cursor.toJson (c : Cursor) : String :=
  "\x7b\"token\":" ++ c.token.toNat.repr ++ ",\"offset\":" ++ c.offset.toNat.repr ++
    ",\"expires\":" ++ c.expires.toNat.repr ++ "\x7d"

/-- Reading JSON text, and the authentication code under the key of the process. -/
structure CursorCodec where
  fromStr : String → Option Cursor
  mac : String → CursorScope → Bytes

/-- A JSON reader reads back what was written. -/
def CursorCodec.Lawful (C : CursorCodec) : Prop := ∀ cursor : Cursor,
  C.fromStr cursor.toJson = some cursor

/-- The catalog changed or the cursor expired (`stale`). -/
def staleCursor : ApiError :=
  .new "stale-cursor" "Clipboard history changed or the cursor expired; refresh the query"

/-- The catalog is the one that the cursor was made for. -/
def Cursor.check (c : Cursor) (token : UInt64) : ApiResult Unit :=
  if c.token = token then .ok () else .error staleCursor

/-- The cursor after so many more entries (`usize::saturating_add`). -/
def Cursor.advance (c : Cursor) (consumed : Nat) : Cursor :=
  { c with offset := UInt64.ofNat (min (c.offset.toNat + consumed) (2 ^ 64 - 1)) }

theorem Cursor.advance_offset {c : Cursor} {consumed : Nat}
    (h : c.offset.toNat + consumed < 2 ^ 64) :
    (c.advance consumed).offset.toNat = c.offset.toNat + consumed := by
  rw [advance, Nat.min_eq_left (by omega), UInt64.toNat_ofNat_of_lt' h]

namespace CursorCodec

/-- The cursor as text, with its authentication code. -/
def encode (C : CursorCodec) (cursor : Cursor) (scope : CursorScope) : String :=
  cursor.toJson ++ "|" ++ hexEncode (C.mac cursor.toJson scope)

/-- The cursor behind a text, `elapsed` seconds after the start of the process. -/
def read (C : CursorCodec) (elapsed : UInt64) (value : String) (scope : CursorScope) :
    Option Cursor := do
  guard (byteLen value ≤ 512)
  let (body, tag) ← rsplitOnce '|' value
  let tag ← hexDecode tag
  guard (tag = C.mac body scope)
  let cursor ← C.fromStr body
  guard (elapsed < cursor.expires)
  pure cursor

/-- A cursor that cannot be read, or is not for this scope, is stale. -/
def decode (C : CursorCodec) (elapsed : UInt64) (value : String) (scope : CursorScope) :
    ApiResult Cursor :=
  match C.read elapsed value scope with
  | some cursor => .ok cursor
  | none => .error staleCursor

/-- A text that was encoded is decoded to the same cursor, if at all. -/
theorem decode_encode {C : CursorCodec} (hC : C.Lawful) {elapsed : UInt64} {cursor read : Cursor}
    {scope : CursorScope}
    (h : C.decode elapsed (C.encode cursor scope) scope = .ok read) : read = cursor := by
  have hsplit : rsplitOnce '|' (C.encode cursor scope) =
      some (cursor.toJson, hexEncode (C.mac cursor.toJson scope)) :=
    rsplitOnce_append _ _ (bar_notMem_hexEncode _)
  cases hread : C.read elapsed (C.encode cursor scope) scope with
  | none => rw [decode, hread] at h; cases h
  | some found =>
      rw [decode, hread] at h
      cases h
      simp only [CursorCodec.read, hsplit, hexDecode_encode, hC cursor, Option.bind_eq_bind,
        Option.bind_some, Option.bind_eq_some_iff] at hread
      obtain ⟨_, _, _, _, _, _, hfound⟩ := hread
      cases hfound
      rfl

/-- A cursor that cannot be decoded is stale. -/
theorem decode_error {C : CursorCodec} {elapsed : UInt64} {value : String} {scope : CursorScope}
    {e : ApiError} (h : C.decode elapsed value scope = .error e) : e = staleCursor := by
  cases hread : C.read elapsed value scope with
  | none => rw [decode, hread] at h; cases h; rfl
  | some cursor => rw [decode, hread] at h; cases h

end CursorCodec

/-! ## A reader for the texts written -/

/-- The rest of a text after a literal. -/
def dropLiteral : List Char → List Char → Option (List Char)
  | [], cs => some cs
  | _ :: _, [] => none
  | l :: ls, c :: cs => if l = c then dropLiteral ls cs else none

theorem dropLiteral_append (literal cs : List Char) :
    dropLiteral literal (literal ++ cs) = some cs := by
  induction literal with
  | nil => rfl
  | cons l ls ih => rw [List.cons_append, dropLiteral, if_pos rfl, ih]

/-- A decimal number and the rest of the text. -/
def readDecimal (cs : List Char) : UInt64 × List Char :=
  (UInt64.ofNat (Nat.ofDigitChars 10 (cs.takeWhile Char.isDigit) 0), cs.dropWhile Char.isDigit)

theorem readDecimal_append (n : UInt64) {rest : List Char}
    (h : ∀ c ∈ rest.head?, c.isDigit = false) :
    readDecimal (n.toNat.repr.toList ++ rest) = (n, rest) := by
  have hdigits : ∀ d ∈ n.toNat.repr.toList, d.isDigit = true := by
    intro d hd
    rw [Nat.toList_repr] at hd
    exact Nat.isDigit_of_mem_toDigits (by decide) (by decide) hd
  have hrest : rest.takeWhile Char.isDigit = [] ∧ rest.dropWhile Char.isDigit = rest := by
    cases rest with
    | nil => exact ⟨rfl, rfl⟩
    | cons c cs =>
        have hc : c.isDigit = false := h c rfl
        rw [List.takeWhile_cons_of_neg (by simp [hc]), List.dropWhile_cons_of_neg (by simp [hc])]
        exact ⟨rfl, rfl⟩
  rw [readDecimal, List.takeWhile_append_of_pos hdigits, List.dropWhile_append_of_pos hdigits,
    hrest.1, hrest.2, List.append_nil, Nat.toList_repr, Nat.ofDigitChars_ten_toDigits,
    UInt64.ofNat_toNat]

/-- Read the three fields in the order they are written in. -/
def readCursor (text : String) : Option Cursor := do
  let rest ← dropLiteral "\x7b\"token\":".toList text.toList
  let (token, rest) := readDecimal rest
  let rest ← dropLiteral ",\"offset\":".toList rest
  let (offset, rest) := readDecimal rest
  let rest ← dropLiteral ",\"expires\":".toList rest
  let (expires, rest) := readDecimal rest
  if rest = ['}'] then some { token, offset, expires } else none

/-- No literal after a number starts with a digit. -/
theorem head_literal {literal rest : List Char} {c : Char} (h : literal.head? = some c)
    (hc : c.isDigit = false) : ∀ d ∈ (literal ++ rest).head?, d.isDigit = false := by
  intro d hd
  rw [List.head?_append, h] at hd
  cases hd
  exact hc

theorem readCursor_toJson (cursor : Cursor) : readCursor cursor.toJson = some cursor := by
  have htoken : ∀ rest, readDecimal (cursor.token.toNat.repr.toList ++
      (",\"offset\":".toList ++ rest)) = (cursor.token, ",\"offset\":".toList ++ rest) :=
    fun _ => readDecimal_append _ (head_literal (c := ',') (by decide) (by decide))
  have hoffset : ∀ rest, readDecimal (cursor.offset.toNat.repr.toList ++
      (",\"expires\":".toList ++ rest)) = (cursor.offset, ",\"expires\":".toList ++ rest) :=
    fun _ => readDecimal_append _ (head_literal (c := ',') (by decide) (by decide))
  have hexpires : readDecimal (cursor.expires.toNat.repr.toList ++ "\x7d".toList) =
      (cursor.expires, "\x7d".toList) :=
    readDecimal_append _ fun d hd => by
      rw [show "\x7d".toList.head? = some '\x7d' from rfl] at hd
      cases hd
      rfl
  simp only [readCursor, Cursor.toJson, String.toList_append, List.append_assoc,
    dropLiteral_append, Option.bind_eq_bind, Option.bind_some, htoken, hoffset, hexpires]
  exact if_pos (by decide)

/-- A codec with this reader and one code for all texts. -/
def CursorCodec.plain : CursorCodec where
  fromStr := readCursor
  mac _ _ := List.replicate 32 0

theorem CursorCodec.plain_lawful : CursorCodec.plain.Lawful := readCursor_toJson

end ClipDaemon
