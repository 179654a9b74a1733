import Mathlib.Algebra.GroupWithZero.Nat
import Mathlib.Data.List.Basic
import Mathlib.Data.List.Infix
import Mathlib.Data.String.Basic

/-!
# Bytes and text

The parts of Rust's standard library the daemon computes with: UTF-8 decoding, strict
and lossy, lines, trimming, lower casing, and hexadecimal text.

A payload is a list of bytes and a Rust `str` is a Lean `String`.  The Unicode property
tables are a parameter `Unicode`; what is computed from them follows the standard
library.  Lower casing maps every character on its own except capital sigma, which
becomes a final sigma at the end of a word (`toLowercase`).
-/

namespace ClipDaemon

/-- A payload, and every other byte string. -/
abbrev Bytes := List UInt8

/-! ## UTF-8 -/

/-- A code point under construction: continuation bytes still to come, the bits read so
far, and the range the next byte must lie in. -/
structure Utf8Partial where
  remaining : Nat
  bits : Nat
  low : UInt8
  high : UInt8
deriving DecidableEq

/-- What a byte outside a sequence starts: a character, a longer sequence, or nothing. -/
def utf8Start (b : UInt8) : List (Option Char) × Option Utf8Partial :=
  if b < 0x80 then ([some (Char.ofNat b.toNat)], none)
  else if 0xC2 ≤ b ∧ b ≤ 0xDF then ([], some ⟨1, b.toNat - 0xC0, 0x80, 0xBF⟩)
  else if b = 0xE0 then ([], some ⟨2, 0, 0xA0, 0xBF⟩)
  else if b = 0xED then ([], some ⟨2, 0xD, 0x80, 0x9F⟩)
  else if 0xE1 ≤ b ∧ b ≤ 0xEF then ([], some ⟨2, b.toNat - 0xE0, 0x80, 0xBF⟩)
  else if b = 0xF0 then ([], some ⟨3, 0, 0x90, 0xBF⟩)
  else if 0xF1 ≤ b ∧ b ≤ 0xF3 then ([], some ⟨3, b.toNat - 0xF0, 0x80, 0xBF⟩)
  else if b = 0xF4 then ([], some ⟨3, 4, 0x80, 0x8F⟩)
  else ([none], none)

/-- The characters of a byte string; `none` stands for one maximal invalid piece. -/
def utf8Chunks : Option Utf8Partial → Bytes → List (Option Char)
  | none, [] => []
  | some _, [] => [none]
  | none, b :: bs => (utf8Start b).1 ++ utf8Chunks (utf8Start b).2 bs
  | some p, b :: bs =>
      if p.low ≤ b ∧ b ≤ p.high then
        let bits := p.bits * 64 + (b.toNat - 0x80)
        if p.remaining = 1 then some (Char.ofNat bits) :: utf8Chunks none bs
        else utf8Chunks (some ⟨p.remaining - 1, bits, 0x80, 0xBF⟩) bs
      else
        -- the sequence ends here and the byte starts anew
        none :: ((utf8Start b).1 ++ utf8Chunks (utf8Start b).2 bs)

/-- `str::from_utf8`. -/
def fromUtf8 (bytes : Bytes) : Option String :=
  ((utf8Chunks none bytes).mapM id).map String.ofList

/-- `String::from_utf8_lossy`: every invalid piece becomes U+FFFD. -/
def fromUtf8Lossy (bytes : Bytes) : String :=
  String.ofList ((utf8Chunks none bytes).map (·.getD '\uFFFD'))

/-- The encoding of one character. -/
def utf8EncodeChar (c : Char) : Bytes :=
  let n := c.toNat
  if n < 0x80 then [UInt8.ofNat n]
  else if n < 0x800 then [UInt8.ofNat (0xC0 + n / 64), UInt8.ofNat (0x80 + n % 64)]
  else if n < 0x10000 then
    [UInt8.ofNat (0xE0 + n / 4096), UInt8.ofNat (0x80 + n / 64 % 64),
      UInt8.ofNat (0x80 + n % 64)]
  else
    [UInt8.ofNat (0xF0 + n / 262144), UInt8.ofNat (0x80 + n / 4096 % 64),
      UInt8.ofNat (0x80 + n / 64 % 64), UInt8.ofNat (0x80 + n % 64)]

/-- `str::as_bytes`. -/
def asBytes (s : String) : Bytes := s.toList.flatMap utf8EncodeChar

/-- `str::len`, which counts bytes. -/
def byteLen (s : String) : Nat := s.utf8ByteSize

/-- A character takes at least one byte. -/
theorem length_le_byteLen (s : String) : s.toList.length ≤ byteLen s := by
  rw [byteLen, ← String.utf8Len_toList]
  induction s.toList with
  | nil => exact Nat.le_refl 0
  | cons c cs ih =>
      have hpos := Char.utf8Size_pos c
      simp only [List.length_cons, String.utf8Len_cons]
      omega

/-- An ASCII character takes exactly one byte. -/
theorem byteLen_of_ascii {s : String} (h : ∀ c ∈ s.toList, c.toNat < 0x80) :
    byteLen s = s.toList.length := by
  have hsize : ∀ c ∈ s.toList, c.utf8Size = 1 := by
    intro c hc
    have hlt := h c hc
    rw [Char.utf8Size, if_pos]
    rw [UInt32.le_iff_toNat_le]
    exact Nat.le_of_lt_succ hlt
  rw [byteLen, ← String.utf8Len_toList]
  generalize s.toList = cs at hsize
  induction cs with
  | nil => rfl
  | cons c cs ih =>
      rw [String.utf8Len_cons, List.length_cons, hsize c (List.mem_cons_self ..),
        ih fun c' hc' => hsize c' (List.mem_cons_of_mem c hc')]

/-- The encoding is the one Lean's strings use. -/
theorem utf8EncodeChar_eq (c : Char) : utf8EncodeChar c = String.utf8EncodeChar c := by
  have hmax : c.toNat < 0x110000 := by
    rcases c.valid with h | h
    · exact Nat.lt_trans h (by decide)
    · exact h.2
  unfold utf8EncodeChar String.utf8EncodeChar
  simp only [Char.toNat_val]
  generalize c.toNat = n at hmax
  by_cases h1 : n < 0x80
  · rw [if_pos h1, if_pos (show n ≤ 0x7F by omega)]
  · rw [if_neg h1, if_neg (show ¬n ≤ 0x7F by omega)]
    by_cases h2 : n < 0x800
    · rw [if_pos h2, if_pos (show n ≤ 0x7FF by omega)]
      simp only [List.cons.injEq, and_true]
      exact ⟨congrArg _ (by omega), congrArg _ (by omega)⟩
    · rw [if_neg h2, if_neg (show ¬n ≤ 0x7FF by omega)]
      by_cases h3 : n < 0x10000
      · rw [if_pos h3, if_pos (show n ≤ 0xFFFF by omega)]
        simp only [List.cons.injEq, and_true]
        exact ⟨congrArg _ (by omega), congrArg _ (by omega), congrArg _ (by omega)⟩
      · rw [if_neg h3, if_neg (show ¬n ≤ 0xFFFF by omega)]
        simp only [List.cons.injEq, and_true]
        exact ⟨congrArg _ (by omega), congrArg _ (by omega), congrArg _ (by omega),
          congrArg _ (by omega)⟩

/-- Texts with the same bytes are the same. -/
theorem asBytes_injective : Function.Injective asBytes := by
  intro s t h
  have hbytes (s : String) : s.toByteArray = (asBytes s).toByteArray := by
    rw [asBytes, funext utf8EncodeChar_eq]
    exact String.utf8Encode_toList.symm
  rw [← String.toByteArray_inj, hbytes, hbytes, h]

example : fromUtf8 [0x61, 0xC3, 0xA9] = some "aé" := by decide
example : fromUtf8 [0x61, 0xC3] = none := by decide
example : fromUtf8Lossy [0x61, 0xE2, 0x82, 0x62] = "a\uFFFDb" := by decide

/-! ## White space, lines and trimming -/

/-- `char::is_whitespace`, the property White_Space. -/
def isWhitespace (c : Char) : Bool :=
  let n := c.toNat
  (9 ≤ n && n ≤ 13) || n == 0x20 || n == 0x85 || n == 0xA0 || n == 0x1680 ||
    (0x2000 ≤ n && n ≤ 0x200A) || n == 0x2028 || n == 0x2029 || n == 0x202F ||
    n == 0x205F || n == 0x3000

/-- `char::is_control`, the category Cc. -/
def isControl (c : Char) : Bool :=
  let n := c.toNat
  n ≤ 0x1F || (0x7F ≤ n && n ≤ 0x9F)

/-- `u8::is_ascii_whitespace`. -/
def isAsciiWhitespace (b : UInt8) : Bool :=
  b == 0x20 || b == 0x09 || b == 0x0A || b == 0x0C || b == 0x0D

/-- `str::trim`. -/
def trim (s : String) : String :=
  String.ofList ((s.toList.dropWhile isWhitespace).reverse.dropWhile isWhitespace).reverse

/-- The pieces of a text between characters that satisfy `sep`, empty ones included. -/
def splitChars (sep : Char → Bool) : List Char → List (List Char)
  | [] => [[]]
  | c :: cs =>
      if sep c then [] :: splitChars sep cs
      else
        match splitChars sep cs with
        | [] => [[c]]
        | w :: ws => (c :: w) :: ws

/-- `str::split_whitespace`. -/
def splitWhitespace (s : String) : List (List Char) :=
  (splitChars isWhitespace s.toList).filter (· ≠ [])

/-- A line without its terminator, read backwards: a carriage return before the line
feed goes too. -/
def stripCarriageReturn : List Char → List Char
  | '\r' :: cs => cs
  | cs => cs

/-- The lines of a text after the characters `acc`, in reverse, of the line begun. -/
def linesFrom : List Char → List Char → List (List Char)
  | [], [] => []
  | acc, [] => [acc.reverse]
  | acc, c :: cs =>
      if c = '\n' then (stripCarriageReturn acc).reverse :: linesFrom [] cs
      else linesFrom (c :: acc) cs

/-- `str::lines`. -/
def lines (s : String) : List String := (linesFrom [] s.toList).map String.ofList

example : lines "a\r\n\nb" = ["a", "", "b"] := by decide
example : trim " \ta b\n" = "a b" := by decide

/-- The characters before and after the last separator. -/
def rsplitChars (sep : Char) : List Char → Option (List Char × List Char)
  | [] => none
  | c :: cs =>
      match rsplitChars sep cs with
      | some (before, after) => some (c :: before, after)
      | none => if c = sep then some ([], cs) else none

/-- `str::rsplit_once`. -/
def rsplitOnce (sep : Char) (s : String) : Option (String × String) :=
  (rsplitChars sep s.toList).map fun (before, after) => (String.ofList before, String.ofList after)

theorem rsplitChars_eq_none {sep : Char} {cs : List Char} (h : sep ∉ cs) :
    rsplitChars sep cs = none := by
  induction cs with
  | nil => rfl
  | cons c cs ih =>
      have hc : c ≠ sep := fun hc => h (hc ▸ List.mem_cons_self ..)
      have hcs : sep ∉ cs := fun hcs => h (List.mem_cons_of_mem c hcs)
      rw [rsplitChars, ih hcs]
      simp only [if_neg hc]

/-- The part after the last separator holds none. -/
theorem rsplitOnce_append {sep : Char} (before after : String) (h : sep ∉ after.toList) :
    rsplitOnce sep (before ++ String.ofList [sep] ++ after) = some (before, after) := by
  have key : ∀ cs : List Char,
      rsplitChars sep (cs ++ sep :: after.toList) = some (cs, after.toList) := by
    intro cs
    induction cs with
    | nil =>
        rw [List.nil_append, rsplitChars, rsplitChars_eq_none h]
        simp only [if_true]
    | cons c cs ih => rw [List.cons_append, rsplitChars, ih]
  have hlist : (before ++ String.ofList [sep] ++ after).toList =
      before.toList ++ sep :: after.toList := by
    simp [String.toList_append]
  rw [rsplitOnce, hlist, key]
  simp

/-! ## Case -/

/-- The Unicode property tables the daemon reads through the standard library. -/
structure Unicode where
  /-- The lower case mapping of one character. -/
  lower : Char → List Char
  /-- `char::is_alphanumeric`. -/
  isAlphanumeric : Char → Bool
  /-- The property Cased. -/
  isCased : Char → Bool
  /-- The property Case_Ignorable. -/
  isCaseIgnorable : Char → Bool

/-- Is the first character that is not case ignorable a cased one? -/
def caseIgnorableThenCased (U : Unicode) (cs : List Char) : Bool :=
  match cs.dropWhile U.isCaseIgnorable with
  | [] => false
  | c :: _ => U.isCased c

/-- Capital sigma between the characters `before`, read backwards, and `after`. -/
def lowerSigma (U : Unicode) (before after : List Char) : Char :=
  if caseIgnorableThenCased U before && !caseIgnorableThenCased U after then 'ς' else 'σ'

/-- Lower casing of a text whose preceding characters are `before`, read backwards. -/
def lowerFrom (U : Unicode) (before : List Char) : List Char → List Char
  | [] => []
  | c :: cs =>
      (if c = 'Σ' then [lowerSigma U before cs] else U.lower c) ++ lowerFrom U (c :: before) cs

/-- `str::to_lowercase`. -/
def toLowercase (U : Unicode) (s : String) : String :=
  String.ofList (lowerFrom U [] s.toList)

/-- `str::to_ascii_lowercase`. -/
def toAsciiLowercase (s : String) : String := String.ofList (s.toList.map Char.toLower)

/-- `str::eq_ignore_ascii_case`. -/
def eqIgnoreAsciiCase (s t : String) : Bool := toAsciiLowercase s == toAsciiLowercase t

/-- The tables restricted to ASCII. -/
def Unicode.ascii : Unicode where
  lower c := [c.toLower]
  isAlphanumeric := Char.isAlphanum
  isCased := Char.isAlpha
  isCaseIgnorable c := c == '\''

/-! ## Hexadecimal text -/

/-- One hexadecimal digit. -/
def hexDigit (n : Nat) : Char := if n < 10 then Char.ofNat (48 + n) else Char.ofNat (87 + n)

/-- `hex::encode`. -/
def hexEncode (bytes : Bytes) : String :=
  String.ofList (bytes.flatMap fun b => [hexDigit (b.toNat / 16), hexDigit (b.toNat % 16)])

/-- The value of a hexadecimal digit of either case. -/
def hexValue (c : Char) : Option Nat :=
  if '0' ≤ c ∧ c ≤ '9' then some (c.toNat - 48)
  else if 'a' ≤ c ∧ c ≤ 'f' then some (c.toNat - 87)
  else if 'A' ≤ c ∧ c ≤ 'F' then some (c.toNat - 55)
  else none

/-- The bytes of pairs of hexadecimal digits. -/
def hexDecodeChars : List Char → Option Bytes
  | [] => some []
  | [_] => none
  | c :: d :: cs => do
      let high ← hexValue c
      let low ← hexValue d
      let rest ← hexDecodeChars cs
      pure (UInt8.ofNat (high * 16 + low) :: rest)

/-- `hex::decode`. -/
def hexDecode (s : String) : Option Bytes := hexDecodeChars s.toList

theorem hexValue_hexDigit : ∀ n < 16, hexValue (hexDigit n) = some n := by decide

theorem hexDigit_ne_bar : ∀ n < 16, hexDigit n ≠ '|' := by decide

/-- Decoding undoes encoding. -/
theorem hexDecode_encode (bytes : Bytes) : hexDecode (hexEncode bytes) = some bytes := by
  unfold hexDecode hexEncode
  rw [String.toList_ofList]
  induction bytes with
  | nil => rfl
  | cons b bs ih =>
      have hb : b.toNat < 256 := b.toNat_lt
      rw [List.flatMap_cons]
      simp only [List.cons_append, List.nil_append, hexDecodeChars,
        hexValue_hexDigit (b.toNat / 16) (by omega), hexValue_hexDigit (b.toNat % 16)
          (by omega), ih]
      have hval : b.toNat / 16 * 16 + b.toNat % 16 = b.toNat := by omega
      change some (UInt8.ofNat (b.toNat / 16 * 16 + b.toNat % 16) :: bs) = some (b :: bs)
      rw [hval, UInt8.ofNat_toNat]

/-- Encoded bytes hold no bar. -/
theorem bar_notMem_hexEncode (bytes : Bytes) : '|' ∉ (hexEncode bytes).toList := by
  unfold hexEncode
  rw [String.toList_ofList]
  intro h
  obtain ⟨b, -, hb⟩ := List.mem_flatMap.mp h
  have hlt : b.toNat < 256 := b.toNat_lt
  simp only [List.mem_cons, List.not_mem_nil, or_false] at hb
  rcases hb with hb | hb
  · exact hexDigit_ne_bar (b.toNat / 16) (by omega) hb.symm
  · exact hexDigit_ne_bar (b.toNat % 16) (by omega) hb.symm

end ClipDaemon
