import ClipDaemon.Api.Cursor
import ClipDaemon.Lib.Codes

/-!
# What a cursor proves

The authentication code of a cursor is computed over JSON text: an array of the cursor's own
text, the query, the generation, the owner or null, and whether echoes are collapsed
(`HistorySearch::mac`).  All five can be read off the text (`macText_prefixFree`), so one code
stands for one cursor and one scope.

`cursors_authentic` says that a cursor is accepted only in the scope it was issued for, and
that every cursor issued is accepted until it expires.
-/

namespace ClipDaemon

/-! ## JSON text -/

/-- One character of a JSON string, as `serde_json` writes it. -/
def jsonChar (c : Char) : List Char :=
  let n := c.toNat
  if n = 0x22 then ['\x5c', '\x22']
  else if n = 0x5C then ['\x5c', '\x5c']
  else if n = 0x08 then ['\x5c', 'b']
  else if n = 0x09 then ['\x5c', 't']
  else if n = 0x0A then ['\x5c', 'n']
  else if n = 0x0C then ['\x5c', 'f']
  else if n = 0x0D then ['\x5c', 'r']
  else if n < 0x20 then ['\x5c', 'u', '0', '0', hexDigit (n / 16), hexDigit (n % 16)]
  else [c]

/-- A string in quotes. -/
def jsonString (s : String) : List Char := '\x22' :: (s.toList.flatMap jsonChar ++ ['\x22'])

def jsonOption : Option String → List Char
  | none => "null".toList
  | some s => jsonString s

def jsonBool (b : Bool) : List Char := if b then "true".toList else "false".toList

/-- The array that is authenticated. -/
def macText (body : String) (scope : CursorScope) : List Char :=
  '[' :: jsonString body ++ ',' :: jsonString scope.query ++ ',' :: scope.generation.repr.toList ++
    ',' :: jsonOption scope.owner ++ ',' :: jsonBool scope.collapse ++ [']']

/-- The bytes that are authenticated (`serde_json::to_vec`). -/
def macInput (body : String) (scope : CursorScope) : Bytes :=
  asBytes (String.ofList (macText body scope))

/-- The codec of a process.  `hmac` is HMAC-SHA256 under its key, and `fromStr` is
`serde_json::from_str`. -/
def HistorySearch.codec (fromStr : String → Option Cursor) (hmac : Bytes → Bytes) :
    CursorCodec where
  fromStr := fromStr
  mac body scope := hmac (macInput body scope)

example : macText "a\"\n" ⟨"", 7, none, true⟩ =
    "[\"a\\\"\\n\",\"\",7,null,true]".toList := by decide

/-! ## Reading the text -/

/-- Read one character of a JSON string. -/
def readJsonChar : List Char → Option (Char × List Char)
  | '\x5c' :: 'u' :: '0' :: '0' :: high :: low :: cs => do
      let high ← hexValue high
      let low ← hexValue low
      pure (Char.ofNat (high * 16 + low), cs)
  | '\x5c' :: 'b' :: cs => some ('\x08', cs)
  | '\x5c' :: 't' :: cs => some ('\t', cs)
  | '\x5c' :: 'n' :: cs => some ('\n', cs)
  | '\x5c' :: 'f' :: cs => some ('\x0c', cs)
  | '\x5c' :: 'r' :: cs => some ('\r', cs)
  | '\x5c' :: c :: cs => some (c, cs)
  | c :: cs => some (c, cs)
  | [] => none

theorem jsonChar_ne_nil (c : Char) : jsonChar c ≠ [] := by
  unfold jsonChar
  dsimp only
  split_ifs <;> simp

/-- The quote that ends a string begins no character. -/
theorem jsonChar_head (c : Char) : (jsonChar c).head? ≠ some '\x22' := by
  unfold jsonChar
  dsimp only
  split_ifs with hquote <;> simp
  rintro rfl
  exact hquote rfl

theorem eq_of_toNat {c d : Char} (h : c.toNat = d.toNat) : c = d :=
  Char.ext (UInt32.toNat_inj.mp h)

/-- A character other than a backslash is read as itself. -/
theorem readJsonChar_cons {c : Char} (h : c ≠ '\x5c') (cs : List Char) :
    readJsonChar (c :: cs) = some (c, cs) := by
  unfold readJsonChar
  split <;> simp_all

theorem jsonChar_prefixFree : Code.PrefixFree jsonChar := by
  refine .of_read readJsonChar fun c x => ?_
  unfold jsonChar
  dsimp only
  split_ifs with hquote hbackslash hbackspace htab hline hpage hreturn hcontrol
  · rw [eq_of_toNat (d := '\x22') hquote]; rfl
  · rw [eq_of_toNat (d := '\x5c') hbackslash]; rfl
  · rw [eq_of_toNat (d := '\x08') hbackspace]; rfl
  · rw [eq_of_toNat (d := '\t') htab]; rfl
  · rw [eq_of_toNat (d := '\n') hline]; rfl
  · rw [eq_of_toNat (d := '\x0c') hpage]; rfl
  · rw [eq_of_toNat (d := '\r') hreturn]; rfl
  · simp only [List.cons_append, List.nil_append, readJsonChar,
      hexValue_hexDigit (c.toNat / 16) (by omega), hexValue_hexDigit (c.toNat % 16) (by omega),
      Option.bind_eq_bind, Option.bind_some]
    rw [show c.toNat / 16 * 16 + c.toNat % 16 = c.toNat by omega, Char.ofNat_toNat]
    rfl
  · refine readJsonChar_cons ?_ x
    rintro rfl
    exact hbackslash rfl

theorem jsonString_prefixFree : Code.PrefixFree jsonString := by
  intro a b x y heq
  have hchars := (jsonChar_prefixFree.flatMap_cons jsonChar_ne_nil jsonChar_head).const_append
    ['\x22'] a.toList b.toList x y heq
  exact ⟨String.toList_inj.mp hchars.1, hchars.2⟩

theorem jsonOption_prefixFree : Code.PrefixFree jsonOption := by
  rintro (_ | a) (_ | b) x y heq
  · exact ⟨rfl, List.append_cancel_left heq⟩
  · exact absurd (List.cons.inj heq).1 (by decide)
  · exact absurd (List.cons.inj heq).1 (by decide)
  · obtain ⟨rfl, hrest⟩ := jsonString_prefixFree a b x y heq
    exact ⟨rfl, hrest⟩

theorem jsonBool_prefixFree : Code.PrefixFree jsonBool := by
  rintro (_ | _) (_ | _) x y heq
  · exact ⟨rfl, List.append_cancel_left heq⟩
  · exact absurd (List.cons.inj heq).1 (by decide)
  · exact absurd (List.cons.inj heq).1 (by decide)
  · exact ⟨rfl, List.append_cancel_left heq⟩

/-- A number ends at a comma. -/
theorem repr_prefixFree : Code.PrefixFree fun n : Nat => n.repr.toList ++ [','] := by
  refine .of_read (fun cs => some (Nat.ofDigitChars 10 (cs.takeWhile Char.isDigit) 0,
    (cs.dropWhile Char.isDigit).tail)) fun n x => ?_
  have hdigits : ∀ d ∈ n.repr.toList, d.isDigit = true := by
    intro d hd
    rw [Nat.toList_repr] at hd
    exact Nat.isDigit_of_mem_toDigits (by decide) (by decide) hd
  rw [List.append_assoc, List.takeWhile_append_of_pos hdigits, List.dropWhile_append_of_pos hdigits,
    List.singleton_append, List.takeWhile_cons_of_neg (by decide),
    List.dropWhile_cons_of_neg (by decide), List.append_nil, Nat.toList_repr,
    Nat.ofDigitChars_ten_toDigits, List.tail_cons]

/-- The text of a body and a scope stands for no other body and no other scope. -/
theorem macText_inj {body body' : String} {scope scope' : CursorScope}
    (h : macText body scope = macText body' scope') : body = body' ∧ scope = scope' := by
  obtain ⟨query, generation, owner, collapse⟩ := scope
  obtain ⟨query', generation', owner', collapse'⟩ := scope'
  have key := ((((jsonString_prefixFree.append_const [',']).seq
    (jsonString_prefixFree.append_const [','])).seq repr_prefixFree).seq
    (jsonOption_prefixFree.append_const [','])).seq jsonBool_prefixFree
  have hinj := key ((((body, query), generation), owner), collapse)
    ((((body', query'), generation'), owner'), collapse') [']'] [']'] ?_
  · simp only [Prod.mk.injEq] at hinj
    obtain ⟨⟨⟨⟨⟨rfl, rfl⟩, rfl⟩, rfl⟩, rfl⟩, -⟩ := hinj
    exact ⟨rfl, rfl⟩
  · simpa [macText] using h

theorem macInput_inj {body body' : String} {scope scope' : CursorScope}
    (h : macInput body scope = macInput body' scope') : body = body' ∧ scope = scope' :=
  macText_inj (String.ofList_injective (asBytes_injective h))

/-! ## Length -/

theorem byteLen_append (s t : String) : byteLen (s ++ t) = byteLen s + byteLen t :=
  String.utf8ByteSize_append

theorem byteLen_repr (n : UInt64) : byteLen n.toNat.repr ≤ 20 := by
  rw [byteLen_of_ascii, String.length_toList, Nat.length_repr_le_iff (by decide)]
  · exact n.toNat_lt.trans (by decide)
  · intro d hd
    rw [Nat.toList_repr] at hd
    have hdigit := Nat.isDigit_of_mem_toDigits (by decide) (by decide) hd
    rw [Char.isDigit, Bool.and_eq_true, decide_eq_true_eq, decide_eq_true_eq] at hdigit
    exact lt_of_le_of_lt (UInt32.le_iff_toNat_le.mp hdigit.2) (by decide)

theorem hexDigit_ascii : ∀ n < 16, (hexDigit n).toNat < 0x80 := by decide

theorem byteLen_hexEncode (bytes : Bytes) : byteLen (hexEncode bytes) = 2 * bytes.length := by
  rw [byteLen_of_ascii]
  · rw [hexEncode, String.toList_ofList, List.length_flatMap]
    simp [Nat.mul_comm]
  · rw [hexEncode, String.toList_ofList]
    intro c hc
    obtain ⟨b, -, hb⟩ := List.mem_flatMap.mp hc
    have hlt : b.toNat < 256 := b.toNat_lt
    simp only [List.mem_cons, List.not_mem_nil, or_false] at hb
    rcases hb with rfl | rfl
    · exact hexDigit_ascii (b.toNat / 16) (by omega)
    · exact hexDigit_ascii (b.toNat % 16) (by omega)

/-- Every cursor that is issued is within the length that is accepted. -/
theorem byteLen_encode {C : CursorCodec} (cursor : Cursor) (scope : CursorScope)
    (h : (C.mac cursor.toJson scope).length = 32) : byteLen (C.encode cursor scope) ≤ 512 := by
  have htoken := byteLen_repr cursor.token
  have hoffset := byteLen_repr cursor.offset
  have hexpires := byteLen_repr cursor.expires
  have hliterals : byteLen "\x7b\"token\":" = 9 ∧ byteLen ",\"offset\":" = 10 ∧
      byteLen ",\"expires\":" = 11 ∧ byteLen "\x7d" = 1 ∧ byteLen "|" = 1 := by decide
  rw [CursorCodec.encode, byteLen_append, byteLen_append, byteLen_hexEncode, h, Cursor.toJson]
  simp only [byteLen_append, hliterals]
  omega

/-! ## Cursors -/

/-- When a text is accepted. -/
theorem CursorCodec.decode_ok_iff {C : CursorCodec} {elapsed : UInt64} {value : String}
    {scope : CursorScope} {cursor : Cursor} :
    C.decode elapsed value scope = .ok cursor ↔ byteLen value ≤ 512 ∧ ∃ body tag,
      rsplitOnce '|' value = some (body, tag) ∧ hexDecode tag = some (C.mac body scope) ∧
        C.fromStr body = some cursor ∧ elapsed < cursor.expires := by
  have hdecode : C.decode elapsed value scope = .ok cursor ↔
      C.read elapsed value scope = some cursor := by
    rw [CursorCodec.decode]
    cases C.read elapsed value scope <;> simp
  rw [hdecode, CursorCodec.read]
  simp only [Option.bind_eq_bind, Option.bind_eq_some_iff, Option.guard_eq_some', Option.pure_def,
    Option.some.injEq, Prod.exists]
  constructor
  · rintro ⟨-, hsize, body, tag, hsplit, bytes, hhex, -, rfl, read, hbody, -, hexpires, rfl⟩
    exact ⟨hsize, body, tag, hsplit, hhex, hbody, hexpires⟩
  · rintro ⟨hsize, body, tag, hsplit, hhex, hbody, hexpires⟩
    exact ⟨(), hsize, body, tag, hsplit, _, hhex, (), rfl, cursor, hbody, (), hexpires, rfl⟩

/-- No one presents a tag that was not issued: a text's tag is the code of an input only if it
was issued for exactly this input. -/
def TagIssued (hmac : Bytes → Bytes) (issued : List (Cursor × CursorScope)) (value : String) :
    Prop :=
  ∀ body tag bytes input, rsplitOnce '|' value = some (body, tag) → hexDecode tag = some bytes →
    bytes = hmac input → ∃ p ∈ issued, macInput p.1.toJson p.2 = input

/-- A cursor is accepted only in the scope it was issued for and before it expires, whatever
text is presented; and every cursor is accepted in its scope until it expires. -/
theorem cursors_authentic (fromStr : String → Option Cursor) (hmac : Bytes → Bytes)
    (hjson : (HistorySearch.codec fromStr hmac).Lawful)
    (hlength : ∀ input, (hmac input).length = 32) :
    (∀ issued elapsed value scope cursor, TagIssued hmac issued value →
      (HistorySearch.codec fromStr hmac).decode elapsed value scope = .ok cursor →
        (cursor, scope) ∈ issued ∧ elapsed < cursor.expires) ∧
    ∀ elapsed cursor scope, elapsed < cursor.expires →
      (HistorySearch.codec fromStr hmac).decode elapsed
        ((HistorySearch.codec fromStr hmac).encode cursor scope) scope = .ok cursor := by
  constructor
  · intro issued elapsed value scope cursor hissued hdecode
    obtain ⟨-, body, tag, hsplit, hhex, hbody, hexpires⟩ := CursorCodec.decode_ok_iff.mp hdecode
    obtain ⟨⟨cursor', scope'⟩, hmem, hinput⟩ := hissued body tag _ _ hsplit hhex rfl
    obtain ⟨hbody', rfl⟩ := macInput_inj hinput
    have hcursor := hjson cursor'
    rw [hbody'] at hcursor
    obtain rfl := Option.some.inj (hcursor.symm.trans hbody)
    exact ⟨hmem, hexpires⟩
  · intro elapsed cursor scope hexpires
    refine CursorCodec.decode_ok_iff.mpr ⟨byteLen_encode cursor scope (hlength _), _, _,
      rsplitOnce_append _ _ (bar_notMem_hexEncode _), hexDecode_encode _, hjson cursor, hexpires⟩

/-! ## One cursor -/

def cafeCursor : Cursor := ⟨9, 200, 120⟩

def cafeScope : CursorScope := ⟨"cafe", 7, some ":1.2", true⟩

/-- A tag of its own for one input. -/
def cafeTag (input : Bytes) : Bytes :=
  List.replicate 32 (if input = macInput cafeCursor.toJson cafeScope then 1 else 0)

/-- A cursor is accepted after a minute, in no scope but its own. -/
theorem cursors_authentic_cafe :
    let C := HistorySearch.codec readCursor cafeTag
    C.decode 60 (C.encode cafeCursor cafeScope) cafeScope = .ok cafeCursor ∧
      ∀ scope cursor, C.decode 60 (C.encode cafeCursor cafeScope) scope = .ok cursor →
        scope = cafeScope := by
  obtain ⟨hsafe, hlive⟩ := cursors_authentic readCursor cafeTag readCursor_toJson
    fun _ => List.length_replicate
  refine ⟨hlive 60 cafeCursor cafeScope (by decide), fun scope cursor hdecode => ?_⟩
  have hissued : TagIssued cafeTag [(cafeCursor, cafeScope)]
      ((HistorySearch.codec readCursor cafeTag).encode cafeCursor cafeScope) := by
    intro body tag bytes input hsplit hhex hbytes
    have hparts := (rsplitOnce_append _ _ (bar_notMem_hexEncode _)).symm.trans hsplit
    obtain ⟨rfl, rfl⟩ := Prod.mk.inj (Option.some.inj hparts)
    rw [hexDecode_encode] at hhex
    obtain rfl := Option.some.inj hhex
    refine ⟨_, List.mem_singleton_self _, ?_⟩
    by_contra hne
    have hhead := congrArg List.head? hbytes
    change List.head? (cafeTag (macInput cafeCursor.toJson cafeScope)) = _ at hhead
    rw [cafeTag, cafeTag, if_pos rfl, if_neg (Ne.symm hne)] at hhead
    exact absurd hhead (by decide)
  have hmem := (hsafe _ _ _ _ _ hissued hdecode).1
  exact (Prod.mk.inj (List.mem_singleton.mp hmem)).2

end ClipDaemon
