import ClipDaemon.Store.Search
import ClipDaemon.Store.Service

/-!
# Searching for a piece of the text

A query and a document are put into lower case apart from each other, and every
character has one lower case wherever it stands, except capital sigma: it becomes a final
sigma at the end of a word.  A piece of a text is a text of its own, and words end in it
where they do not end in the whole.

`lowerIn` is the lower casing of a piece in its place.  It has the length of the lower
casing of the piece alone (`length_lowerIn`), and it is that text exactly when every
capital sigma of the piece takes the same form in both (`lowerIn_eq_iff`).  So a search
for a piece finds its text when the sigmas of the piece keep their form, or when the
query happens to occur at another place (`Store.literal_found_iff`).
-/

namespace ClipDaemon

open Paging

variable {U : Unicode}

/-! ## Lower casing in place -/

/-- The lower casing of a piece between the characters `before`, read backwards, and
`after`. -/
def lowerIn (U : Unicode) (before : List Char) : List Char → List Char → List Char
  | [], _ => []
  | c :: cs, after =>
      (if c = 'Σ' then [lowerSigma U before (cs ++ after)] else U.lower c) ++
        lowerIn U (c :: before) cs after

@[simp] theorem lowerIn_nil_right (before cs : List Char) :
    lowerIn U before cs [] = lowerFrom U before cs := by
  induction cs generalizing before with
  | nil => rfl
  | cons c cs ih => simp [lowerIn, lowerFrom, ih]

/-- The lower casing of a text is that of its pieces in place. -/
theorem lowerFrom_append (before cs after : List Char) :
    lowerFrom U before (cs ++ after) =
      lowerIn U before cs after ++ lowerFrom U (cs.reverse ++ before) after := by
  induction cs generalizing before with
  | nil => rfl
  | cons c cs ih => simp [lowerIn, lowerFrom, ih]

/-- The length of a lower casing does not depend on the place. -/
theorem length_lowerIn (before before' cs after after' : List Char) :
    (lowerIn U before cs after).length = (lowerIn U before' cs after').length := by
  induction cs generalizing before before' with
  | nil => rfl
  | cons c cs ih =>
      simp only [lowerIn, List.length_append, ih (c :: before) (c :: before')]
      split <;> rfl

/-- Two places give a piece the same lower case exactly when they give each of its capital
sigmas the same form. -/
theorem lowerIn_eq_iff (before before' cs after after' : List Char) :
    lowerIn U before cs after = lowerIn U before' cs after' ↔
      ∀ x y, cs = x ++ 'Σ' :: y →
        lowerSigma U (x.reverse ++ before) (y ++ after) =
          lowerSigma U (x.reverse ++ before') (y ++ after') := by
  induction cs generalizing before before' with
  | nil => simp [lowerIn]
  | cons c cs ih =>
      have hhead : (if c = 'Σ' then [lowerSigma U before (cs ++ after)] else U.lower c).length =
          (if c = 'Σ' then [lowerSigma U before' (cs ++ after')] else U.lower c).length := by
        split <;> rfl
      rw [lowerIn, lowerIn]
      constructor
      · intro h x y hxy
        obtain ⟨hc, hcs⟩ := List.append_inj h hhead
        rw [ih] at hcs
        cases x with
        | nil =>
            simp only [List.nil_append, List.cons.injEq] at hxy
            simpa [hxy.1, hxy.2] using hc
        | cons d x =>
            simp only [List.cons_append, List.cons.injEq] at hxy
            simpa [hxy.1] using hcs x y hxy.2
      · intro h
        have hcs : lowerIn U (c :: before) cs after = lowerIn U (c :: before') cs after' :=
          (ih (c :: before) (c :: before')).mpr fun x y hxy => by
            simpa using h (c :: x) y (by simp [hxy])
        rw [hcs]
        split
        next hc => simpa using h [] cs (by simp [hc])
        next => rfl

/-! ## A piece and its text -/

/-- Every capital sigma of a piece takes in the piece alone the form it takes between the
texts `lead` and `after`. -/
def SigmasKept (U : Unicode) (lead piece after : String) : Prop :=
  ∀ x y, piece.toList = x ++ 'Σ' :: y →
    lowerSigma U x.reverse y = lowerSigma U (x.reverse ++ lead.toList.reverse) (y ++ after.toList)

/-- The piece, in lower case, occurs in the lower cased text at another place than its own. -/
def FoundElsewhere (U : Unicode) (lead piece after : String) : Prop :=
  ∃ k ≠ (toLowercase U lead).length,
    (toLowercase U piece).toList <+: (toLowercase U (lead ++ piece ++ after)).toList.drop k

/-- A text contains a piece exactly when some rest of it begins with the piece. -/
theorem infix_iff_drop {α : Type*} {piece text : List α} :
    piece <:+: text ↔ ∃ k, piece <+: text.drop k := by
  constructor
  · rintro ⟨before, after, rfl⟩
    exact ⟨before.length, after, by simp⟩
  · rintro ⟨k, hk⟩
    exact hk.isInfix.trans (List.drop_suffix k text).isInfix

/-- At its own place a piece is read in lower case as on its own exactly when its sigmas
keep their form. -/
theorem prefix_drop_iff (lead piece after : String) :
    (toLowercase U piece).toList <+:
        (toLowercase U (lead ++ piece ++ after)).toList.drop (toLowercase U lead).length ↔
      SigmasKept U lead piece after := by
  have hlead : (toLowercase U lead).length =
      (lowerIn U [] lead.toList (piece.toList ++ after.toList)).length := by
    rw [toLowercase, String.length_ofList, ← lowerIn_nil_right]
    exact length_lowerIn [] [] lead.toList [] (piece.toList ++ after.toList)
  have htext : (toLowercase U (lead ++ piece ++ after)).toList.drop (toLowercase U lead).length =
      lowerIn U lead.toList.reverse piece.toList after.toList ++
        lowerFrom U (piece.toList.reverse ++ lead.toList.reverse) after.toList := by
    rw [hlead, toLowercase, String.toList_ofList, String.toList_append, String.toList_append,
      List.append_assoc, lowerFrom_append, List.drop_left, lowerFrom_append, List.append_nil]
  have hsame := lowerIn_eq_iff (U := U) [] lead.toList.reverse piece.toList [] after.toList
  have hlength := length_lowerIn (U := U) [] lead.toList.reverse piece.toList [] after.toList
  rw [htext, toLowercase, String.toList_ofList, ← lowerIn_nil_right, SigmasKept]
  simp only [List.append_nil] at hsame
  rw [← hsame]
  constructor
  · intro h
    exact (List.prefix_of_prefix_length_le h (List.prefix_append _ _) hlength.le).eq_of_length
      hlength
  · intro h
    rw [h]
    exact List.prefix_append _ _

/-- Lower case finds a piece of a text when its sigmas keep their form, or elsewhere. -/
theorem infix_toLowercase_iff (lead piece after : String) :
    (toLowercase U piece).toList <:+: (toLowercase U (lead ++ piece ++ after)).toList ↔
      SigmasKept U lead piece after ∨ FoundElsewhere U lead piece after := by
  rw [infix_iff_drop, ← prefix_drop_iff]
  constructor
  · rintro ⟨k, hk⟩
    rcases eq_or_ne k (toLowercase U lead).length with rfl | hne
    · exact .inl hk
    · exact .inr ⟨k, hne, hk⟩
  · rintro (h | ⟨k, -, hk⟩)
    · exact ⟨_, h⟩
    · exact ⟨k, hk⟩

/-! ## The search -/

/-- What `HistoryStore::query` answers on committed tables. -/
def searchPage (P : Platform) (query : HistoryQuery) (t : Tables) : BackendResult HistoryPage := do
  (Request.query query).validate
  ((Database.query P query).eval t).map (·.1)

/-- A query for a text, with collapse off. -/
def textQuery (text : String) (offset limit : Nat) : HistoryQuery := ⟨text, 0, offset, limit, false⟩

/-- Is an entry on a page? -/
def HistoryPage.lists (page : HistoryPage) (id : String) : Prop := ∃ e ∈ page.entries, e.id = id

theorem searchPage_textQuery (P : Platform) {text : String} (h : byteLen text ≤ MAX_QUERY_BYTES)
    (offset limit : Nat) (t : Tables) :
    searchPage P (textQuery text offset limit) t =
      .ok (Database.pageOf P (textQuery text offset limit) t) := by
  have hshort : ¬ byteLen text > MAX_QUERY_BYTES := by omega
  simp only [searchPage, Request.validate, textQuery, hshort, if_false, Database.eval_query]
  rfl

section Page

variable {P : Platform} {t : Tables} {e : EntryRow} {text : String}

/-- The listing of a query for a text holds the entries whose search text contains it. -/
theorem mem_matchList_textQuery (he : e ∈ t.entries) (offset limit : Nat) :
    e ∈ matchList P (textQuery text offset limit) t ↔
      (toLowercase P.unicode (trim text)).toList <:+:
        (searchText P e.mime (t.bytesOf e.id)).toList := by
  rw [matchList, List.mem_insertionSort, matching, List.mem_filter]
  simp only [he, textQuery, containsNeedle, Database.HistoryQuery.needle, Database.notCollapsed,
    Bool.not_false, Bool.true_or, Bool.and_true, true_and]
  exact decide_eq_true_iff

/-- An entry is on a page exactly when it is in the slice of the listing. -/
theorem lists_pageOf (hfts : P.FtsLaw) (h : WellFormed P t) (he : e ∈ t.entries)
    (offset limit : Nat) :
    (Database.pageOf P (textQuery text offset limit) t).lists e.id ↔
      e ∈ slice (matchList P (textQuery text 0 0) t) offset (min limit MAX_QUERY_LIMIT) := by
  obtain ⟨-, hentries, -⟩ := pageOf_spec hfts h (textQuery text offset limit)
  have hentries' : (Database.pageOf P (textQuery text offset limit) t).entries =
      (slice (matchList P (textQuery text 0 0) t) offset (min limit MAX_QUERY_LIMIT)).map
        (shown (textQuery text offset limit) t) := hentries
  rw [HistoryPage.lists, hentries']
  constructor
  · rintro ⟨x, hx, hid⟩
    obtain ⟨row, hrow, rfl⟩ := List.mem_map.mp hx
    have hmem : row ∈ t.entries := by
      have hlist := List.mem_of_mem_drop (List.mem_of_mem_take hrow)
      rw [matchList, List.mem_insertionSort] at hlist
      exact (List.mem_filter.mp hlist).1
    have hsame : row = e := List.inj_on_of_nodup_map h.stamped.ids hmem he hid
    exact hsame ▸ hrow
  · intro hrow
    exact ⟨_, List.mem_map_of_mem hrow, rfl⟩

/-- A listing that fits on one page is answered whole. -/
theorem lists_whole (hfts : P.FtsLaw) (h : WellFormed P t) (he : e ∈ t.entries) {limit : Nat}
    (hlimit : (matching P (textQuery text 0 limit) t).length ≤ min limit MAX_QUERY_LIMIT) :
    (Database.pageOf P (textQuery text 0 limit) t).lists e.id ↔
      e ∈ matchList P (textQuery text 0 0) t := by
  have hall : slice (matchList P (textQuery text 0 0) t) 0 (min limit MAX_QUERY_LIMIT) =
      matchList P (textQuery text 0 0) t := by
    refine List.take_of_length_le ?_
    rw [List.drop_zero, matchList, List.length_insertionSort]
    exact hlimit
  rw [lists_pageOf hfts h he, hall]

/-- Every entry of the listing is on some page, and no other one. -/
theorem lists_some (hfts : P.FtsLaw) (h : WellFormed P t) (he : e ∈ t.entries)
    (hlength : byteLen text ≤ MAX_QUERY_BYTES) :
    (∃ offset limit page, searchPage P (textQuery text offset limit) t = .ok page ∧
      page.lists e.id) ↔ e ∈ matchList P (textQuery text 0 0) t := by
  constructor
  · rintro ⟨offset, limit, page, hpage, hlists⟩
    rw [searchPage_textQuery P hlength offset limit t] at hpage
    rw [← Except.ok.inj hpage, lists_pageOf hfts h he] at hlists
    exact List.mem_of_mem_drop (List.mem_of_mem_take hlists)
  · intro hmem
    obtain ⟨offset, hoffset, hget⟩ := List.mem_iff_getElem.mp hmem
    refine ⟨offset, 1, _, searchPage_textQuery P hlength offset 1 t, ?_⟩
    rw [lists_pageOf hfts h he, slice, List.drop_eq_getElem_cons hoffset, hget]
    simp [MAX_QUERY_LIMIT]

end Page

/-- A literal search finds a piece of a stored text exactly when lower case does: when
every capital sigma of the piece is the same small sigma in the query as in the text, or
when the query occurs in lower case at another place of the entry.  A listing that fits
on one page is answered whole, and any other page by page.  A piece without capital sigma
is always found. -/
theorem Store.literal_found_iff (P : Platform) (hfts : P.FtsLaw) (ops : List DatabaseOp)
    (e : EntryRow) (before piece after : String)
    (he : e ∈ (Store.fresh.after P ops).committed.entries)
    (htext : fromUtf8 ((Store.fresh.after P ops).committed.bytesOf e.id) =
      some (before ++ piece ++ after))
    (htrim : trim piece = piece) (hlength : byteLen piece ≤ MAX_QUERY_BYTES) :
    let t := (Store.fresh.after P ops).committed
    let lead := e.mime ++ "\n" ++ before
    let found := SigmasKept P.unicode lead piece after ∨ FoundElsewhere P.unicode lead piece after
    (∀ limit, (matching P (textQuery piece 0 limit) t).length ≤ min limit MAX_QUERY_LIMIT →
      ∃ page, searchPage P (textQuery piece 0 limit) t = .ok page ∧ (page.lists e.id ↔ found)) ∧
    ((∃ offset limit page, searchPage P (textQuery piece offset limit) t = .ok page ∧
      page.lists e.id) ↔ found) ∧
    ('Σ' ∉ piece.toList → found) := by
  intro t lead found
  have hwell : WellFormed P t := Store.after_wellFormed P ops
  have hdocument : searchText P e.mime (t.bytesOf e.id) =
      toLowercase P.unicode (lead ++ piece ++ after) := by
    rw [searchText, htext, Option.getD_some]
    simp only [lead, String.append_assoc]
  have hlisted : e ∈ matchList P (textQuery piece 0 0) t ↔ found := by
    rw [mem_matchList_textQuery he, htrim, hdocument]
    exact infix_toLowercase_iff lead piece after
  refine ⟨fun limit hlimit => ?_, ?_, fun hsigma => .inl fun x y hxy => ?_⟩
  · exact ⟨_, searchPage_textQuery P hlength 0 limit t,
      (lists_whole hfts hwell he hlimit).trans hlisted⟩
  · exact (lists_some hfts hwell he hlength).trans hlisted
  · exact absurd (by simp [hxy]) hsigma

/-! ## A word with two sigmas -/

/-- Is the character a letter of the monotonic Greek alphabet without accents? -/
def isGreek (c : Char) : Bool := ('Α' ≤ c && c ≤ 'Ω') || ('α' ≤ c && c ≤ 'ω')

/-- The tables restricted to ASCII and plain Greek. -/
def Unicode.greek : Unicode where
  lower c := if 'Α' ≤ c ∧ c ≤ 'Ω' then [Char.ofNat (c.toNat + 32)] else [c.toLower]
  isAlphanumeric c := c.isAlphanum || isGreek c
  isCased c := c.isAlpha || isGreek c
  isCaseIgnorable c := c == '\''

def Platform.greek : Platform := { Platform.plain with unicode := Unicode.greek }

theorem Platform.greek_ftsLaw : Platform.greek.FtsLaw := by
  intro text terms hne h
  have hterms := conjunctionTerms_conjunction (fun term ht => (h term ht).1) hne
  simp only [Platform.greek, Platform.plain, literalMatch, hterms, List.all_eq_true,
    decide_eq_true_eq]

/-- Opening admission and capturing a word. -/
def wordCapture : List DatabaseOp :=
  [.request (.applyPolicy { Tables.fresh.effectivePolicy with admission := true })
      ⟨World.empty, "0"⟩ Faults.none,
    .request (.insert "text/plain" (asBytes "ΚΟΣΜΟΣ")) ⟨World.empty, "1"⟩ Faults.none]

/-- The end of the word is found: its sigma is final in the query and in the text. -/
theorem Store.literal_found_iff_end :
    ∃ page, searchPage Platform.greek (textQuery "ΜΟΣ" 0 200)
        (Store.fresh.after Platform.greek wordCapture).committed = .ok page ∧
      page.lists "entry-1" := by
  have hentry : ∃ e ∈ (Store.fresh.after Platform.greek wordCapture).committed.entries,
      e.id = "entry-1" ∧ e.mime = "text/plain" := by decide +kernel
  obtain ⟨e, he, hid, hmime⟩ := hentry
  have htext : fromUtf8 ((Store.fresh.after Platform.greek wordCapture).committed.bytesOf e.id) =
      some ("ΚΟΣ" ++ "ΜΟΣ" ++ "") := by
    rw [hid]
    decide +kernel
  obtain ⟨hwhole, -, -⟩ :=
    Store.literal_found_iff Platform.greek Platform.greek_ftsLaw wordCapture e
    "ΚΟΣ" "ΜΟΣ" "" he htext (by decide) (by decide)
  obtain ⟨page, hpage, hlists⟩ := hwhole 200 (by decide +kernel)
  refine ⟨page, hpage, hid ▸ hlists.mpr ?_⟩
  rw [hmime]
  refine .inl ((prefix_drop_iff _ _ _).mp ?_)
  decide +kernel

/-- The beginning of the word is not: its sigma is final in the query alone. -/
theorem Store.literal_missed :
    (∃ e ∈ (Store.fresh.after Platform.greek wordCapture).committed.entries,
      fromUtf8 ((Store.fresh.after Platform.greek wordCapture).committed.bytesOf e.id) =
        some ("" ++ "ΚΟΣ" ++ "ΜΟΣ")) ∧
    ((searchPage Platform.greek (textQuery "ΚΟΣ" 0 200)
      (Store.fresh.after Platform.greek wordCapture).committed).toOption.map
        fun page => (page.total, page.entries.length)) = some (0, 0) := by
  constructor <;> decide +kernel

end ClipDaemon
