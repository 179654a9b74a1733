import ClipDaemon.Store.Tokens
import ClipDaemon.Lib.Paging

/-!
# Search is exact

What a query should return is easy to say: the entries whose search text contains the
needle, favorites first and the most recent ones first, cut into pages.  `matchList` says
so, and `Database.query` computes it (`Store.query_exact`).

The query narrows with full text terms first.  The terms are pieces of the needle's
words, so every text that contains the needle contains them, and the texts that are not
indexed are always considered (`selected_eq`).  What the engine does with a conjunction
of terms is the assumption `Platform.FtsLaw`.
-/

namespace ClipDaemon

open SideTable Paging Grams

/-- A conjunction of quoted three character terms matches the texts that contain them
all. -/
def Platform.FtsLaw (P : Platform) : Prop :=
  ∀ (text : String) (terms : List (List Char)), terms ≠ [] →
    (∀ term ∈ terms, term.length = 3 ∧ ∀ c ∈ term, P.unicode.isAlphanumeric c = true) →
    (P.ftsMatch text (Database.conjunction terms) = true ↔ ∀ term ∈ terms, term <:+: text.toList)

/-! ## Specification -/

/-- The payload of an entry. -/
def Tables.bytesOf (t : Tables) (id : String) : Bytes :=
  ((t.payloadOf id).head?.map (·.bytes)).getD []

/-- Does the search text of the entry contain the needle? -/
def containsNeedle (P : Platform) (needle : String) (t : Tables) (e : EntryRow) : Bool :=
  decide (needle.toList <:+: (searchText P e.mime (t.bytesOf e.id)).toList)

/-- The entries a query is about, in any order. -/
def matching (P : Platform) (query : HistoryQuery) (t : Tables) : List EntryRow :=
  t.entries.filter fun e =>
    containsNeedle P (Database.HistoryQuery.needle P query) t e &&
      Database.notCollapsed query.collapseSelfEchoes e

/-- The entries a query is about, in the order of the listing. -/
def matchList (P : Platform) (query : HistoryQuery) (t : Tables) : List EntryRow :=
  (matching P query t).insertionSort Database.pageOrder

/-- How a listed entry is shown. -/
def shown (query : HistoryQuery) (t : Tables) (e : EntryRow) : EntrySummary :=
  { Database.decodeSummary t e with
    current := (Database.currentEntry query.collapseSelfEchoes t).any fun c => c.id = e.id }

/-! ## Terms -/

/-- A piece between separators is contained in the text and holds no separator. -/
theorem mem_splitChars {sep : Char → Bool} {word cs : List Char} (h : word ∈ splitChars sep cs) :
    word <:+: cs ∧ ∀ c ∈ word, sep c = false := by
  have key : ∀ cs : List Char, ∃ w ws, splitChars sep cs = w :: ws ∧ w <+: cs ∧
      (∀ c ∈ w, sep c = false) ∧ ∀ x ∈ ws, x <:+: cs ∧ ∀ c ∈ x, sep c = false := by
    intro cs
    induction cs with
    | nil => exact ⟨[], [], rfl, List.nil_prefix, by simp, by simp⟩
    | cons c cs ih =>
        obtain ⟨w, ws, hsplit, hstart, hw, hws⟩ := ih
        have hmore : ∀ x, x <:+: cs → x <:+: c :: cs := fun x hx =>
          hx.trans (List.suffix_cons c cs).isInfix
        cases hsep : sep c with
        | true =>
            refine ⟨[], w :: ws, by simp [splitChars, hsep, hsplit], List.nil_prefix, by simp, ?_⟩
            intro x hx
            rcases List.mem_cons.mp hx with rfl | hx
            · exact ⟨hmore _ hstart.isInfix, hw⟩
            · exact ⟨hmore _ (hws x hx).1, (hws x hx).2⟩
        | false =>
            refine ⟨c :: w, ws, by simp [splitChars, hsep, hsplit],
              List.cons_prefix_cons.mpr ⟨rfl, hstart⟩, ?_, fun x hx => ⟨hmore _ (hws x hx).1,
                (hws x hx).2⟩⟩
            intro d hd
            rcases List.mem_cons.mp hd with rfl | hd
            · exact hsep
            · exact hw d hd
  obtain ⟨w, ws, hsplit, hstart, hw, hws⟩ := key cs
  rw [hsplit] at h
  rcases List.mem_cons.mp h with rfl | h
  · exact ⟨hstart.isInfix, hw⟩
  · exact hws word h

/-- Every term is a three character piece of the needle, all alphanumeric. -/
theorem mem_searchTerms {U : Unicode} {needle term : List Char}
    (h : term ∈ Database.searchTerms U needle) :
    term <:+: needle ∧ term.length = 3 ∧ ∀ c ∈ term, U.isAlphanumeric c = true := by
  rw [Database.searchTerms, List.mem_insertionSort] at h
  rcases mem_of_mem_collect h with h | h
  · cases h
  · obtain ⟨word, hword, hterm⟩ := List.mem_flatMap.mp h
    obtain ⟨hpart, hsep⟩ := mem_splitChars hword
    have hpiece := isInfix_of_mem_windows hterm
    refine ⟨hpiece.trans hpart, length_of_mem_windows hterm, fun c hc => ?_⟩
    simpa using hsep c (hpiece.subset hc)

/-- Every text that contains the needle satisfies its conjunction. -/
theorem ftsMatch_of_contains {P : Platform} (hfts : P.FtsLaw) {needle text gram : String}
    (hgram : Database.searchGram P.unicode needle.toList = some gram)
    (h : needle.toList <:+: text.toList) : P.ftsMatch text gram = true := by
  simp only [Database.searchGram] at hgram
  split at hgram
  · cases hgram
  next hne =>
    cases hgram
    refine (hfts text _ hne fun term hterm => (mem_searchTerms hterm).2).mpr fun term hterm => ?_
    exact (mem_searchTerms hterm).1.trans h

/-! ## The rows selected -/

section Selected

variable {P : Platform} {t : Tables} {content : String → Bytes}

theorem bytesOf_eq (hc : Contents P content t) (hs : Stamped t) {e : EntryRow}
    (he : e ∈ t.entries) : t.bytesOf e.id = content e.id := by
  have hrows := List.perm_singleton.mp
    (hc.payloads.filter_key (payloadRows_key content) hs.ids he)
  simp only [Tables.bytesOf, Tables.payloadOf, hrows, List.head?_cons, Option.map_some,
    Option.getD_some]

/-- An entry has one search row. -/
theorem searchContent_filter (hc : Contents P content t) (hs : Stamped t) {e : EntryRow}
    (he : e ∈ t.entries) :
    t.searchContent.filter (fun s => s.entryId = e.id) =
      [Database.searchRow P e.id e.mime (t.bytesOf e.id)] := by
  rw [bytesOf_eq hc hs he]
  exact List.perm_singleton.mp (hc.search.filter_key (searchRows_key P content) hs.ids he)

theorem searchRow_mem (hc : Contents P content t) (hs : Stamped t) {e : EntryRow}
    (he : e ∈ t.entries) :
    Database.searchRow P e.id e.mime (t.bytesOf e.id) ∈ t.searchContent := by
  have hmem : Database.searchRow P e.id e.mime (t.bytesOf e.id) ∈
      t.searchContent.filter fun s => s.entryId = e.id := by
    rw [searchContent_filter hc hs he]
    exact List.mem_singleton_self _
  exact List.mem_of_mem_filter hmem

/-- Joining the search rows that contain the needle keeps the entries that contain it. -/
theorem joined_eq (hc : Contents P content t) (hs : Stamped t) (needle : String) :
    (t.entries.flatMap fun e =>
      (t.searchContent.filter fun s =>
        s.entryId = e.id && decide (needle.toList <:+: s.content.toList)).map fun _ => e) =
      t.entries.filter (containsNeedle P needle t) := by
  have hjoin : ∀ e ∈ t.entries, ((t.searchContent.filter fun s =>
      s.entryId = e.id && decide (needle.toList <:+: s.content.toList)).map fun _ => e) =
        if containsNeedle P needle t e then [e] else [] := by
    intro e he
    have hsplit : (t.searchContent.filter fun s =>
        s.entryId = e.id && decide (needle.toList <:+: s.content.toList)) =
        (t.searchContent.filter fun s => s.entryId = e.id).filter fun s =>
          decide (needle.toList <:+: s.content.toList) := by
      rw [List.filter_filter]
      exact List.filter_congr fun s _ => Bool.and_comm _ _
    rw [hsplit, searchContent_filter hc hs he]
    by_cases hn : containsNeedle P needle t e = true
    · rw [if_pos hn, List.filter_cons_of_pos (by exact hn)]
      rfl
    · rw [if_neg hn, List.filter_cons_of_neg (by exact hn)]
      rfl
  rw [List.flatMap_congr hjoin]
  generalize t.entries = es
  induction es with
  | nil => rfl
  | cons e es ih =>
      rw [List.flatMap_cons, ih, List.filter_cons]
      split <;> rfl

/-- The entries that contain the needle are all candidates of its conjunction. -/
theorem mem_candidates (hfts : P.FtsLaw) (hc : Contents P content t) (hs : Stamped t)
    {needle gram : String} (hgram : Database.searchGram P.unicode needle.toList = some gram)
    {e : EntryRow} (he : e ∈ t.entries) (hn : containsNeedle P needle t e = true) :
    e.id ∈ Database.candidates P gram t := by
  have hrow := searchRow_mem hc hs he
  simp only [containsNeedle, decide_eq_true_eq] at hn
  by_cases hcomplete : byteLen (searchText P e.mime (t.bytesOf e.id)) ≤ 64 * 1024
  · refine List.mem_append_left _ (List.mem_map.mpr ⟨_, List.mem_filter.mpr ⟨hrow, ?_⟩, rfl⟩)
    simp only [Database.searchRow, hcomplete, decide_true, if_true]
    exact ftsMatch_of_contains hfts hgram hn
  · refine List.mem_append_right _ (List.mem_map.mpr ⟨_, List.mem_filter.mpr ⟨hrow, ?_⟩, rfl⟩)
    simp [Database.searchRow, hcomplete]

/-- The rows a query selects are the matching entries: narrowing neither loses nor adds
one. -/
theorem selected_eq (hfts : P.FtsLaw) (h : Sound P t) (query : HistoryQuery) :
    Database.selected P (Database.HistoryQuery.needle P query) query.collapseSelfEchoes t =
      matching P query t := by
  obtain ⟨content, hc⟩ := h.contents
  unfold Database.selected matching
  split
  next hempty =>
    rw [hempty]
    refine List.filter_congr fun e _ => ?_
    simp [containsNeedle]
  next =>
    simp only [joined_eq hc h.stamped]
    split
    · rw [List.filter_filter]
      exact List.filter_congr fun e _ => Bool.and_comm _ _
    next gram hgram =>
      rw [List.filter_filter]
      refine List.filter_congr fun e he => ?_
      cases hn : containsNeedle P (Database.HistoryQuery.needle P query) t e with
      | false => simp
      | true => simp [mem_candidates hfts hc h.stamped hgram he hn]

end Selected

/-! ## The order of the listing -/

theorem recencyOrder_total (a b : EntryRow) :
    Database.recencyOrder a b ∨ Database.recencyOrder b a := by
  unfold Database.recencyOrder
  have hid := String.le_total a.id b.id
  rcases Nat.lt_trichotomy a.recency b.recency with h | h | h
  · exact .inr (.inl h)
  · rcases hid with hid | hid
    · exact .inl (.inr ⟨h, hid⟩)
    · exact .inr (.inr ⟨h.symm, hid⟩)
  · exact .inl (.inl h)

theorem recencyOrder_trans {a b c : EntryRow} (h : Database.recencyOrder a b)
    (h' : Database.recencyOrder b c) : Database.recencyOrder a c := by
  rcases h with h | ⟨h, hid⟩ <;> rcases h' with h' | ⟨h', hid'⟩
  · exact .inl (h'.trans h)
  · exact .inl (by omega)
  · exact .inl (by omega)
  · exact .inr ⟨h.trans h', String.le_trans hid hid'⟩

instance : Std.Total Database.pageOrder where
  total a b := by
    unfold Database.pageOrder
    have h := recencyOrder_total a b
    cases a.favorite <;> cases b.favorite <;> simp [h]

instance : IsTrans EntryRow Database.pageOrder where
  trans a b c h h' := by
    unfold Database.pageOrder at *
    rcases h with ⟨ha, hb⟩ | ⟨hab, h⟩ <;> rcases h' with ⟨hb', hc⟩ | ⟨hbc, h'⟩
    · exact .inl ⟨ha, hc⟩
    · exact .inl ⟨ha, hbc ▸ hb⟩
    · exact .inl ⟨hab ▸ hb', hc⟩
    · exact .inr ⟨hab.trans hbc, recencyOrder_trans h h'⟩

/-- Favorites first, then the more recent ones. -/
def listedBefore (a b : EntryRow) : Prop :=
  (a.favorite = true ∧ b.favorite = false) ∨ (a.favorite = b.favorite ∧ b.recency < a.recency)

/-- The listing holds exactly the matching entries, each once and in order. -/
theorem matchList_spec (P : Platform) (query : HistoryQuery) {t : Tables} (hs : Stamped t) :
    (matchList P query t).Perm (matching P query t) ∧
      (matchList P query t).Pairwise listedBefore := by
  have hperm := List.perm_insertionSort Database.pageOrder (matching P query t)
  refine ⟨hperm, ?_⟩
  have hnodup : (matchList P query t).Nodup :=
    hperm.nodup_iff.mpr (hs.ids.of_map.filter _)
  have hmem : ∀ e ∈ matchList P query t, e ∈ t.entries := fun e he =>
    List.mem_of_mem_filter (hperm.mem_iff.mp he)
  refine ((List.pairwise_insertionSort Database.pageOrder (matching P query t)).and
    hnodup).imp_of_mem
    fun {a b} ha hb hab => ?_
  obtain ⟨horder, hne⟩ := hab
  refine horder.imp_right fun ⟨hfavorite, hrecency⟩ => ⟨hfavorite, ?_⟩
  rcases hrecency with hlt | ⟨heq, -⟩
  · exact hlt
  · exact absurd (List.inj_on_of_nodup_map hs.recencies (hmem a ha) (hmem b hb) heq) hne

/-! ## Pages -/

/-- The store holds few entries. -/
theorem length_entries_le {P : Platform} {t : Tables} (h : WellFormed P t) :
    t.entries.length ≤ 110000 := by
  have hsplit := List.length_eq_length_filter_add (l := t.entries) fun e => e.favorite = true
  have hregular := h.within.regular
  have hfavorites := h.within.favorites
  have hmax := h.inRange.maxEntries
  have hmax' := h.inRange.maxFavorites
  have hnot :
      (t.entries.filter fun e => !decide (e.favorite = true)) = category false t.entries := by
    refine List.filter_congr fun e _ => ?_
    cases e.favorite <;> rfl
  rw [hnot] at hsplit
  unfold category at hregular hfavorites hsplit
  omega

/-- The entries a query lists, as the query computes them. -/
def listing (P : Platform) (query : HistoryQuery) (t : Tables) : List EntryRow :=
  (Database.selected P (Database.HistoryQuery.needle P query) query.collapseSelfEchoes
    t).insertionSort Database.pageOrder

theorem listing_eq {P : Platform} (hfts : P.FtsLaw) {t : Tables} (h : Sound P t)
    (query : HistoryQuery) : listing P query t = matchList P query t := by
  rw [listing, selected_eq hfts h, matchList]

/-- Whatever the full text engine answers, no entry is listed twice. -/
theorem selected_sublist {P : Platform} {t : Tables} (h : Sound P t) (needle : String)
    (collapse : Bool) : (Database.selected P needle collapse t).Sublist t.entries := by
  obtain ⟨content, hc⟩ := h.contents
  simp only [Database.selected, joined_eq hc h.stamped]
  split
  · exact List.filter_sublist
  · split <;> exact List.filter_sublist.trans List.filter_sublist

theorem length_listing_le {P : Platform} {t : Tables} (h : WellFormed P t) (query : HistoryQuery) :
    (listing P query t).length ≤ 110000 := by
  rw [listing, List.length_insertionSort]
  exact (selected_sublist h.toSound _ _).length_le.trans (length_entries_le h)

/-- A query returns a slice of the listing and where the next one starts. -/
theorem pageOf_listing {P : Platform} {t : Tables} (h : WellFormed P t) (query : HistoryQuery) :
    let limit := min query.limit MAX_QUERY_LIMIT
    let page := Database.pageOf P query t
    page.total = (listing P query t).length ∧
      page.entries = (slice (listing P query t) query.offset limit).map (shown query t) ∧
      (page.hasMore = true ↔ query.offset + limit < (listing P query t).length) ∧
      (1 ≤ query.limit → page.nextOffset = next (listing P query t) query.offset limit) := by
  intro limit page
  have hlength := length_listing_le h query
  have hdrop : (listing P query t).drop (if query.offset ≤ I64_MAX then query.offset
      else I64_MAX) = (listing P query t).drop query.offset := by
    split
    · rfl
    next hbig =>
      have hmax : 110000 ≤ I64_MAX := by decide
      rw [List.drop_eq_nil_of_le (by omega), List.drop_eq_nil_of_le (by omega)]
  have hpage : Database.pageRows limit (if query.offset ≤ I64_MAX then query.offset else I64_MAX)
      (Database.selected P (Database.HistoryQuery.needle P query) query.collapseSelfEchoes t) =
      slice (listing P query t) query.offset (limit + 1) := by
    rw [Database.pageRows, ← listing, hdrop, slice]
  have hmore : limit < ((slice (listing P query t) query.offset (limit + 1)).map
      (Database.decodeSummary t)).length ↔
        query.offset + limit < (listing P query t).length := by
    rw [List.length_map, slice, List.length_take, List.length_drop]
    omega
  have hentries : page.entries =
      (slice (listing P query t) query.offset limit).map (shown query t) := by
    simp only [page, Database.pageOf]
    rw [hpage, ← List.map_take, slice, slice, List.take_take, List.map_map,
      Nat.min_eq_left (Nat.le_succ limit)]
    rfl
  refine ⟨?_, hentries, ?_, fun hlimit => ?_⟩
  · simp only [page, Database.pageOf, listing, List.length_insertionSort]
  · rw [← hmore, ← hpage]
    exact decide_eq_true_iff
  · have hnext : page.nextOffset =
        if limit < ((slice (listing P query t) query.offset (limit + 1)).map
            (Database.decodeSummary t)).length ∧ 0 < limit ∧
            query.offset + page.entries.length < 2 ^ 64 then
          some (query.offset + page.entries.length) else none := by
      rw [← hpage]
      rfl
    rw [hnext, if_congr (and_congr_left' hmore) rfl rfl, hentries, List.length_map, next]
    by_cases hlt : query.offset + limit < (listing P query t).length
    · have hpos : 0 < limit := by
        have : 0 < MAX_QUERY_LIMIT := by decide
        omega
      rw [length_slice_of_lt hlt, if_pos ⟨hlt, hpos, by omega⟩, if_pos hlt]
    · rw [if_neg fun hc => hlt hc.1, if_neg hlt]

/-- The same with the specified list. -/
theorem pageOf_spec {P : Platform} (hfts : P.FtsLaw) {t : Tables} (h : WellFormed P t)
    (query : HistoryQuery) :
    let limit := min query.limit MAX_QUERY_LIMIT
    let page := Database.pageOf P query t
    page.total = (matchList P query t).length ∧
      page.entries = (slice (matchList P query t) query.offset limit).map (shown query t) ∧
      (page.hasMore = true ↔ query.offset + limit < (matchList P query t).length) ∧
      (1 ≤ query.limit → page.nextOffset = next (matchList P query t) query.offset limit) := by
  rw [← listing_eq hfts h.toSound]
  exact pageOf_listing h query

/-! ## An engine that obeys the law -/

/-- The terms of a conjunction of quoted three character terms. -/
def conjunctionTerms : List Char → List (List Char)
  | '"' :: a :: b :: c :: '"' :: ' ' :: 'A' :: 'N' :: 'D' :: ' ' :: rest =>
      [a, b, c] :: conjunctionTerms rest
  | ['"', a, b, c, '"'] => [[a, b, c]]
  | _ => []

theorem conjunctionTerms_conjunction {terms : List (List Char)}
    (h : ∀ term ∈ terms, term.length = 3) (hne : terms ≠ []) :
    conjunctionTerms (Database.conjunction terms).toList = terms := by
  unfold Database.conjunction
  rw [String.toList_ofList]
  induction terms with
  | nil => exact absurd rfl hne
  | cons term terms ih =>
      obtain ⟨a, b, c, rfl⟩ := List.length_eq_three.mp (h term (List.mem_cons_self ..))
      cases terms with
      | nil => rfl
      | cons term' terms =>
          have hrest := ih (fun t ht => h t (List.mem_cons_of_mem _ ht)) (by simp)
          have hstep : ∀ rest, conjunctionTerms ('"' :: a :: b :: c :: '"' :: ' ' :: 'A' :: 'N' ::
              'D' :: ' ' :: rest) = [a, b, c] :: conjunctionTerms rest := fun _ => rfl
          have hintercalate : List.intercalate " AND ".toList
              (([a, b, c] :: term' :: terms).map fun t => '"' :: t ++ ['"']) =
              '"' :: a :: b :: c :: '"' :: ' ' :: 'A' :: 'N' :: 'D' :: ' ' ::
                List.intercalate " AND ".toList
                  ((term' :: terms).map fun t => '"' :: t ++ ['"']) := by
            rfl
          rw [hintercalate, hstep, hrest]

/-- Matching term by term. -/
def literalMatch (text query : String) : Bool :=
  (conjunctionTerms query.toList).all fun term => decide (term <:+: text.toList)

/-- A platform for plain text: no image, no URL, ASCII tables, and a literal engine. -/
def Platform.plain : Platform where
  unicode := Unicode.ascii
  sha256 _ := List.replicate 32 0
  guessFormat _ := none
  readerFormat _ := none
  intoDimensions _ := none
  isJson _ := false
  parseUrl _ := none
  toFilePath _ := none
  lastPathSegment _ := none
  ftsMatch := literalMatch

theorem Platform.plain_ftsLaw : Platform.plain.FtsLaw := by
  intro text terms hne h
  have hterms := conjunctionTerms_conjunction (fun term ht => (h term ht).1) hne
  simp only [Platform.plain, literalMatch, hterms, List.all_eq_true, decide_eq_true_eq]

/-! ## Following the next offset -/

/-- One query for each limit, each at the next offset of the one before: the entries
returned, and the next offset. -/
def followQuery (P : Platform) (query : HistoryQuery) (t : Tables) :
    Option Nat → List Nat → List EntrySummary × Option Nat
  | none, _ => ([], none)
  | some offset, [] => ([], some offset)
  | some offset, limit :: limits =>
      match (Database.query P { query with offset, limit }).eval t with
      | .error _ => ([], none)
      | .ok (page, _) =>
          (page.entries ++ (followQuery P query t page.nextOffset limits).1,
            (followQuery P query t page.nextOffset limits).2)

theorem followQuery_eq {P : Platform} (hfts : P.FtsLaw) {t : Tables} (h : WellFormed P t)
    (query : HistoryQuery) (limits : List Nat)
    (hlimits : ∀ limit ∈ limits, 1 ≤ limit ∧ limit ≤ MAX_QUERY_LIMIT) (start : Option Nat) :
    followQuery P query t start limits =
      ((follow (matchList P query t) start limits).1.map (shown query t),
        (follow (matchList P query t) start limits).2) := by
  induction limits generalizing start with
  | nil => cases start <;> rfl
  | cons limit limits ih =>
      cases start with
      | none => rfl
      | some offset =>
          obtain ⟨hpos, hmax⟩ := hlimits limit (List.mem_cons_self ..)
          obtain ⟨-, hentries, -, hnext⟩ := pageOf_spec hfts h { query with offset, limit }
          simp only [Nat.min_eq_left hmax] at hentries hnext
          have hentries' : (Database.pageOf P { query with offset, limit } t).entries =
              (slice (matchList P query t) offset limit).map (shown query t) := hentries
          have hnext' : (Database.pageOf P { query with offset, limit } t).nextOffset =
              next (matchList P query t) offset limit := hnext hpos
          rw [followQuery, Database.eval_query]
          simp only [hentries', hnext', follow, List.map_append,
            ih fun l hl => hlimits l (List.mem_cons_of_mem limit hl)]

/-- Search is exact.  In every reachable state a query counts the entries whose search
text contains the needle and that collapse does not hide, and returns their slice in the
order of the listing, whether entries remain, and the next position.  Following the next
position from the start, with any limits from 1 to 200, reads the listing from the
beginning, each entry once, and ends after as many pages as there are entries. -/
theorem Store.query_exact (P : Platform) (hfts : P.FtsLaw) (ops : List DatabaseOp)
    (query : HistoryQuery) (hlimit : 1 ≤ query.limit) :
    let t := (Store.fresh.after P ops).committed
    let list := matchList P query t
    let limit := min query.limit MAX_QUERY_LIMIT
    list.Perm (matching P query t) ∧ list.Pairwise listedBefore ∧
    (∃ page, (Database.query P query).eval t = .ok (page, t) ∧
      page.total = (matching P query t).length ∧
      page.entries = (slice list query.offset limit).map (shown query t) ∧
      (page.hasMore = true ↔ query.offset + limit < list.length) ∧
      page.nextOffset =
        if page.hasMore = true then some (query.offset + page.entries.length) else none) ∧
    ∀ limits : List Nat, (∀ limit ∈ limits, 1 ≤ limit ∧ limit ≤ MAX_QUERY_LIMIT) →
      let read := followQuery P query t (some 0) limits
      read.1 ++ (list.drop (read.2.getD list.length)).map (shown query t) =
          list.map (shown query t) ∧
        (limits ≠ [] → list.length ≤ limits.length → read.2 = none) := by
  intro t list limit
  have hwell : WellFormed P t := Store.after_wellFormed P ops
  obtain ⟨hperm, hsorted⟩ := matchList_spec P query hwell.stamped
  obtain ⟨htotal, hentries, hmore, hnext⟩ := pageOf_spec hfts hwell query
  refine ⟨hperm, hsorted, ⟨_, Database.eval_query P query t, ?_, hentries, hmore, ?_⟩, ?_⟩
  · rw [htotal, hperm.length_eq]
  · rw [hnext hlimit, hentries, List.length_map, next]
    by_cases hlt : query.offset + limit < list.length
    · rw [if_pos hlt, if_pos (hmore.mpr hlt), length_slice_of_lt hlt]
    · rw [if_neg hlt, if_neg fun h => hlt (hmore.mp h)]
  · intro limits hlimits
    rw [followQuery_eq hfts hwell query limits hlimits]
    refine ⟨?_, fun hne hlength => ?_⟩
    · rw [← List.map_append, follow_append_drop, List.drop_zero]
    · exact follow_eq_none (fun l hl => (hlimits l hl).1) hne (by rw [Nat.zero_add]; exact hlength)

/-- Opening admission and capturing two texts. -/
def twoCaptures : List DatabaseOp :=
  [.request (.applyPolicy { Tables.fresh.effectivePolicy with admission := true })
      ⟨World.empty, "0"⟩ Faults.none,
    .request (.insert "text/plain" (asBytes "abcd")) ⟨World.empty, "1"⟩ Faults.none,
    .request (.insert "text/plain" (asBytes "efgh")) ⟨World.empty, "2"⟩ Faults.none]

/-- A literal engine finds the one text that contains the needle. -/
theorem Store.query_exact_literal :
    ∃ page, (Database.query Platform.plain ⟨"BCD", 0, 0, 200, true⟩).eval
        (Store.fresh.after Platform.plain twoCaptures).committed =
          .ok (page, (Store.fresh.after Platform.plain twoCaptures).committed) ∧
      page.total = 1 := by
  obtain ⟨-, -, ⟨page, heval, htotal, -⟩, -⟩ :=
    Store.query_exact Platform.plain Platform.plain_ftsLaw twoCaptures ⟨"BCD", 0, 0, 200, true⟩
      (by decide)
  refine ⟨page, heval, htotal.trans ?_⟩
  decide +kernel

end ClipDaemon
