import ClipDaemon.Text

/-!
# Decoding and splitting a text in parts

A payload is cut at a byte limit, decoded, and split into lines.  Where a part decodes on
its own, the whole decodes to its text and what follows (`fromUtf8_append`), and where a
text is divided after a line feed, its lines are those of the parts (`lines_append`).
-/

namespace ClipDaemon

/-! ## Decoding -/

/-- Bytes that decode leave no sequence open. -/
theorem utf8Chunks_append {a : Bytes} {p : Option Utf8Partial} (h : none ∉ utf8Chunks p a)
    (b : Bytes) : utf8Chunks p (a ++ b) = utf8Chunks p a ++ utf8Chunks none b := by
  induction a generalizing p with
  | nil =>
      cases p with
      | none => rfl
      | some p => simp [utf8Chunks] at h
  | cons byte a ih =>
      cases p with
      | none =>
          simp only [utf8Chunks, List.mem_append, not_or] at h
          simp only [List.cons_append, utf8Chunks, ih h.2, List.append_assoc]
      | some p =>
          simp only [List.cons_append, utf8Chunks] at h ⊢
          split
          next hin =>
            rw [if_pos hin] at h
            split
            next hlast =>
              rw [if_pos hlast] at h
              rw [ih (List.not_mem_of_not_mem_cons h), List.cons_append]
            next hmore =>
              rw [if_neg hmore] at h
              exact ih h
          next hout =>
            rw [if_neg hout] at h
            exact absurd (List.mem_cons_self ..) h

theorem mapM_id_some {α : Type*} {l : List (Option α)} {values : List α} :
    l.mapM id = some values ↔ l = values.map some := by
  induction l generalizing values with
  | nil => cases values <;> simp [pure]
  | cons x l ih =>
      rw [List.mapM_cons]
      cases x with
      | none => cases values <;> simp
      | some x =>
          cases values with
          | nil => simp [Option.bind_eq_some_iff]
          | cons y values =>
              simp only [id_eq, Option.bind_eq_bind, Option.bind_some, Option.bind_eq_some_iff,
                Option.pure_def, Option.some.injEq, List.cons.injEq, List.map_cons, ih]
              constructor
              · rintro ⟨rest, rfl, rfl, rfl⟩
                exact ⟨rfl, rfl⟩
              · rintro ⟨rfl, rfl⟩
                exact ⟨values, rfl, rfl, rfl⟩

/-- The text of a byte string that decodes. -/
theorem fromUtf8_some {bytes : Bytes} {text : String} :
    fromUtf8 bytes = some text ↔ utf8Chunks none bytes = text.toList.map some := by
  rw [fromUtf8, Option.map_eq_some_iff]
  constructor
  · rintro ⟨values, hvalues, rfl⟩
    rw [String.toList_ofList, mapM_id_some.mp hvalues]
  · exact fun h => ⟨text.toList, mapM_id_some.mpr h, String.ofList_toList⟩

/-- After a part that decodes, the rest decodes on its own. -/
theorem fromUtf8_append {a : Bytes} {text : String} (h : fromUtf8 a = some text) (b : Bytes) :
    fromUtf8 (a ++ b) = (fromUtf8 b).map fun rest =>
      String.ofList (text.toList ++ rest.toList) := by
  rw [fromUtf8_some] at h
  have hnone : none ∉ utf8Chunks none a := by simp [h]
  cases hb : fromUtf8 b with
  | some rest =>
      rw [fromUtf8_some] at hb
      rw [Option.map_some, fromUtf8_some, utf8Chunks_append hnone, h, hb, String.toList_ofList,
        List.map_append]
  | none =>
      rw [Option.map_none, Option.eq_none_iff_forall_ne_some]
      intro full hfull
      rw [fromUtf8_some, utf8Chunks_append hnone, h, List.append_eq_map_iff] at hfull
      obtain ⟨x, y, -, -, hy⟩ := hfull
      have hrest : fromUtf8 b = some (String.ofList y) := by
        rw [fromUtf8_some, String.toList_ofList, hy]
      rw [hb] at hrest
      cases hrest

/-- ASCII text decodes to itself. -/
theorem fromUtf8_asBytes {text : String} (h : ∀ c ∈ text.toList, c.toNat < 0x80) :
    fromUtf8 (asBytes text) = some text := by
  rw [fromUtf8_some, asBytes]
  generalize text.toList = cs at h
  induction cs with
  | nil => rfl
  | cons c cs ih =>
      have hc := h c (List.mem_cons_self ..)
      have hbyte : (UInt8.ofNat c.toNat).toNat = c.toNat := by
        simp
        omega
      have hlow : UInt8.ofNat c.toNat < 0x80 := by
        rw [UInt8.lt_iff_toNat_lt, hbyte]
        exact hc
      have hchar : Char.ofNat c.toNat = c := Char.ofNat_toNat c
      rw [List.flatMap_cons, utf8EncodeChar, if_pos hc, List.singleton_append,
        utf8Chunks, utf8Start,
        if_pos hlow, hbyte, hchar, ih fun c' hc' => h c' (List.mem_cons_of_mem _ hc')]
      rfl

/-! ## Lines -/

/-- The lines of a text that is divided after a line feed. -/
theorem linesFrom_append (acc a b : List Char) :
    linesFrom acc (a ++ '\n' :: b) = linesFrom acc (a ++ ['\n']) ++ linesFrom [] b := by
  induction a generalizing acc with
  | nil => simp [linesFrom]
  | cons c a ih =>
      simp only [List.cons_append, linesFrom]
      split
      · rw [ih, List.cons_append]
      · exact ih _

/-- Characters without a line feed belong to the line begun. -/
theorem linesFrom_of_not_mem {a : List Char} (h : '\n' ∉ a) (acc b : List Char) :
    linesFrom acc (a ++ b) = linesFrom (a.reverse ++ acc) b := by
  induction a generalizing acc with
  | nil => rfl
  | cons c a ih =>
      rw [List.mem_cons, not_or] at h
      rw [List.cons_append, linesFrom, if_neg fun heq => h.1 heq.symm, ih h.2]
      simp

/-- The first line of a text. -/
theorem linesFrom_cons {a : List Char} (h : '\n' ∉ a) (b : List Char) :
    linesFrom [] (a ++ '\n' :: b) = (stripCarriageReturn a.reverse).reverse :: linesFrom [] b := by
  rw [linesFrom_of_not_mem h, List.append_nil, linesFrom, if_pos rfl]

/-- A text without a line feed is one line, or none. -/
theorem linesFrom_fragment {a : List Char} (h : '\n' ∉ a) :
    linesFrom [] a = if a = [] then [] else [a] := by
  have hline := linesFrom_of_not_mem h [] []
  rw [List.append_nil, List.append_nil] at hline
  rw [hline]
  cases a with
  | nil => rfl
  | cons c a =>
      rw [if_neg (List.cons_ne_nil c a)]
      generalize hrev : (c :: a).reverse = rev
      cases rev with
      | nil => simp at hrev
      | cons d rev => rw [linesFrom, ← hrev, List.reverse_reverse]; simp

theorem not_mem_of_rsplitChars {sep : Char} {cs : List Char} (h : rsplitChars sep cs = none) :
    sep ∉ cs := by
  induction cs with
  | nil => exact List.not_mem_nil
  | cons c cs ih =>
      rw [rsplitChars] at h
      split at h
      · cases h
      next hrest =>
        split at h
        · cases h
        next hc =>
          rw [List.mem_cons, not_or]
          exact ⟨fun heq => hc heq.symm, ih hrest⟩

/-- The last separator divides a text. -/
theorem rsplitChars_some {sep : Char} {cs before after : List Char}
    (h : rsplitChars sep cs = some (before, after)) : cs = before ++ sep :: after ∧
      sep ∉ after := by
  induction cs generalizing before with
  | nil => cases h
  | cons c cs ih =>
      rw [rsplitChars] at h
      split at h
      next before' after' hrest =>
        cases h
        obtain ⟨heq, hno⟩ := ih hrest
        exact ⟨by rw [heq, List.cons_append], hno⟩
      next hnone =>
        split at h
        next hc =>
          cases h
          exact ⟨by rw [hc]; rfl, not_mem_of_rsplitChars hnone⟩
        · cases h

/-- The lines of a text that end within it. -/
def completeLines (text : String) : List String :=
  match rsplitChars '\n' text.toList with
  | none => []
  | some (before, _) => lines (String.ofList (before ++ ['\n']))

/-- What follows the last line feed of a text. -/
def fragment (text : String) : String :=
  match rsplitChars '\n' text.toList with
  | none => text
  | some (_, after) => String.ofList after

/-- A text has the lines that end within it, and those of what follows. -/
theorem lines_append (text : String) (rest : List Char) :
    lines (String.ofList (text.toList ++ rest)) =
      completeLines text ++ lines (String.ofList ((fragment text).toList ++ rest)) := by
  unfold completeLines fragment
  split
  next hnone => simp
  next before after hsplit =>
    obtain ⟨heq, -⟩ := rsplitChars_some hsplit
    simp only [lines, String.toList_ofList, heq, List.append_assoc, List.cons_append]
    rw [linesFrom_append, List.map_append]

theorem fragment_not_mem (text : String) : '\n' ∉ (fragment text).toList := by
  unfold fragment
  split
  next hnone => exact not_mem_of_rsplitChars hnone
  next hsplit =>
    rw [String.toList_ofList]
    exact (rsplitChars_some hsplit).2

/-- The last line of a text is what follows its last line feed, if anything does. -/
theorem lines_fragment (text : String) :
    lines (fragment text) = if fragment text = "" then [] else [fragment text] := by
  rw [lines, linesFrom_fragment (fragment_not_mem text)]
  by_cases h : fragment text = ""
  · rw [if_pos h, h]
    rfl
  · rw [if_neg h, if_neg fun hnil => h (String.toList_eq_nil_iff.mp hnil), List.map_singleton,
      String.ofList_toList]

theorem lines_eq (text : String) : lines text =
    completeLines text ++ if fragment text = "" then [] else [fragment text] := by
  have h := lines_append text []
  rwa [List.append_nil, List.append_nil, String.ofList_toList, String.ofList_toList,
    lines_fragment] at h

example : completeLines "a\nb\r\nc" = ["a", "b"] ∧ fragment "a\nb\r\nc" = "c" := by decide

end ClipDaemon
