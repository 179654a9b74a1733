import ClipDaemon.Capture.Policy
import Mathlib.Data.List.FinRange
import Mathlib.Data.List.Perm.Basic

/-!
# What an offer comes to

An offer is a sequence of types, added one at a time.  `Excluded` says when it is rejected
as a whole, and `preferred` which type of a rank is asked for: both in terms of the sequence
alone.  `offers_exact` says that the incremental state computes them, and that asking again
and again goes through the ranks once, in order.
-/

namespace ClipDaemon.Capture.OfferedMimes

/-! ## Specification -/

/-- A type that rejects every offer it is in: a marker for sensitive content, or a malformed
type. -/
def Bad (value : String) : Prop :=
  value = "application/x-shelllist-sensitive" ∨ value = "x-kde-passwordManagerHint" ∨ value = "" ∨
    96 < byteLen value ∨ ∃ c ∈ value.toList, ¬(0x20 ≤ c.toNat ∧ c.toNat ≤ 0x7E)

instance : DecidablePred Bad := fun value =>
  have : Decidable (∃ c ∈ value.toList, ¬(0x20 ≤ c.toNat ∧ c.toNat ≤ 0x7E)) := List.decidableBEx _ _
  inferInstanceAs (Decidable (_ ∨ _))

/-- A bad type, more than 64 types, or more than 8192 bytes. -/
def Excluded (offers : List String) : Prop :=
  (∃ value ∈ offers, Bad value) ∨ 64 < offers.length ∨ 8192 < (offers.map byteLen).sum

instance : DecidablePred Excluded := fun _ => inferInstanceAs (Decidable (_ ∨ _))

/-- The first type of a rank without parameters, or else the first one. -/
def preferred (offers : List String) (r : Fin 6) : Option String :=
  (offers.find? fun w => rank w = some r && !hasParameters w).or
    (offers.find? fun w => rank w = some r)

/-- The state after some calls of `next`. -/
def afterNext : Nat → OfferedMimes → OfferedMimes
  | 0, m => m
  | n + 1, m => afterNext n (match m.next with
      | none => m
      | some (_, rest) => rest)

/-- What the call of `next` after `n` others returns. -/
def nthNext (n : Nat) (m : OfferedMimes) : Option String := (m.afterNext n).next.map Prod.fst

/-! ## Adding -/

/-- What is left of an offer that is not rejected. -/
def accepted (offers : List String) : OfferedMimes :=
  ⟨preferred offers, offers.length, (offers.map byteLen).sum, false⟩

/-- An offer with one more type is rejected when it was before, or because of the type. -/
theorem excluded_append {offers : List String} {value : String} (h : ¬Excluded offers) :
    Excluded (offers ++ [value]) ↔
      Bad value ∨ 64 < offers.length + 1 ∨ 8192 < (offers.map byteLen).sum + byteLen value := by
  have hgood : ¬∃ value ∈ offers, Bad value := fun hbad => h (.inl hbad)
  have hmem : (∃ w ∈ offers ++ [value], Bad w) ↔ Bad value := by
    constructor
    · rintro ⟨w, hw, hbad⟩
      rcases List.mem_append.mp hw with hw | hw
      · exact absurd ⟨w, hw, hbad⟩ hgood
      · exact List.mem_singleton.mp hw ▸ hbad
    · exact fun hbad => ⟨value, List.mem_append_right _ (List.mem_singleton_self _), hbad⟩
  simp only [Excluded, hmem, List.length_append, List.length_singleton, List.map_append,
    List.map_singleton, List.sum_append, List.sum_singleton]

theorem Excluded.append {offers : List String} (h : Excluded offers) (value : String) :
    Excluded (offers ++ [value]) := by
  rcases h with ⟨w, hw, hbad⟩ | hcount | hbytes
  · exact .inl ⟨w, List.mem_append_left _ hw, hbad⟩
  · refine .inr (.inl ?_)
    rw [List.length_append]
    omega
  · refine .inr (.inr ?_)
    rw [List.map_append, List.sum_append]
    omega

/-- A type of another rank changes no choice. -/
theorem preferred_other {offers : List String} {r : Fin 6} {value : String}
    (hrank : rank value ≠ some r) : preferred (offers ++ [value]) r = preferred offers r := by
  simp [preferred, List.find?_append, hrank]

/-- A type of the rank replaces a choice with parameters when it has none itself. -/
theorem preferred_same {offers : List String} {r : Fin 6} {value : String}
    (hrank : rank value = some r) :
    preferred (offers ++ [value]) r =
      if (preferred offers r).all fun previous =>
        hasParameters previous && !hasParameters value then
        some value
      else preferred offers r := by
  have hvalue : [value].find? (fun w => rank w = some r) = some value := by simp [hrank]
  rw [preferred, preferred, List.find?_append, List.find?_append, hvalue]
  cases hplain : offers.find? fun w => rank w = some r && !hasParameters w with
  | some w =>
      have hw := List.find?_some hplain
      simp only [Bool.and_eq_true, Bool.not_eq_true'] at hw
      simp [hw.2]
  | none =>
      cases hfirst : offers.find? fun w => rank w = some r with
      | none => cases hparameters : hasParameters value <;> simp [hrank, hparameters]
      | some w =>
          -- a first type without parameters would have been found
          have hw : hasParameters w = true := by
            have hno := List.find?_eq_none.mp hplain w (List.mem_of_find?_eq_some hfirst)
            have hr := List.find?_some hfirst
            simp only [decide_eq_true_eq] at hr
            simpa [hr] using hno
          cases hparameters : hasParameters value <;> simp [hrank, hparameters, hw]

/-- What `add` looks at. -/
theorem rejects_iff (m : OfferedMimes) (value : String) :
    (value = "application/x-shelllist-sensitive" ∨ value = "x-kde-passwordManagerHint" ∨
      value = "" ∨ m.count + 1 > MAX_OFFERS ∨ m.bytes + byteLen value > 8192 ∨ byteLen value > 96 ∨
      value.toList.any fun c => !(0x20 ≤ c.toNat && c.toNat ≤ 0x7E)) ↔
    Bad value ∨ 64 < m.count + 1 ∨ 8192 < m.bytes + byteLen value := by
  have hchars : (value.toList.any fun c => !(0x20 ≤ c.toNat && c.toNat ≤ 0x7E)) = true ↔
      ∃ c ∈ value.toList, ¬(0x20 ≤ c.toNat ∧ c.toNat ≤ 0x7E) := by
    simp only [List.any_eq_true, Bool.not_eq_true', Bool.and_eq_false_iff, decide_eq_false_iff_not,
      not_and_or]
  rw [hchars, Bad, MAX_OFFERS]
  constructor
  · rintro (h | h | h | h | h | h | h)
    · exact .inl (.inl h)
    · exact .inl (.inr (.inl h))
    · exact .inl (.inr (.inr (.inl h)))
    · exact .inr (.inl h)
    · exact .inr (.inr h)
    · exact .inl (.inr (.inr (.inr (.inl h))))
    · exact .inl (.inr (.inr (.inr (.inr h))))
  · rintro ((h | h | h | h | h) | h | h)
    · exact .inl h
    · exact .inr (.inl h)
    · exact .inr (.inr (.inl h))
    · exact .inr (.inr (.inr (.inr (.inr (.inl h)))))
    · exact .inr (.inr (.inr (.inr (.inr (.inr h)))))
    · exact .inr (.inr (.inr (.inl h)))
    · exact .inr (.inr (.inr (.inr (.inl h))))

theorem rejected_add {m : OfferedMimes} {value : String} (hm : m.rejected = false) :
    (m.add value).rejected = true ↔
      Bad value ∨ 64 < m.count + 1 ∨ 8192 < m.bytes + byteLen value := by
  rw [← rejects_iff, add, if_neg (by simp [hm])]
  dsimp only
  split
  next h => exact iff_of_true rfl h
  next h =>
    split <;> exact iff_of_false (by simp [hm]) h

theorem add_rejected {m : OfferedMimes} (hm : m.rejected = true) (value : String) :
    m.add value = m := by
  rw [add, if_pos hm]

/-- The choices follow the preference. -/
theorem add_accepted {offers : List String} {value : String} (hbefore : ¬Excluded offers)
    (h : ¬Excluded (offers ++ [value])) :
    (accepted offers).add value = accepted (offers ++ [value]) := by
  rw [excluded_append hbefore] at h
  replace h := mt (rejects_iff (accepted offers) value).mp h
  rw [add, if_neg (by simp [accepted])]
  dsimp only
  rw [if_neg h]
  have hcount : (accepted offers).count + 1 = (offers ++ [value]).length := by simp [accepted]
  have hbytes : (accepted offers).bytes + byteLen value =
      ((offers ++ [value]).map byteLen).sum := by
    simp [accepted]
  rw [hcount, hbytes]
  cases hrank : rank value with
  | none =>
      have hchoices : preferred (offers ++ [value]) = preferred offers :=
        funext fun r => preferred_other (by simp [hrank])
      rw [accepted, accepted, hchoices]
  | some r =>
      have hchoices : preferred (offers ++ [value]) =
          if (preferred offers r).all fun previous => hasParameters previous && !hasParameters value
          then Function.update (preferred offers) r (some value) else preferred offers := by
        funext r'
        rcases eq_or_ne r' r with rfl | hne
        · rw [preferred_same hrank]
          split <;> simp
        · rw [preferred_other (by simp [hrank, hne.symm])]
          split <;> simp [Function.update_of_ne hne]
      rw [accepted, accepted, hchoices]

/-- The state after an offer: rejected, or what the sequence says. -/
theorem ofOffers_eq (offers : List String) :
    (Excluded offers ∧ (ofOffers offers).rejected = true) ∨
      (¬Excluded offers ∧ ofOffers offers = accepted offers) := by
  induction offers using List.reverseRecOn with
  | nil => exact .inr ⟨by simp [Excluded], rfl⟩
  | append_singleton offers value ih =>
      have hadd : ofOffers (offers ++ [value]) = (ofOffers offers).add value := by
        rw [ofOffers, List.foldl_append]
        rfl
      rw [hadd]
      rcases ih with ⟨hexcluded, hrejected⟩ | ⟨hbefore, heq⟩
      · exact .inl ⟨hexcluded.append value, by rw [add_rejected hrejected, hrejected]⟩
      · rw [heq]
        by_cases h : Excluded (offers ++ [value])
        · exact .inl ⟨h, (rejected_add rfl).mpr ((excluded_append hbefore).mp h)⟩
        · exact .inr ⟨h, add_accepted hbefore h⟩

/-! ## Asking -/

/-- Taking the first value leaves the others. -/
theorem filterMap_update_none {ι α : Type*} [DecidableEq ι] {l : List ι} (h : l.Nodup)
    {c : ι → Option α} {r : ι} {value : α} (hvalue : c r = some value)
    (hfind : l.find? (fun r => (c r).isSome) = some r) :
    l.filterMap c = value :: l.filterMap (Function.update c r none) := by
  induction l with
  | nil => cases hfind
  | cons x xs ih =>
      obtain ⟨hx, hxs⟩ := List.nodup_cons.mp h
      rw [List.find?_cons] at hfind
      cases hc : c x with
      | none =>
          have hne : x ≠ r := by
            rintro rfl
            rw [hc] at hvalue
            cases hvalue
          rw [hc] at hfind
          rw [List.filterMap_cons_none hc, ih hxs hfind,
            List.filterMap_cons_none (by rw [Function.update_of_ne hne, hc])]
      | some first =>
          rw [hc] at hfind
          obtain rfl : x = r := by simpa using hfind
          obtain rfl : first = value := Option.some.inj (hc.symm.trans hvalue)
          have hrest : xs.filterMap (Function.update c x none) = xs.filterMap c := by
            refine List.filterMap_congr fun y hy => Function.update_of_ne ?_ _ _
            rintro rfl
            exact hx hy
          rw [List.filterMap_cons_some hc,
            List.filterMap_cons_none (Function.update_self ..), hrest]

/-- A call takes the first value there is. -/
theorem next_choices (choices : Fin 6 → Option String) (count bytes : Nat) :
    (next ⟨choices, count, bytes, false⟩ = none ∧ (List.finRange 6).filterMap choices = []) ∨
    ∃ value rest, next ⟨choices, count, bytes, false⟩ = some (value, ⟨rest, count, bytes, false⟩) ∧
      (List.finRange 6).filterMap choices = value :: (List.finRange 6).filterMap rest := by
  rw [next, if_neg (by simp)]
  dsimp only
  cases hfind : (List.finRange 6).find? fun r => (choices r).isSome with
  | none =>
      refine .inl ⟨rfl, List.filterMap_eq_nil_iff.mpr fun r hr => ?_⟩
      simpa using List.find?_eq_none.mp hfind r hr
  | some r =>
      have hsome : (choices r).isSome = true := by simpa using List.find?_some hfind
      obtain ⟨value, hvalue⟩ := Option.isSome_iff_exists.mp hsome
      exact .inr ⟨value, Function.update choices r none, by simp only [hvalue, Option.map_some],
        filterMap_update_none (List.nodup_finRange 6) hvalue hfind⟩

/-- Asking takes the values of the ranks in their order. -/
theorem nthNext_choices (n : Nat) (choices : Fin 6 → Option String) (count bytes : Nat) :
    nthNext n ⟨choices, count, bytes, false⟩ = ((List.finRange 6).filterMap choices)[n]? := by
  induction n generalizing choices with
  | zero =>
      rw [nthNext, afterNext]
      rcases next_choices choices count bytes with ⟨hnext, hvalues⟩ | ⟨value, rest, hnext, hvalues⟩
      · rw [hnext, hvalues]
        rfl
      · rw [hnext, hvalues]
        rfl
  | succ n ih =>
      rw [nthNext, afterNext]
      rcases next_choices choices count bytes with ⟨hnext, hvalues⟩ | ⟨value, rest, hnext, hvalues⟩
      · rw [hnext, ← nthNext, ih, hvalues]
        rfl
      · rw [hnext, ← nthNext, ih, hvalues, List.getElem?_cons_succ]

/-- A rejected offer gives nothing, however often it is asked. -/
theorem nthNext_rejected (n : Nat) {m : OfferedMimes} (h : m.rejected = true) :
    nthNext n m = none := by
  have hnext : m.next = none := by rw [next, if_pos h]
  induction n with
  | zero => rw [nthNext, afterNext, hnext, Option.map_none]
  | succ n ih =>
      rw [nthNext, afterNext, hnext]
      exact ih

/-! ## The law of offers -/

theorem Excluded.perm {offers offers' : List String} (hperm : offers'.Perm offers)
    (h : Excluded offers) : Excluded offers' := by
  rcases h with ⟨value, hmem, hbad⟩ | hcount | hbytes
  · exact .inl ⟨value, hperm.mem_iff.mpr hmem, hbad⟩
  · exact .inr (.inl (hperm.length_eq ▸ hcount))
  · exact .inr (.inr ((hperm.map byteLen).sum_nat ▸ hbytes))

/-- An offer with a bad type, or one that is too large, gives nothing in any order.  Every
other offer gives, rank by rank, the preferred type of the rank, and then nothing. -/
theorem offers_exact (offers : List String) :
    (Excluded offers → ∀ offers', offers'.Perm offers → ∀ n, nthNext n (ofOffers offers') = none) ∧
    (¬Excluded offers → ∀ n, nthNext n (ofOffers offers) =
      ((List.finRange 6).filterMap (preferred offers))[n]?) := by
  constructor
  · intro h offers' hperm n
    rcases ofOffers_eq offers' with ⟨-, hrejected⟩ | ⟨hno, -⟩
    · exact nthNext_rejected n hrejected
    · exact absurd (h.perm hperm) hno
  · intro h n
    rcases ofOffers_eq offers with ⟨hexcluded, -⟩ | ⟨-, heq⟩
    · exact absurd hexcluded h
    · rw [heq]
      exact nthNext_choices n _ _ _

/-- Plain text is asked for first, without parameters; with a marker behind it there is
nothing. -/
theorem offers_exact_text :
    let offers := ["text/plain;charset=utf-8", "image/png", "text/plain", "UTF8_STRING"]
    (List.range 3).map (fun n => nthNext n (ofOffers offers)) =
        [some "text/plain", some "image/png", none] ∧
      nthNext 0 (ofOffers ("application/x-shelllist-sensitive" :: offers)) = none := by
  intro offers
  have hoffers := (offers_exact offers).2 (by decide)
  refine ⟨?_, (offers_exact (offers ++ ["application/x-shelllist-sensitive"])).1 (by decide) _
    (List.perm_append_singleton _ _).symm 0⟩
  simp only [hoffers]
  decide

end ClipDaemon.Capture.OfferedMimes
