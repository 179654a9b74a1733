import ClipDaemon.Content

/-!
# Choosing a MIME type

A source offers its selection under several MIME types, and capture asks for one of them
at a time (`capture/policy.rs`).  The types are ranked; within a rank the first one counts,
unless a later one has no parameters and the first one has.  A marker for sensitive
content, or an offer that is too large or malformed, rejects the whole offer.
-/

namespace ClipDaemon.Capture

def MAX_OFFERS : Nat := 64
def MAX_SEATS : Nat := 16

/-- The types that were offered and kept. -/
structure OfferedMimes where
  /-- The choice of each rank. -/
  choices : Fin 6 → Option String
  count : Nat
  bytes : Nat
  rejected : Bool

namespace OfferedMimes

/-- Nothing was offered. -/
def default : OfferedMimes := ⟨fun _ => none, 0, 0, false⟩

/-- Is the essence preferred over the types of the later ranks?  Types without a rank are
not asked for. -/
def rank (value : String) : Option (Fin 6) :=
  let essence := mimeEssence value
  let startsWith := fun start : String => start.toList.isPrefixOf essence.toList
  if essence = "text/plain" ∨ essence = "UTF8_STRING" ∨ essence = "STRING" ∨ essence = "TEXT" then
    some 0
  else if startsWith "image/" then some 1
  else if startsWith "x-special/" then some 2
  else if essence = "application/x-gnome-copied-files" then some 2
  else if essence = "chromium/x-web-custom-data" then some 3
  else if startsWith "chromium/x-internal" then none
  else if startsWith "text/" then some 4
  else if '/' ∈ essence.toList ∧ essence.toList.head?.any Char.isLower then some 5
  else none

/-- The type has parameters. -/
def hasParameters (value : String) : Bool := value.toList.contains ';'

/-- A type is offered; it is kept if it is preferred in its rank. -/
def add (m : OfferedMimes) (value : String) : OfferedMimes :=
  if m.rejected then m
  else
    let count := m.count + 1
    let bytes := m.bytes + byteLen value
    let rejected := value = "application/x-shelllist-sensitive" ∨
      value = "x-kde-passwordManagerHint" ∨ value = "" ∨ count > MAX_OFFERS ∨ bytes > 8192 ∨
      byteLen value > 96 ∨ value.toList.any fun c => !(0x20 ≤ c.toNat && c.toNat ≤ 0x7E)
    if rejected then { m with count, bytes, rejected := true }
    else
      match rank value with
      | none => { m with count, bytes }
      | some r =>
          let replace := (m.choices r).all fun previous =>
            hasParameters previous && !hasParameters value
          { m with
            count, bytes
            choices := if replace then Function.update m.choices r (some value) else m.choices }

/-- Take the first choice. -/
def next (m : OfferedMimes) : Option (String × OfferedMimes) :=
  if m.rejected then none
  else
    match (List.finRange 6).find? fun r => (m.choices r).isSome with
    | none => none
    | some r => (m.choices r).map fun value =>
        (value, { m with choices := Function.update m.choices r none })

/-! ## What is chosen -/

/-- A choice stands for the offered types of its rank: it is one of them, and has parameters
only if they all have. -/
def Stands (offers : List String) (r : Fin 6) : Option String → Prop
  | none => ∀ w ∈ offers, rank w ≠ some r
  | some v => v ∈ offers ∧ rank v = some r ∧
      (hasParameters v = true → ∀ w ∈ offers, rank w = some r → hasParameters w = true)

theorem Stands.other {offers : List String} {r : Fin 6} {choice : Option String} {value : String}
    (h : Stands offers r choice) (hrank : rank value ≠ some r) :
    Stands (offers ++ [value]) r choice := by
  cases choice with
  | none =>
      intro w hw
      rcases List.mem_append.mp hw with hw | hw
      · exact h w hw
      · exact List.mem_singleton.mp hw ▸ hrank
  | some v =>
      obtain ⟨hmem, hv, hparameters⟩ := h
      refine ⟨List.mem_append_left _ hmem, hv, fun hp w hw hwr => ?_⟩
      rcases List.mem_append.mp hw with hw | hw
      · exact hparameters hp w hw hwr
      · exact absurd (List.mem_singleton.mp hw ▸ hwr) hrank

/-- A type of the rank takes the place of a choice, or leaves it. -/
theorem Stands.same {offers : List String} {r : Fin 6} {choice : Option String} {value : String}
    (h : Stands offers r choice) (hrank : rank value = some r) :
    Stands (offers ++ [value]) r
      (if choice.all fun previous => hasParameters previous && !hasParameters value then some value
        else choice) := by
  cases choice with
  | none =>
      refine ⟨List.mem_append_right _ (List.mem_singleton_self _), hrank, fun hp w hw hwr => ?_⟩
      rcases List.mem_append.mp hw with hw | hw
      · exact absurd hwr (h w hw)
      · exact List.mem_singleton.mp hw ▸ hp
  | some v =>
      obtain ⟨hmem, hv, hparameters⟩ := h
      cases hvp : hasParameters v <;> cases hvalue : hasParameters value
      · simpa [Stands, hvp, hv] using .inl hmem
      · simpa [Stands, hvp, hv] using .inl hmem
      · simp [Stands, hvp, hvalue, hrank]
      · have hall : ∀ w ∈ offers ++ [value], rank w = some r → hasParameters w = true := by
          intro w hw hwr
          rcases List.mem_append.mp hw with hw | hw
          · exact hparameters hvp w hw hwr
          · exact List.mem_singleton.mp hw ▸ hvalue
        simpa [Stands, hmem, hv] using fun _ => hall

theorem stands_add {offers : List String} {m : OfferedMimes} (value : String)
    (h : m.rejected = false → ∀ r, Stands offers r (m.choices r))
    (haccepted : (m.add value).rejected = false) (r : Fin 6) :
    Stands (offers ++ [value]) r ((m.add value).choices r) := by
  simp only [add] at haccepted ⊢
  split at haccepted
  next hrejected => simp [hrejected] at haccepted
  next hrejected =>
    have hm := h (by simpa using hrejected) r
    rw [if_neg hrejected]
    split at haccepted
    · cases haccepted
    next hvalue =>
      rw [if_neg hvalue]
      cases hrank : rank value with
      | none => exact hm.other (by simp [hrank])
      | some r₀ =>
          rcases eq_or_ne r r₀ with rfl | hne
          · have hsame := hm.same hrank
            dsimp only
            split at hsame
            next hreplace => simpa [hreplace] using hsame
            next hkept => simpa [hkept] using hsame
          · have hrank' : rank value ≠ some r := by simp [hrank, hne.symm]
            have hother := hm.other hrank'
            dsimp only
            split
            · simpa [Function.update_of_ne hne] using hother
            · exact hother

/-- What is chosen among some offers. -/
def ofOffers (offers : List String) : OfferedMimes := offers.foldl add default

theorem stands_ofOffers (offers : List String) (h : (ofOffers offers).rejected = false)
    (r : Fin 6) : Stands offers r ((ofOffers offers).choices r) := by
  have key : ∀ (later earlier : List String) (m : OfferedMimes),
      (m.rejected = false → ∀ r, Stands earlier r (m.choices r)) →
      (later.foldl add m).rejected = false →
      ∀ r, Stands (earlier ++ later) r ((later.foldl add m).choices r) := by
    intro later
    induction later with
    | nil =>
        intro earlier m hm haccepted r
        simpa using hm haccepted r
    | cons value later ih =>
        intro earlier m hm haccepted r
        have hstep := ih (earlier ++ [value]) (m.add value) (stands_add value hm) haccepted r
        simpa using hstep
  simpa [ofOffers] using key offers [] default (fun _ r => by simp [default, Stands]) h r

/-- The first choice is one of the offered types with a rank, and has parameters only if
all offered types of its rank have. -/
theorem next_ofOffers {offers : List String} {value : String} {m : OfferedMimes}
    (h : (ofOffers offers).next = some (value, m)) :
    value ∈ offers ∧ ∃ r, rank value = some r ∧
      (hasParameters value = true → ∀ w ∈ offers, rank w = some r → hasParameters w = true) := by
  simp only [next] at h
  split at h
  · cases h
  next haccepted =>
    split at h
    · cases h
    next r hr =>
      obtain ⟨v, hv, hvalue⟩ := Option.map_eq_some_iff.mp h
      cases hvalue
      have hstands := stands_ofOffers offers (by simpa using haccepted) r
      rw [hv] at hstands
      exact ⟨hstands.1, r, hstands.2⟩

end OfferedMimes

end ClipDaemon.Capture
