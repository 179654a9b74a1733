import ClipDaemon.Api.Bookkeeping
import Mathlib.Data.Finset.Max

/-!
# Admission of operations

A request that may start an operation reserves a place first.  The reservation counts until
the operation is entered into the book, and the record from then on, so the operations that
are active and those that may become so are bounded together (`Bounded`).  This needs that
every request that launches has reserved, which `mayStart` decides from the parameters
before they are decoded.
-/

namespace ClipDaemon.Jobs

open ThreadLog

/-! ## Loads -/

instance (id : Uuid) (log : List (Nat × JobEffect)) : Decidable (Entered id log) :=
  decidable_of_iff
    (∃ entry ∈ log, entry.1 = id ∧ (match entry.2 with | .registered _ => true | _ => false) = true)
    (by
      constructor
      · rintro ⟨⟨j, effect⟩, hmem, rfl, heffect⟩
        cases effect with
        | registered owner => exact ⟨owner, hmem⟩
        | _ => cases heffect
      · rintro ⟨owner, hmem⟩
        exact ⟨_, hmem, rfl, rfl⟩)

/-- The active records of some owners, and their reservations that have no record yet. -/
def load (p : Owner → Bool) (s : Jobs) : Nat :=
  s.book.records.countP (fun entry => entry.active && p entry.owner) +
    s.book.pending.countP fun held => !decide (Entered held.1 s.log) && p held.2

/-- The book keeps within its limits. -/
structure Bounded (s : Jobs) : Prop where
  total : load (fun _ => true) s ≤ MAX_ACTIVE
  own : ∀ owner, load (fun other => other = owner) s ≤ MAX_OWNER_ACTIVE
  size : s.book.records.length ≤ MAX_RECORDS
  /-- Who has registered has reserved. -/
  admitted : ∀ id owner, (id, .registered owner) ∈ s.log → (id, .reserved owner) ∈ s.log

/-- What makes no load heavier, no book longer, and registers nothing. -/
theorem Bounded.of_load {s t : Jobs} (h : s.Bounded) (hload : ∀ p, load p t ≤ load p s)
    (hsize : t.book.records.length ≤ s.book.records.length) (hlog : s.log <+: t.log)
    (hregistered : ∀ id owner, (id, JobEffect.registered owner) ∈ t.log →
      (id, .registered owner) ∈ s.log) : t.Bounded where
  total := (hload _).trans h.total
  own owner := (hload _).trans (h.own owner)
  size := hsize.trans h.size
  admitted id owner hid := hlog.subset (h.admitted id owner (hregistered id owner hid))

theorem bounded_initial (now : Nat) : (initial now).Bounded where
  total := Nat.zero_le _
  own _ := Nat.zero_le _
  size := Nat.zero_le _
  admitted _ _ h := by cases h

/-- An effect that registers nothing leaves the registrations as they are. -/
theorem registered_append {log : List (Nat × JobEffect)} {i : Nat} {effect : JobEffect}
    (h : ∀ owner, effect ≠ .registered owner) (id : Uuid) (owner : Owner) :
    (id, .registered owner) ∈ log ++ [(i, effect)] ↔ (id, .registered owner) ∈ log := by
  constructor
  · intro hmem
    rcases List.mem_append.mp hmem with hmem | hmem
    · exact hmem
    · cases List.mem_singleton.mp hmem
      exact absurd rfl (h owner)
  · exact List.mem_append_left _

theorem entered_append {log : List (Nat × JobEffect)} {i : Nat} {effect : JobEffect}
    (h : ∀ owner, effect ≠ .registered owner) (id : Uuid) :
    Entered id (log ++ [(i, effect)]) ↔ Entered id log :=
  exists_congr fun owner => registered_append h id owner

section Loads

variable {s : Jobs} {i : Nat} {p : Owner → Bool}

theorem load_record {effect : JobEffect} (h : ∀ owner, effect ≠ .registered owner) :
    load p (record i effect s) = load p s := by
  refine congrArg (_ + ·) (List.countP_congr fun held _ => ?_)
  have hentered : Entered held.1 (record i effect s).log ↔ Entered held.1 s.log :=
    entered_append h held.1
  rw [decide_eq_decide.mpr hentered]

/-- Fewer records and fewer reservations. -/
theorem load_mono {t : Jobs} (hrecords : t.book.records.Sublist s.book.records)
    (hpending : t.book.pending.Sublist s.book.pending) (hlog : t.log = s.log) :
      load p t ≤ load p s := by
  rw [load, load, hlog]
  exact Nat.add_le_add hrecords.countP_le hpending.countP_le

/-- The next version of an active record weighs no more. -/
theorem load_update {entry : Record} {operation : OperationResult} (h : s.Valid)
    (hentry : entry ∈ s.book.records) (hactive : entry.active = true) :
    load p { s with book := s.book.update (entry.next operation s.now) } ≤ load p s := by
  rw [load, load]
  refine Nat.add_le_add_right ?_ _
  change List.countP _ (s.book.records.map _) ≤ _
  rw [List.countP_map]
  refine List.countP_mono_left fun other hother hweighs => ?_
  rw [Function.comp_apply] at hweighs
  split at hweighs
  next heq =>
    have hsame : other = entry := List.inj_on_of_nodup_map h.keys hother hentry heq
    subst hsame
    rw [Bool.and_eq_true] at hweighs ⊢
    exact ⟨hactive, hweighs.2⟩
  next => exact hweighs

/-- A reservation that was counted and is not any more. -/
theorem countP_lose {l : List (Nat × Owner)} {a : Nat × Owner} (q q' : Nat × Owner → Bool)
    (ha : a ∈ l) (hq : q a = true) (hq' : q' a = false) (himp : ∀ b ∈ l, q' b = true → q b = true) :
    l.countP q' + 1 ≤ l.countP q := by
  have hperm : l.Perm (a :: l.erase a) := List.perm_cons_erase ha
  rw [hperm.countP_eq q, hperm.countP_eq q', List.countP_cons_of_pos hq,
    List.countP_cons_of_neg (by rw [hq']; decide)]
  exact Nat.succ_le_succ (List.countP_mono_left fun b hb => himp b (List.mem_of_mem_erase hb))

end Loads

/-! ## Full books -/

/-- A book with an ended record has one that was updated first. -/
theorem oldest_ne_nil {book : Book} (h : ∃ entry ∈ book.records, entry.active = false) :
    book.oldest ≠ [] := by
  obtain ⟨entry, hentry, hended⟩ := h
  have hnonempty : (book.records.toFinset.filter fun entry => entry.active = false).Nonempty :=
    ⟨entry, by simp [hentry, hended]⟩
  obtain ⟨first, hfirst, hmin⟩ := Finset.exists_min_image _ Record.updated hnonempty
  rw [Finset.mem_filter, List.mem_toFinset] at hfirst
  refine List.ne_nil_of_mem (a := first.id)
    (List.mem_map_of_mem (List.mem_filter.mpr ⟨hfirst.1, ?_⟩))
  rw [Bool.and_eq_true, Bool.not_eq_true', List.all_eq_true]
  refine ⟨hfirst.2, fun other hother => ?_⟩
  cases hactive : other.active with
  | true => rfl
  | false =>
      have hle := hmin other (by simp [hother, hactive])
      simpa using hle

/-- A full book whose load is bounded has a record to evict. -/
theorem Bounded.oldest {s : Jobs} (h : s.Bounded) (hfull : MAX_RECORDS ≤ s.book.records.length) :
    s.book.oldest ≠ [] := by
  refine oldest_ne_nil ?_
  by_contra hnone
  have hall : ∀ entry ∈ s.book.records, (entry.active && true) = true := by
    intro entry hentry
    rw [Bool.and_true]
    by_contra hended
    exact hnone ⟨entry, hentry, by simpa using hended⟩
  have hcount := List.countP_eq_length.mpr hall
  have htotal := h.total
  rw [load, hcount] at htotal
  rw [MAX_RECORDS] at hfull
  rw [MAX_ACTIVE] at htotal
  omega

end ClipDaemon.Jobs
