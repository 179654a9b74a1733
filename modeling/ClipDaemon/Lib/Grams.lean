import Mathlib.Data.List.Sort
import Mathlib.Data.List.Infix
import Mathlib.Data.List.Nodup

/-!
# Grams of a list

The `k`-grams of a list are its contiguous pieces of length `k` (`windows`).  A list
that contains another one contains all its grams, so grams are necessary conditions for
containment.  They stay necessary when only some are used: `collect bound` gathers the
first `bound` distinct ones.
-/

namespace Grams

variable {α : Type*}

/-- The contiguous pieces of length `k` of a list. -/
def windows (k : Nat) : List α → List (List α)
  | [] => []
  | a :: as => if (a :: as).length < k then [] else (a :: as).take k :: windows k as

/-- A gram is contained in its list. -/
theorem isInfix_of_mem_windows {k : Nat} {w as : List α} (h : w ∈ windows k as) : w <:+: as := by
  induction as with
  | nil => simp [windows] at h
  | cons a as ih =>
      rw [windows] at h
      split at h
      · simp at h
      · rcases List.mem_cons.mp h with rfl | h
        · exact (List.take_prefix k (a :: as)).isInfix
        · exact (ih h).trans (List.suffix_cons a as).isInfix

theorem length_of_mem_windows {k : Nat} {w as : List α} (h : w ∈ windows k as) : w.length = k := by
  induction as with
  | nil => simp [windows] at h
  | cons a as ih =>
      rw [windows] at h
      split at h
      · simp at h
      next hk =>
        rcases List.mem_cons.mp h with rfl | h
        · rw [List.length_take]
          omega
        · exact ih h

variable [DecidableEq α]

/-- Add grams to the set `terms` until it has `bound` elements. -/
def collect (bound : Nat) : List α → List α → List α
  | terms, [] => terms
  | terms, g :: gs =>
      if (terms.insert g).length = bound then terms.insert g else collect bound (terms.insert g) gs

/-- Nothing is collected but what was there and what was offered. -/
theorem mem_of_mem_collect {bound : Nat} {g : α} :
    ∀ {terms gs : List α}, g ∈ collect bound terms gs → g ∈ terms ∨ g ∈ gs := by
  intro terms gs
  induction gs generalizing terms with
  | nil => exact fun h => .inl h
  | cons x xs ih =>
      intro h
      have hinsert : g ∈ terms.insert x → g ∈ terms ∨ g ∈ x :: xs := fun h => by
        rcases List.mem_insert_iff.mp h with rfl | h
        · exact .inr (List.mem_cons_self ..)
        · exact .inl h
      rw [collect] at h
      split at h
      · exact hinsert h
      · rcases ih h with h | h
        · exact hinsert h
        · exact .inr (List.mem_cons_of_mem x h)

end Grams
