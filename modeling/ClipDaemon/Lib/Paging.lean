import Mathlib.Algebra.GroupWithZero.Nat
import Mathlib.Data.List.Basic

/-!
# Reading a list page by page

A page of a list is a slice at an offset with a limit, and the next offset when
elements remain.  Following the next offset from page to page, with any limits, reads
the list in order, each element once (`follow_append_drop`), and reaches the end when
the limits are positive and there are enough of them (`follow_eq_none`).
-/

namespace Paging

variable {α : Type*}

/-- At most `limit` elements from `offset` on. -/
def slice (list : List α) (offset limit : Nat) : List α := (list.drop offset).take limit

/-- Where the next page starts, if elements remain. -/
def next (list : List α) (offset limit : Nat) : Option Nat :=
  if offset + limit < list.length then some (offset + limit) else none

/-- One page for each limit: what is read, and where the next page would start. -/
def follow (list : List α) : Option Nat → List Nat → List α × Option Nat
  | none, _ => ([], none)
  | some offset, [] => ([], some offset)
  | some offset, limit :: limits =>
      (slice list offset limit ++ (follow list (next list offset limit) limits).1,
        (follow list (next list offset limit) limits).2)

/-- A slice and what comes after it. -/
theorem slice_append_drop (list : List α) (offset limit : Nat) :
    slice list offset limit ++ list.drop (offset + limit) = list.drop offset := by
  rw [slice, ← List.drop_drop, List.take_append_drop]

theorem length_slice_of_lt {list : List α} {offset limit : Nat}
    (h : offset + limit < list.length) : (slice list offset limit).length = limit := by
  rw [slice, List.length_take, List.length_drop]
  omega

/-- What is read and what is left make up the list from the start on. -/
theorem follow_append_drop (list : List α) (limits : List Nat) (offset : Nat) :
    (follow list (some offset) limits).1 ++
        list.drop ((follow list (some offset) limits).2.getD list.length) = list.drop offset := by
  induction limits generalizing offset with
  | nil => rfl
  | cons limit limits ih =>
      have hpage := slice_append_drop list offset limit
      rw [follow, next]
      split
      · rw [List.append_assoc, ih, hpage]
      next hend =>
        rw [List.drop_eq_nil_of_le (by omega), List.append_nil] at hpage
        simp [follow, hpage]

/-- Positive limits, as many as there are elements left, reach the end. -/
theorem follow_eq_none {list : List α} {limits : List Nat} {offset : Nat}
    (hpos : ∀ limit ∈ limits, 1 ≤ limit) (hne : limits ≠ [])
    (hlength : list.length ≤ offset + limits.length) :
    (follow list (some offset) limits).2 = none := by
  induction limits generalizing offset with
  | nil => exact absurd rfl hne
  | cons limit limits ih =>
      have hlimit := hpos limit (List.mem_cons_self ..)
      rw [List.length_cons] at hlength
      simp only [follow, next]
      split
      next hmore =>
        refine ih (fun l hl => hpos l (List.mem_cons_of_mem limit hl)) ?_ (by omega)
        rintro rfl
        simp only [List.length_nil] at hlength
        omega
      next => simp [follow]

end Paging
