import Mathlib.Data.List.Basic

/-!
# Prefix codes

A code writes every letter as a word.  In a prefix code the word of a letter can be split off
the front of any longer text (`PrefixFree`), so a code with a reader is one (`PrefixFree.of_read`).

A text of letters written one after the other is read up to a letter that starts no word
(`PrefixFree.flatMap_cons`), or after which another code is read (`PrefixFree.seq`).
-/

namespace Code

variable {α β γ : Type*}

/-- The first word of a text determines its letter. -/
def PrefixFree (code : α → List β) : Prop :=
  ∀ a b x y, code a ++ x = code b ++ y → a = b ∧ x = y

/-- A code is a prefix code if its words are read off the front of every text. -/
theorem PrefixFree.of_read {code : α → List β} (read : List β → Option (α × List β))
    (h : ∀ a x, read (code a ++ x) = some (a, x)) : PrefixFree code := by
  intro a b x y heq
  have hread := (h a x).symm.trans (heq ▸ h b y)
  exact Prod.mk.inj (Option.some.inj hread)

/-- Two codes one after the other. -/
theorem PrefixFree.seq {code : α → List β} {code' : γ → List β} (h : PrefixFree code)
    (h' : PrefixFree code') :
    PrefixFree fun p : α × γ => code p.1 ++ code' p.2 := by
  rintro ⟨a, c⟩ ⟨b, d⟩ x y heq
  simp only [List.append_assoc] at heq
  obtain ⟨rfl, hrest⟩ := h a b _ _ heq
  obtain ⟨rfl, rfl⟩ := h' c d x y hrest
  exact ⟨rfl, rfl⟩

/-- A literal after a word. -/
theorem PrefixFree.append_const {code : α → List β} (h : PrefixFree code) (literal : List β) :
    PrefixFree fun a => code a ++ literal := by
  intro a b x y heq
  simp only [List.append_assoc] at heq
  obtain ⟨rfl, hrest⟩ := h a b _ _ heq
  exact ⟨rfl, List.append_cancel_left hrest⟩

/-- A literal before a word. -/
theorem PrefixFree.const_append {code : α → List β} (h : PrefixFree code) (literal : List β) :
    PrefixFree fun a => literal ++ code a := by
  intro a b x y heq
  simp only [List.append_assoc] at heq
  exact h a b x y (List.append_cancel_left heq)

/-- Letters written one after the other, up to a letter that starts no word. -/
theorem PrefixFree.flatMap_cons {code : α → List β} (h : PrefixFree code) {stop : β}
    (hword : ∀ a, code a ≠ []) (hstop : ∀ a, (code a).head? ≠ some stop) :
    PrefixFree fun as : List α => as.flatMap code ++ [stop] := by
  have hend : ∀ (a : α) (as : List α) (x y : List β),
      [stop] ++ x ≠ (a :: as).flatMap code ++ [stop] ++ y := by
    intro a as x y heq
    obtain ⟨b, word, hb⟩ := List.exists_cons_of_ne_nil (hword a)
    rw [List.flatMap_cons, hb] at heq
    have hhead := hstop a
    rw [hb, List.head?_cons] at hhead
    exact hhead (congrArg some (List.cons.inj heq).1.symm)
  intro as
  induction as with
  | nil =>
      intro bs x y heq
      cases bs with
      | nil => exact ⟨rfl, List.append_cancel_left heq⟩
      | cons b bs => exact absurd heq (hend b bs x y)
  | cons a as ih =>
      intro bs x y heq
      cases bs with
      | nil => exact absurd heq.symm (hend a as y x)
      | cons b bs =>
          simp only [List.flatMap_cons, List.append_assoc] at heq
          obtain ⟨rfl, hrest⟩ := h a b _ _ heq
          obtain ⟨rfl, hxy⟩ := ih bs x y (by simpa only [List.append_assoc] using hrest)
          exact ⟨rfl, hxy⟩

end Code
