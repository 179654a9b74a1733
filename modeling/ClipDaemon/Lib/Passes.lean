import Mathlib.Data.List.TakeWhile
import Mathlib.Logic.Function.Iterate
import Mathlib.Tactic.Push

/-!
# Bounded passes over a queue

A queue is worked off in passes.  A pass takes the first `n` elements, leaves those it skips
and takes out the others one by one.  It ends at the first element that is stuck, and that
element stays first in line.

What comes before the first stuck element is worked off after some passes, when there are
fewer than `n` elements to skip, and what comes after it is never reached.  So passes take out
all that can be taken out exactly when nothing of that kind follows a stuck element
(`exists_pass_iff`).
-/

namespace Passes

variable {α : Type*} (skip stuck : α → Bool) (n : ℕ)

/-- The elements of one pass, up to a stuck one. -/
def worked (l : List α) : List α := (l.take n).takeWhile fun a => skip a || !stuck a

/-- The queue after one pass. -/
def pass (l : List α) : List α :=
  (worked skip stuck n l).filter skip ++ l.drop (worked skip stuck n l).length

/-- One pass over elements none of which ends it. -/
def drain (l : List α) : List α := (l.take n).filter skip ++ l.drop n

variable {skip stuck n} {l before after : List α}

theorem takeWhile_congr {p q : α → Bool} (h : ∀ a ∈ l, p a = q a) :
    l.takeWhile p = l.takeWhile q := by
  induction l with
  | nil => rfl
  | cons a l ih =>
      obtain ⟨hfirst, hrest⟩ := List.forall_mem_cons.mp h
      rw [List.takeWhile_cons, List.takeWhile_cons, hfirst, ih hrest]

theorem pass_congr {stuck' : α → Bool} (h : ∀ a ∈ l, stuck a = stuck' a) :
    pass skip stuck n l = pass skip stuck' n l := by
  have hworked : worked skip stuck n l = worked skip stuck' n l :=
    takeWhile_congr fun a ha => by rw [h a (List.mem_of_mem_take ha)]
  rw [pass, pass, hworked]

/-- What a pass works off is a first part of the queue. -/
theorem worked_append_drop (skip stuck : α → Bool) (n : ℕ) (l : List α) :
    worked skip stuck n l ++ l.drop (worked skip stuck n l).length = l :=
  List.prefix_iff_eq_append.mp ((List.takeWhile_prefix _).trans (List.take_prefix n l))

/-- A stuck element ends a pass. -/
theorem worked_append (hbefore : ∀ a ∈ before, (skip a || !stuck a) = true)
    (hafter : ∀ a ∈ after.head?, (skip a || !stuck a) = false) :
    worked skip stuck n (before ++ after) = before.take n := by
  have hend : (after.take (n - before.length)).takeWhile (fun a => skip a || !stuck a) = [] := by
    cases after with
    | nil => simp
    | cons a after =>
        cases n - before.length with
        | zero => rfl
        | succ m => rw [List.take_succ_cons, List.takeWhile_cons_of_neg (by simp [hafter a rfl])]
  rw [worked, List.take_append,
    List.takeWhile_append_of_pos fun a ha => hbefore a (List.mem_of_mem_take ha), hend,
    List.append_nil]

theorem pass_append (hbefore : ∀ a ∈ before, (skip a || !stuck a) = true)
    (hafter : ∀ a ∈ after.head?, (skip a || !stuck a) = false) :
    pass skip stuck n (before ++ after) = drain skip n before ++ after := by
  have hdrop : (before ++ after).drop (before.take n).length = before.drop n ++ after := by
    rw [List.length_take, List.drop_append_of_le_length (Nat.min_le_right _ _)]
    rcases Nat.le_total n before.length with hle | hle
    · rw [Nat.min_eq_left hle]
    · rw [Nat.min_eq_right hle, List.drop_length, List.drop_eq_nil_of_le hle]
  rw [pass, worked_append hbefore hafter, hdrop, drain, List.append_assoc]

theorem mem_of_mem_drain {a : α} (h : a ∈ drain skip n l) : a ∈ l := by
  rcases List.mem_append.mp h with h | h
  · exact List.mem_of_mem_take (List.mem_filter.mp h).1
  · exact List.mem_of_mem_drop h

theorem iterate_pass_append (hbefore : ∀ a ∈ before, (skip a || !stuck a) = true)
    (hafter : ∀ a ∈ after.head?, (skip a || !stuck a) = false) (k : ℕ) :
    (pass skip stuck n)^[k] (before ++ after) = (drain skip n)^[k] before ++ after := by
  induction k generalizing before with
  | zero => rfl
  | succ k ih =>
      rw [Function.iterate_succ_apply, Function.iterate_succ_apply, pass_append hbefore hafter]
      exact ih fun a ha => hbefore a (mem_of_mem_drain ha)

/-- Skipped elements stay. -/
theorem filter_drain (l : List α) : (drain skip n l).filter skip = l.filter skip := by
  have hsplit : l.filter skip = (l.take n).filter skip ++ (l.drop n).filter skip := by
    rw [← List.filter_append, List.take_append_drop]
  rw [hsplit, drain, List.filter_append, List.filter_filter]
  simp

/-- A pass takes something out, while there is something and not too much to skip. -/
theorem length_drain_lt (hn : (l.filter skip).length < n) {a : α} (ha : a ∈ l)
    (hskip : skip a = false) :
    ((drain skip n l).filter fun a => !skip a).length < (l.filter fun a => !skip a).length := by
  have hfirst : (l.take n).filter (fun a => !skip a) ≠ [] := by
    intro hnil
    have hall : ∀ b ∈ l.take n, skip b = true := by
      intro b hb
      simpa using List.filter_eq_nil_iff.mp hnil b hb
    have hlength : (l.take n).length ≤ (l.filter skip).length := by
      rw [← List.filter_eq_self.mpr hall]
      exact ((List.take_sublist n l).filter skip).length_le
    have hshort : l.length < n := by
      rw [List.length_take] at hlength
      omega
    have hmem : a ∈ l.take n := by rwa [List.take_of_length_le (Nat.le_of_lt hshort)]
    rw [hall a hmem] at hskip
    cases hskip
  have hsplit : l.filter (fun a => !skip a) =
      (l.take n).filter (fun a => !skip a) ++ (l.drop n).filter fun a => !skip a := by
    rw [← List.filter_append, List.take_append_drop]
  have hdrain : (drain skip n l).filter (fun a => !skip a) = (l.drop n).filter fun a =>
      !skip a := by
    rw [drain, List.filter_append, List.filter_filter]
    simp
  have hpos := List.length_pos_iff.mpr hfirst
  rw [hdrain, hsplit, List.length_append]
  omega

/-- Passes work off a queue in which nothing is stuck. -/
theorem exists_drain (hn : (l.filter skip).length < n) :
    ∃ k, ∀ a ∈ (drain skip n)^[k] l, skip a = true := by
  induction hm : (l.filter fun a => !skip a).length using Nat.strong_induction_on
    generalizing l with
  | _ m ih =>
      by_cases hall : ∀ a ∈ l, skip a = true
      · exact ⟨0, hall⟩
      · push Not at hall
        obtain ⟨a, ha, hskip⟩ := hall
        have hlt := length_drain_lt hn ha (by simpa using hskip)
        obtain ⟨k, hk⟩ := ih _ (hm ▸ hlt) (by rwa [filter_drain]) rfl
        exact ⟨k + 1, hk⟩

/-- Passes take out all that is neither skipped nor stuck exactly when nothing of that kind
follows an element that ends a pass. -/
theorem exists_pass_iff (hn : (l.filter skip).length < n) :
    (∃ k, ∀ a ∈ (pass skip stuck n)^[k] l, skip a = true ∨ stuck a = true) ↔
      l.Pairwise fun a b => stuck a = true → skip a = false → skip b = true ∨ stuck b = true := by
  obtain ⟨before, after, rfl, hbefore, hafter⟩ : ∃ before after, l = before ++ after ∧
      (∀ a ∈ before, (skip a || !stuck a) = true) ∧
      ∀ a ∈ after.head?, (skip a || !stuck a) = false := by
    refine ⟨_, _, (List.takeWhile_append_dropWhile (p := fun a => skip a || !stuck a)).symm,
      fun a ha => by simpa using List.mem_takeWhile_imp ha, fun a ha => ?_⟩
    have hne : l.dropWhile (fun a => skip a || !stuck a) ≠ [] := by
      intro hnil
      rw [hnil] at ha
      cases ha
    have hhead := List.head_dropWhile_not (fun a => skip a || !stuck a) hne
    rw [List.head?_eq_some_head hne] at ha
    obtain rfl := Option.some.inj ha
    exact hhead
  have hpass : ∀ a ∈ before, ¬(stuck a = true ∧ skip a = false) := by
    rintro a ha ⟨hstuck, hskip⟩
    have hgo := hbefore a ha
    rw [hstuck, hskip] at hgo
    cases hgo
  constructor
  · rintro ⟨k, hk⟩
    rw [iterate_pass_append hbefore hafter] at hk
    refine List.pairwise_append.mpr ⟨?_, ?_, ?_⟩
    · exact List.pairwise_of_forall_mem_list fun a ha b _ h h' => absurd ⟨h, h'⟩ (hpass a ha)
    · exact List.pairwise_of_forall_mem_list fun a _ b hb _ _ => hk b (List.mem_append_right _ hb)
    · exact fun a ha b _ h h' => absurd ⟨h, h'⟩ (hpass a ha)
  · intro hpairwise
    obtain ⟨k, hk⟩ := exists_drain (l := before) (n := n)
      (((List.sublist_append_left before after).filter skip).length_le.trans_lt hn)
    refine ⟨k, fun a ha => ?_⟩
    rw [iterate_pass_append hbefore hafter] at ha
    rcases List.mem_append.mp ha with ha | ha
    · exact .inl (hk a ha)
    · cases after with
      | nil => cases ha
      | cons first rest =>
          have hfirst := hafter first rfl
          simp only [Bool.or_eq_false_iff, Bool.not_eq_false'] at hfirst
          rcases List.mem_cons.mp ha with rfl | ha
          · exact .inr hfirst.2
          · have hrest := (List.pairwise_cons.mp (List.pairwise_append.mp hpairwise).2.1).1 a ha
            exact hrest hfirst.2 hfirst.1

end Passes
