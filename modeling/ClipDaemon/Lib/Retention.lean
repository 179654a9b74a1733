import Mathlib.Data.List.DropRight

/-!
# Bounded queues whose entries expire

A queue keeps the last `size` results that were put into it, each with the time it came.
What is at the front and older than `age` is dropped, before a result is put in and before
the queue is read.  So reading it shows what is left of its whole history (`prune_retain`):
the last `size` results without the old ones at the front.
-/

namespace Retention

variable {α : Type*} {size age now now' : ℕ} {queue history : List (ℕ × α)}

/-- Drop what is at the front and old. -/
def prune (age now : ℕ) (queue : List (ℕ × α)) : List (ℕ × α) :=
  queue.dropWhile fun entry => age ≤ now - entry.1

/-- Put a result into the queue; when it is full the first one goes. -/
def retain (size age now : ℕ) (queue : List (ℕ × α)) (a : α) : List (ℕ × α) :=
  (if (prune age now queue).length = size then (prune age now queue).tail
    else prune age now queue) ++ [(now, a)]

/-- What a queue shows whose whole history is known. -/
def kept (size age now : ℕ) (history : List (ℕ × α)) : List (ℕ × α) :=
  prune age now (history.rtake size)

theorem prune_suffix : prune age now queue <:+ queue := List.dropWhile_suffix _

/-- A later look drops all that an earlier one dropped. -/
theorem prune_prune (h : now ≤ now') :
    prune age now' (prune age now queue) = prune age now' queue := by
  induction queue with
  | nil => rfl
  | cons entry queue ih =>
      rw [prune, prune, List.dropWhile_cons]
      cases hold : decide (age ≤ now - entry.1) with
      | false => rfl
      | true =>
          have hold' : decide (age ≤ now' - entry.1) = true := by
            simp only [decide_eq_true_eq] at hold ⊢
            omega
          rw [if_pos rfl]
          change prune age now' (prune age now queue) = _
          rw [ih, prune, prune, List.dropWhile_cons, hold', if_pos rfl]

/-- A new entry is not old. -/
theorem prune_concat (hage : 0 < age) (a : α) :
    prune age now (queue ++ [(now, a)]) = prune age now queue ++ [(now, a)] := by
  induction queue with
  | nil => simp [prune, Nat.ne_of_gt hage]
  | cons entry queue ih =>
      rw [prune, prune, List.cons_append, List.dropWhile_cons, List.dropWhile_cons]
      cases decide (age ≤ now - entry.1) with
      | false => rfl
      | true =>
          rw [if_pos rfl, if_pos rfl]
          exact ih

/-- What a full list lost was at its front, and old. -/
theorem prune_tail (h : (prune age now queue).length < queue.length) :
    prune age now queue.tail = prune age now queue := by
  cases queue with
  | nil => rfl
  | cons entry queue =>
      rw [prune, List.dropWhile_cons] at h
      rw [List.tail_cons, prune, prune, List.dropWhile_cons]
      cases hold : decide (age ≤ now - entry.1) with
      | false =>
          rw [hold, if_neg (by decide)] at h
          exact absurd h (Nat.lt_irrefl _)
      | true => rw [if_pos rfl]

/-- The last `size` entries without the first are the last `size - 1`. -/
theorem tail_rtake (h : size < history.length) :
    (history.rtake (size + 1)).tail = history.rtake size := by
  rw [List.rtake, List.rtake, List.tail_drop]
  congr 1
  omega

theorem length_rtake : (history.rtake size).length = min size history.length := by
  rw [List.rtake, List.length_drop]
  omega

/-- The queue goes on showing what is left of its history. -/
theorem prune_retain (hsize : 0 < size) (hage : 0 < age) (a : α)
    (h : prune age now queue = kept size age now history) :
    prune age now (retain size age now queue a) = kept size age now (history ++ [(now, a)]) := by
  obtain ⟨n, rfl⟩ : ∃ n, size = n + 1 := ⟨size - 1, by omega⟩
  have hidem : prune age now (kept (n + 1) age now history) = kept (n + 1) age now history :=
    prune_prune le_rfl
  have hnew : kept (n + 1) age now (history ++ [(now, a)]) =
      prune age now (history.rtake n) ++ [(now, a)] := by
    rw [kept, List.rtake_concat_succ, prune_concat hage]
  have hlong : (history.rtake (n + 1)).length = min (n + 1) history.length := length_rtake
  have hshort : (kept (n + 1) age now history).length ≤ (history.rtake (n + 1)).length :=
    prune_suffix.length_le
  rw [retain, h, hnew, prune_concat hage]
  congr 1
  rcases Nat.lt_or_ge n history.length with hfull | hspace
  · rw [← tail_rtake hfull]
    split
    next hlength =>
      -- Nothing was old, and the first entry goes because there are too many.
      have hlength' : (kept (n + 1) age now history).length = (history.rtake (n + 1)).length := by
        omega
      have heq : kept (n + 1) age now history = history.rtake (n + 1) :=
        prune_suffix.eq_of_length hlength'
      rw [heq]
    next hlength =>
      have hlost : (prune age now (history.rtake (n + 1))).length <
          (history.rtake (n + 1)).length := by
        change (kept (n + 1) age now history).length < _
        omega
      rw [hidem, prune_tail hlost, kept]
  · have hwhole : history.rtake (n + 1) = history.rtake n := by
      rw [List.rtake, List.rtake]
      congr 1
      omega
    rw [if_neg (by omega), hidem, kept, hwhole]

theorem prune_retain_subset {a : α} :
    retain size age now queue a ⊆ prune age now queue ++ [(now, a)] := by
  refine List.append_subset.mpr ⟨fun entry hentry => List.mem_append_left _ ?_, ?_⟩
  · split at hentry
    · exact List.mem_of_mem_tail hentry
    · exact hentry
  · exact List.subset_append_right _ _

/-- A later look shows no more. -/
theorem prune_subset (h : now ≤ now') : prune age now' queue ⊆ prune age now queue := by
  rw [← prune_prune h]
  exact prune_suffix.subset

/-! ## Queues in the order of time -/

/-- The entries came in their order, until now. -/
def Timed (now : ℕ) (queue : List (ℕ × α)) : Prop :=
  queue.Pairwise (fun entry later => entry.1 ≤ later.1) ∧ ∀ entry ∈ queue, entry.1 ≤ now

theorem Timed.of_suffix {queue' : List (ℕ × α)} (h : Timed now queue) (hsuffix : queue' <:+ queue) :
    Timed now queue' :=
  ⟨h.1.sublist hsuffix.sublist, fun entry hentry => h.2 entry (hsuffix.subset hentry)⟩

theorem Timed.later (h : Timed now queue) (hlater : now ≤ now') : Timed now' queue :=
  ⟨h.1, fun entry hentry => (h.2 entry hentry).trans hlater⟩

theorem Timed.concat (h : Timed now queue) (a : α) : Timed now (queue ++ [(now, a)]) := by
  refine ⟨List.pairwise_append.mpr
    ⟨h.1, List.pairwise_singleton _ _, fun entry hentry last hlast => ?_⟩,
    fun entry hentry => ?_⟩
  · rw [List.mem_singleton.mp hlast]
    exact h.2 entry hentry
  · rcases List.mem_append.mp hentry with hentry | hentry
    · exact h.2 entry hentry
    · rw [List.mem_singleton.mp hentry]

theorem Timed.retain (h : Timed now queue) (a : α) : Timed now (retain size age now queue a) := by
  have hpruned : Timed now (prune age now queue) := h.of_suffix prune_suffix
  rw [Retention.retain]
  split
  · exact (hpruned.of_suffix (List.tail_suffix _)).concat a
  · exact hpruned.concat a

/-- Nothing old is shown. -/
theorem Timed.young (h : Timed now queue) {entry : ℕ × α} (hentry : entry ∈ prune age now queue) :
    now - entry.1 < age := by
  rw [prune] at hentry
  induction queue with
  | nil => cases hentry
  | cons first queue ih =>
      rw [List.dropWhile_cons] at hentry
      cases hold : decide (age ≤ now - first.1) with
      | true =>
          rw [hold, if_pos rfl] at hentry
          exact ih (h.of_suffix (List.suffix_cons _ _)) hentry
      | false =>
          rw [hold, if_neg (by decide)] at hentry
          have hyoung : now - first.1 < age := by simpa using hold
          rcases List.mem_cons.mp hentry with rfl | hentry
          · exact hyoung
          · have hle : first.1 ≤ entry.1 := List.rel_of_pairwise_cons h.1 hentry
            omega

theorem kept_subset : kept size age now history ⊆ history := fun _ h =>
  List.mem_of_mem_drop (prune_suffix.subset h)

end Retention
