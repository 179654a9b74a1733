import Mathlib.Algebra.GroupWithZero.Nat
import Mathlib.Data.List.Sort
import Mathlib.Data.List.Nodup
import Mathlib.Algebra.BigOperators.Group.List.Basic

/-!
# Eviction from keyed rows

Rows with a key are evicted in two ways, each in the order of a relation `le`.

* By count: of the rows that satisfy a predicate, those past the first `limit` go
  (`pastLimit`).
* By size: with the running total of the sizes written beside the rows, those whose
  total exceeds a budget go (`overBudget`).

Both are computed as lists of keys and deleted with `deleteKeys`.  When the keys are
distinct, what remains is within the limit (`length_filter_deleteKeys_pastLimit`) and
within the budget (`sum_deleteKeys_overBudget`), whatever the order is.  When `le` is a
total preorder, what remains is before what goes (`le_of_mem_pastLimit`,
`le_of_mem_overBudget`), and a row that is before all others goes only when it does not fit
on its own (`first_mem_pastLimit`, `first_mem_overBudget`).
-/

namespace Eviction

variable {ρ κ : Type*} [DecidableEq κ]

/-- Delete the rows with one of the keys. -/
def deleteKeys (key : ρ → κ) (keys : List κ) (rows : List ρ) : List ρ :=
  rows.filter fun r => key r ∉ keys

theorem mem_deleteKeys {key : ρ → κ} {keys : List κ} {rows : List ρ} {r : ρ} :
    r ∈ deleteKeys key keys rows ↔ r ∈ rows ∧ key r ∉ keys := by
  simp [deleteKeys]

/-- Deleting keys commutes with reordering. -/
theorem deleteKeys_perm {key : ρ → κ} {keys : List κ} {rows rows' : List ρ}
    (h : rows.Perm rows') : (deleteKeys key keys rows).Perm (deleteKeys key keys rows') :=
  h.filter _

@[simp] theorem deleteKeys_nil (key : ρ → κ) (rows : List ρ) : deleteKeys key [] rows = rows := by
  simp [deleteKeys]

/-! ## By count -/

/-- The keys of the rows with `p` past the first `limit` in the order `le`. -/
def pastLimit (le : ρ → ρ → Prop) [DecidableRel le] (key : ρ → κ) (p : ρ → Bool) (limit : Nat)
    (rows : List ρ) : List κ :=
  (((rows.filter p).insertionSort le).drop limit).map key

/-- Deleting the keys of a suffix leaves a list no longer than the prefix. -/
theorem length_deleteKeys_drop_le (key : ρ → κ) (limit : Nat) (rows : List ρ) :
    (deleteKeys key ((rows.drop limit).map key) rows).length ≤ limit := by
  have hgone : deleteKeys key ((rows.drop limit).map key) (rows.drop limit) = [] := by
    rw [deleteKeys, List.filter_eq_nil_iff]
    intro r hr
    simpa only [decide_eq_true_eq, not_not] using List.mem_map_of_mem hr
  calc (deleteKeys key ((rows.drop limit).map key) rows).length
      = (deleteKeys key ((rows.drop limit).map key)
        (rows.take limit ++ rows.drop limit)).length := by
        rw [List.take_append_drop]
    _ = (deleteKeys key ((rows.drop limit).map key) (rows.take limit)).length := by
        rw [deleteKeys, List.filter_append, List.length_append]
        rw [deleteKeys] at hgone
        rw [hgone]
        simp [deleteKeys]
    _ ≤ (rows.take limit).length := List.length_filter_le _ _
    _ ≤ limit := List.length_take_le _ _

/-- At most `limit` rows with `p` remain. -/
theorem length_filter_deleteKeys_pastLimit (le : ρ → ρ → Prop) [DecidableRel le] (key : ρ → κ)
    (p : ρ → Bool) (limit : Nat) (rows : List ρ) :
    ((deleteKeys key (pastLimit le key p limit rows) rows).filter p).length ≤ limit := by
  have hswap : (deleteKeys key (pastLimit le key p limit rows) rows).filter p =
      deleteKeys key (pastLimit le key p limit rows) (rows.filter p) := by
    simp only [deleteKeys, List.filter_filter, Bool.and_comm]
  rw [hswap, (deleteKeys_perm (List.perm_insertionSort le (rows.filter p)).symm).length_eq]
  exact length_deleteKeys_drop_le key limit _

omit [DecidableEq κ] in
/-- Within the limit nothing is evicted. -/
theorem pastLimit_eq_nil {le : ρ → ρ → Prop} [DecidableRel le] {key : ρ → κ} {p : ρ → Bool}
    {limit : Nat} {rows : List ρ} (h : (rows.filter p).length ≤ limit) :
    pastLimit le key p limit rows = [] := by
  rw [pastLimit, List.drop_eq_nil_of_le, List.map_nil]
  rw [List.length_insertionSort]
  exact h

/-! ## By size -/

/-- Each row with the total of the sizes up to it, starting from `acc`. -/
def runningTotals (size : ρ → Nat) : Nat → List ρ → List (ρ × Nat)
  | _, [] => []
  | acc, r :: rs => (r, acc + size r) :: runningTotals size (acc + size r) rs

/-- The keys of the rows whose running total in the order `le` exceeds the budget. -/
def overBudget (le : ρ → ρ → Prop) [DecidableRel le] (key : ρ → κ) (size : ρ → Nat) (budget : Nat)
    (rows : List ρ) : List κ :=
  ((runningTotals size 0 (rows.insertionSort le)).filter fun r => budget < r.2).map (key ·.1)

theorem map_fst_runningTotals (size : ρ → Nat) (acc : Nat) (rows : List ρ) :
    (runningTotals size acc rows).map (·.1) = rows := by
  induction rows generalizing acc with
  | nil => rfl
  | cons r rs ih => simp [runningTotals, ih]

/-- Past the budget every running total is past the budget. -/
theorem filter_runningTotals_of_lt {size : ρ → Nat} {acc budget : Nat} (h : budget < acc)
    (rows : List ρ) : (runningTotals size acc rows).filter (fun r => r.2 ≤ budget) = [] := by
  induction rows generalizing acc with
  | nil => rfl
  | cons r rs ih =>
      rw [runningTotals, List.filter_cons_of_neg, ih (by omega)]
      simp only [decide_eq_true_eq]
      omega

/-- The rows whose running total is within the budget fit into it together. -/
theorem sum_filter_runningTotals (size : ρ → Nat) {acc budget : Nat} (h : acc ≤ budget)
    (rows : List ρ) :
    acc + (((runningTotals size acc rows).filter fun r => r.2 ≤ budget).map (size ·.1)).sum
      ≤ budget := by
  induction rows generalizing acc with
  | nil => simpa [runningTotals] using h
  | cons r rs ih =>
      rw [runningTotals]
      by_cases hr : acc + size r ≤ budget
      · rw [List.filter_cons_of_pos (by simpa using hr), List.map_cons, List.sum_cons]
        simpa [Nat.add_assoc] using ih hr
      · rw [List.filter_cons_of_neg (by simpa using hr), filter_runningTotals_of_lt (by omega)]
        simpa using h

/-- No running total is more than the total. -/
theorem runningTotals_le {size : ρ → Nat} {acc : Nat} {rows : List ρ} {r : ρ × Nat}
    (h : r ∈ runningTotals size acc rows) : r.2 ≤ acc + (rows.map size).sum := by
  induction rows generalizing acc with
  | nil => cases h
  | cons row rows ih =>
      rw [List.map_cons, List.sum_cons]
      rcases List.mem_cons.mp h with rfl | h
      · simp only
        omega
      · have hle := ih h
        omega

omit [DecidableEq κ] in
/-- Within the budget nothing is evicted. -/
theorem overBudget_eq_nil {le : ρ → ρ → Prop} [DecidableRel le] {key : ρ → κ} {size : ρ → Nat}
    {budget : Nat} {rows : List ρ} (h : (rows.map size).sum ≤ budget) :
    overBudget le key size budget rows = [] := by
  have hsum : ((rows.insertionSort le).map size).sum = (rows.map size).sum :=
    ((List.perm_insertionSort le rows).map size).sum_nat
  rw [overBudget, List.filter_eq_nil_iff.mpr, List.map_nil]
  intro r hr
  have hle := runningTotals_le hr
  simp only [decide_eq_true_eq]
  omega

/-- With distinct keys, deleting the keys of the pairs with `q` leaves the rows of the
other pairs. -/
theorem deleteKeys_map_fst {β : Type*} {key : ρ → κ} (q : ρ × β → Bool) (pairs : List (ρ × β))
    (h : ((pairs.map (·.1)).map key).Nodup) :
    deleteKeys key ((pairs.filter q).map (key ·.1)) (pairs.map (·.1)) =
      (pairs.filter fun x => !q x).map (·.1) := by
  rw [deleteKeys, List.filter_map]
  congr 1
  refine List.filter_congr fun x hx => ?_
  rw [List.map_map] at h
  have hinj := List.inj_on_of_nodup_map h
  rw [Bool.eq_iff_iff]
  simp only [Function.comp_apply, List.mem_map, List.mem_filter, not_exists, not_and,
    decide_eq_true_eq, Bool.not_eq_true', and_imp]
  constructor
  · intro hno
    cases hq : q x with
    | false => rfl
    | true => exact absurd rfl (hno x hx hq)
  · intro hq y hy hqy hkey
    rw [hinj hy hx hkey, hq] at hqy
    exact absurd hqy (by simp)

/-- What remains fits into the budget. -/
theorem sum_deleteKeys_overBudget (le : ρ → ρ → Prop) [DecidableRel le] {key : ρ → κ}
    (size : ρ → Nat) (budget : Nat) {rows : List ρ} (h : (rows.map key).Nodup) :
    ((deleteKeys key (overBudget le key size budget rows) rows).map size).sum ≤ budget := by
  have hperm := List.perm_insertionSort le rows
  have hrows := map_fst_runningTotals size 0 (rows.insertionSort le)
  have hkept : deleteKeys key (overBudget le key size budget rows) (rows.insertionSort le) =
      ((runningTotals size 0 (rows.insertionSort le)).filter fun r => r.2 ≤ budget).map (·.1) := by
    conv_lhs => rw [← hrows]
    rw [overBudget, deleteKeys_map_fst]
    · congr 2
      funext x
      simp only [← Nat.not_le, decide_not, Bool.not_not]
    · rw [hrows]
      exact (hperm.map key).nodup_iff.mpr h
  have hsum := sum_filter_runningTotals size (Nat.zero_le budget) (rows.insertionSort le)
  rw [((deleteKeys_perm hperm.symm).map size).sum_nat, hkept, List.map_map]
  simpa [Function.comp_def] using hsum

/-! ## Order -/

/-- The rows with `q` before the others, and either in the order `le`. -/
def Firstly (q : ρ → Prop) (le : ρ → ρ → Prop) (a b : ρ) : Prop :=
  (q a ∧ ¬q b) ∨ ((q a ↔ q b) ∧ le a b)

namespace Firstly

variable {q : ρ → Prop} {le : ρ → ρ → Prop} {r s : ρ}

instance [Std.Total le] : Std.Total (Firstly q le) where
  total a b := by
    have h := Std.Total.total (r := le) a b
    unfold Firstly
    by_cases ha : q a <;> by_cases hb : q b <;> simp [ha, hb, h]

instance [IsTrans ρ le] : IsTrans ρ (Firstly q le) where
  trans a b c h h' := by
    unfold Firstly at *
    rcases h with ⟨ha, hb⟩ | ⟨hab, h⟩ <;> rcases h' with ⟨hb', hc⟩ | ⟨hbc, h'⟩
    · exact absurd hb' hb
    · exact .inl ⟨ha, fun hc => hb (hbc.mpr hc)⟩
    · exact .inl ⟨hab.mpr hb', hc⟩
    · exact .inr ⟨hab.trans hbc, IsTrans.trans a b c h h'⟩

theorem not_of_right (hr : q r) (hs : ¬q s) : ¬Firstly q le s r := by
  simp [Firstly, hr, hs]

theorem le_of_left (h : Firstly q le s r) (hs : ¬q s) : ¬q r ∧ le s r := by
  simpa [Firstly, hs] using h

end Firstly

section Order

variable {le : ρ → ρ → Prop} [DecidableRel le] [Std.Total le] [IsTrans ρ le] {key : ρ → κ}
variable {rows : List ρ} {r s : ρ}

omit [DecidableEq κ] in
/-- With distinct keys a row is among some of the rows when its key is. -/
theorem mem_of_key_mem {part : List ρ} (hkeys : (rows.map key).Nodup) (hpart : part ⊆ rows)
    (hr : r ∈ rows) (h : key r ∈ part.map key) : r ∈ part := by
  obtain ⟨r', hr', hkey⟩ := List.mem_map.mp h
  exact List.inj_on_of_nodup_map hkeys (hpart hr') hr hkey ▸ hr'

/-- A row before all others comes first. -/
theorem insertionSort_of_first (hr : r ∈ rows) (hfirst : ∀ s ∈ rows, s ≠ r → ¬le s r) :
    ∃ rest, rows.insertionSort le = r :: rest := by
  have hsorted := List.pairwise_insertionSort le rows
  have hmem := (List.mem_insertionSort le).mpr hr
  cases hlist : rows.insertionSort le with
  | nil =>
      rw [hlist] at hmem
      cases hmem
  | cons head rest =>
      rw [hlist] at hsorted hmem
      have hhead : head ∈ rows := (List.mem_insertionSort le).mp (hlist ▸ List.mem_cons_self ..)
      rcases List.mem_cons.mp hmem with rfl | hrest
      · exact ⟨rest, rfl⟩
      · by_cases heq : head = r
        · exact ⟨rest, by rw [heq]⟩
        · exact absurd (List.rel_of_pairwise_cons hsorted hrest) (hfirst head hhead heq)

omit [DecidableEq κ] in
/-- What is past the limit is behind what is not. -/
theorem le_of_mem_pastLimit {p : ρ → Bool} {limit : Nat} (hkeys : (rows.map key).Nodup)
    (hr : r ∈ rows) (hs : s ∈ rows) (hp : p s = true)
    (hgone : key r ∈ pastLimit le key p limit rows)
    (hkept : key s ∉ pastLimit le key p limit rows) : le s r := by
  have hsorted := List.pairwise_insertionSort le (rows.filter p)
  have hsub : (rows.filter p).insertionSort le ⊆ rows := fun x hx =>
    (List.mem_filter.mp ((List.mem_insertionSort le).mp hx)).1
  have hlate : r ∈ ((rows.filter p).insertionSort le).drop limit :=
    mem_of_key_mem hkeys (fun x hx => hsub (List.mem_of_mem_drop hx)) hr hgone
  have hmem : s ∈ (rows.filter p).insertionSort le :=
    (List.mem_insertionSort le).mpr (List.mem_filter.mpr ⟨hs, hp⟩)
  rw [← List.take_append_drop limit ((rows.filter p).insertionSort le)] at hsorted hmem
  rcases List.mem_append.mp hmem with hearly | hdrop
  · exact (List.pairwise_append.mp hsorted).2.2 s hearly r hlate
  · exact absurd (List.mem_map_of_mem hdrop) hkept

omit [DecidableEq κ] [Std.Total le] [IsTrans ρ le] in
/-- Only rows with `p` are past the limit. -/
theorem of_mem_pastLimit {p : ρ → Bool} {limit : Nat} (hkeys : (rows.map key).Nodup) (hr : r ∈ rows)
    (hgone : key r ∈ pastLimit le key p limit rows) : p r = true := by
  have hsub : ((rows.filter p).insertionSort le).drop limit ⊆ rows.filter p := fun x hx =>
    (List.mem_insertionSort le).mp (List.mem_of_mem_drop hx)
  have hmem := mem_of_key_mem hkeys (fun x hx => (List.mem_filter.mp (hsub hx)).1) hr hgone
  exact (List.mem_filter.mp (hsub hmem)).2

omit [DecidableEq κ] in
/-- The first row with `p` is past the limit only when there is no room at all. -/
theorem first_mem_pastLimit {p : ρ → Bool} {limit : Nat} (hkeys : (rows.map key).Nodup)
    (hr : r ∈ rows) (hp : p r = true) (hfirst : ∀ s ∈ rows, s ≠ r → ¬le s r) :
    key r ∈ pastLimit le key p limit rows ↔ limit = 0 := by
  have hmem : r ∈ rows.filter p := List.mem_filter.mpr ⟨hr, hp⟩
  have hfirst' : ∀ s ∈ rows.filter p, s ≠ r → ¬le s r := fun s hs =>
    hfirst s (List.mem_filter.mp hs).1
  obtain ⟨rest, hsort⟩ := insertionSort_of_first hmem hfirst'
  have hnodup : ((r :: rest).map key).Nodup := by
    rw [← hsort]
    exact ((List.perm_insertionSort le _).map key).nodup_iff.mpr
      (hkeys.sublist (List.filter_sublist.map key))
  rw [pastLimit, hsort]
  cases limit with
  | zero => simp
  | succ limit =>
      simp only [List.drop_succ_cons, Nat.add_one_ne_zero, iff_false]
      intro hgone
      exact (List.nodup_cons.mp hnodup).1 (List.map_subset key (List.drop_subset limit rest) hgone)

/-- The running totals grow. -/
theorem pairwise_runningTotals (size : ρ → Nat) (acc : Nat) (rows : List ρ) :
    (runningTotals size acc rows).Pairwise fun a b => a.2 ≤ b.2 := by
  have hlow : ∀ (rows : List ρ) (acc : Nat), ∀ r ∈ runningTotals size acc rows, acc ≤ r.2 := by
    intro rows
    induction rows with
    | nil => simp [runningTotals]
    | cons row rows ih =>
        intro acc r hr
        rcases List.mem_cons.mp hr with rfl | hr
        · exact Nat.le_add_right _ _
        · exact (Nat.le_add_right _ _).trans (ih _ r hr)
  induction rows generalizing acc with
  | nil => exact .nil
  | cons row rows ih => exact List.pairwise_cons.mpr ⟨hlow rows _, ih _⟩

variable (le) in
omit [DecidableEq κ] [Std.Total le] [IsTrans ρ le] in
theorem exists_runningTotal (size : ρ → Nat) (hr : r ∈ rows) :
    ∃ total, (r, total) ∈ runningTotals size 0 (rows.insertionSort le) := by
  have hmem : r ∈ (runningTotals size 0 (rows.insertionSort le)).map (·.1) := by
    rw [map_fst_runningTotals, List.mem_insertionSort]
    exact hr
  obtain ⟨⟨_, total⟩, hpair, rfl⟩ := List.mem_map.mp hmem
  exact ⟨total, hpair⟩

omit [DecidableEq κ] [Std.Total le] [IsTrans ρ le] in
theorem mem_overBudget {size : ρ → Nat} {budget total : Nat} (hkeys : (rows.map key).Nodup)
    (hpair : (r, total) ∈ runningTotals size 0 (rows.insertionSort le)) :
    key r ∈ overBudget le key size budget rows ↔ budget < total := by
  have hfst := map_fst_runningTotals size 0 (rows.insertionSort le)
  have hnodup : (((runningTotals size 0 (rows.insertionSort le)).map (·.1)).map key).Nodup := by
    rw [hfst]
    exact ((List.perm_insertionSort le rows).map key).nodup_iff.mpr hkeys
  rw [List.map_map] at hnodup
  simp only [overBudget, List.mem_map, List.mem_filter, decide_eq_true_eq]
  constructor
  · rintro ⟨pair, ⟨hmem, hlt⟩, hkey⟩
    rwa [List.inj_on_of_nodup_map hnodup hmem hpair hkey] at hlt
  · exact fun hlt => ⟨_, ⟨hpair, hlt⟩, rfl⟩

omit [DecidableEq κ] in
/-- What is past the budget is behind what is not. -/
theorem le_of_mem_overBudget {size : ρ → Nat} {budget : Nat} (hkeys : (rows.map key).Nodup)
    (hr : r ∈ rows) (hs : s ∈ rows) (hgone : key r ∈ overBudget le key size budget rows)
    (hkept : key s ∉ overBudget le key size budget rows) : le s r := by
  obtain ⟨total, hpair⟩ := exists_runningTotal le size hr
  obtain ⟨total', hpair'⟩ := exists_runningTotal le size hs
  rw [mem_overBudget hkeys hpair] at hgone
  rw [mem_overBudget hkeys hpair'] at hkept
  have hsorted : (runningTotals size 0 (rows.insertionSort le)).Pairwise fun a b => le a.1 b.1 := by
    rw [← List.pairwise_map, map_fst_runningTotals]
    exact List.pairwise_insertionSort le rows
  have hboth := hsorted.and (pairwise_runningTotals size 0 (rows.insertionSort le))
  have hcompare : ∀ ⦃a⦄, a ∈ runningTotals size 0 (rows.insertionSort le) →
      ∀ ⦃b⦄, b ∈ runningTotals size 0 (rows.insertionSort le) → a ≠ b →
        (le a.1 b.1 ∧ a.2 ≤ b.2) ∨ (le b.1 a.1 ∧ b.2 ≤ a.2) :=
    (hboth.imp fun h _ => .inl h).forall_of_forall_of_flip (fun _ _ h => absurd rfl h)
      (hboth.imp fun h _ => .inr h)
  rcases hcompare hpair' hpair (fun heq => hkept ((Prod.mk.inj heq).2 ▸ hgone)) with h | h
  · exact h.1
  · exact absurd (hgone.trans_le h.2) hkept

omit [DecidableEq κ] in
/-- The first row is past the budget only when it is alone. -/
theorem first_mem_overBudget {size : ρ → Nat} {budget : Nat} (hkeys : (rows.map key).Nodup)
    (hr : r ∈ rows) (hfirst : ∀ s ∈ rows, s ≠ r → ¬le s r) :
    key r ∈ overBudget le key size budget rows ↔ budget < size r := by
  obtain ⟨rest, hsort⟩ := insertionSort_of_first hr hfirst
  refine mem_overBudget hkeys ?_
  rw [hsort, runningTotals, Nat.zero_add]
  exact List.mem_cons_self ..

end Order

end Eviction
