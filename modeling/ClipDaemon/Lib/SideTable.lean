import ClipDaemon.Lib.Eviction

/-!
# Side tables

A side table holds, for every row of a parent table, the rows `derive` computes from it.
Each of these carries the key of its parent.  `Derived` says that a side table holds
exactly these rows, in any order.

The rules follow what is done to the two tables together: parents are deleted with
their rows (`Derived.deleteKeys`), a parent is added with its rows (`Derived.append`),
the rows of one parent are replaced (`Derived.replace`), and parents change in a way
that `derive` does not see (`Derived.map_parents`).  `Derived.filter_key` reads the rows
of one parent back.
-/

namespace SideTable

open Eviction

variable {ε ρ κ : Type*}

/-- The rows are those derived from the parents. -/
def Derived (derive : ε → List ρ) (parents : List ε) (rows : List ρ) : Prop :=
  rows.Perm (parents.flatMap derive)

variable {derive derive' : ε → List ρ} {parents : List ε} {rows : List ρ}

theorem Derived.nil : Derived derive [] ([] : List ρ) := List.Perm.nil

/-- A parent is added with its rows. -/
theorem Derived.append (h : Derived derive parents rows) {e : ε} {new : List ρ}
    (hnew : derive e = new) : Derived derive (parents ++ [e]) (rows ++ new) := by
  unfold Derived at *
  rw [List.flatMap_append, List.flatMap_singleton, hnew]
  exact h.append_right _

theorem Derived.congr (h : Derived derive parents rows)
    (hd : ∀ e ∈ parents, derive' e = derive e) : Derived derive' parents rows := by
  unfold Derived at *
  rwa [List.flatMap_congr hd]

/-- The parents may change where `derive` does not see it. -/
theorem Derived.map_parents (h : Derived derive parents rows) (g : ε → ε)
    (hg : ∀ e ∈ parents, derive (g e) = derive e) : Derived derive (parents.map g) rows := by
  unfold Derived at *
  rw [List.flatMap_map]
  rwa [List.flatMap_congr hg]

variable {owner : ε → κ} {key : ρ → κ}

/-- Every row carries the key of a parent. -/
theorem Derived.exists_parent (hk : ∀ e, ∀ r ∈ derive e, key r = owner e)
    (h : Derived derive parents rows) {r : ρ} (hr : r ∈ rows) :
    ∃ e ∈ parents, r ∈ derive e ∧ owner e = key r := by
  obtain ⟨e, he, hre⟩ := List.mem_flatMap.mp (h.mem_iff.mp hr)
  exact ⟨e, he, hre, (hk e r hre).symm⟩

/-- Keeping the rows of some keys keeps the rows of the parents with these keys. -/
theorem filter_flatMap_derive (hk : ∀ e, ∀ r ∈ derive e, key r = owner e) (p : κ → Bool)
    (parents : List ε) :
    (parents.flatMap derive).filter (fun r => p (key r)) =
      (parents.filter fun e => p (owner e)).flatMap derive := by
  induction parents with
  | nil => rfl
  | cons e es ih =>
      have hrows : (derive e).filter (fun r => p (key r)) = if p (owner e) then derive e
          else [] := by
        rw [List.filter_congr fun r hr => by rw [hk e r hr]]
        cases p (owner e) <;> simp
      rw [List.flatMap_cons, List.filter_append, ih, hrows]
      by_cases hp : p (owner e) = true
      · rw [if_pos hp, List.filter_cons, if_pos hp, List.flatMap_cons]
      · rw [if_neg hp, List.filter_cons, if_neg hp, List.nil_append]

theorem Derived.filter (hk : ∀ e, ∀ r ∈ derive e, key r = owner e)
    (h : Derived derive parents rows) (p : κ → Bool) :
    Derived derive (parents.filter fun e => p (owner e)) (rows.filter fun r => p (key r)) := by
  unfold Derived at *
  rw [← filter_flatMap_derive hk]
  exact List.Perm.filter _ h

variable [DecidableEq κ]

/-- Parents and rows are deleted by the same keys. -/
theorem Derived.deleteKeys (hk : ∀ e, ∀ r ∈ derive e, key r = owner e)
    (h : Derived derive parents rows) (ids : List κ) :
    Derived derive (Eviction.deleteKeys owner ids parents) (Eviction.deleteKeys key ids rows) :=
  h.filter hk fun k => k ∉ ids

/-- With distinct keys, one parent has a key. -/
theorem filter_owner_eq (h : (parents.map owner).Nodup) {e : ε} (he : e ∈ parents) :
    (parents.filter fun x => owner x = owner e) = [e] := by
  have hinj := List.inj_on_of_nodup_map h
  have hnodup : parents.Nodup := h.of_map
  obtain ⟨xs, ys, rfl⟩ := List.append_of_mem he
  have hmem : ∀ x ∈ xs ++ ys, owner x ≠ owner e := by
    intro x hx heq
    have hxe := hinj (by simp at hx ⊢; tauto) he heq
    subst hxe
    have := List.nodup_middle.mp hnodup
    exact (List.nodup_cons.mp this).1 hx
  have hxs : xs.filter (fun x => owner x = owner e) = [] :=
    List.filter_eq_nil_iff.mpr fun x hx => by simpa using hmem x (by simp [hx])
  have hys : ys.filter (fun x => owner x = owner e) = [] :=
    List.filter_eq_nil_iff.mpr fun x hx => by simpa using hmem x (by simp [hx])
  rw [List.filter_append, List.filter_cons_of_pos (by simp), hxs, hys, List.nil_append]

/-- The rows with the key of a parent are the rows derived from it. -/
theorem Derived.filter_key (hk : ∀ e, ∀ r ∈ derive e, key r = owner e)
    (h : Derived derive parents rows) (hn : (parents.map owner).Nodup) {e : ε} (he : e ∈ parents) :
    (rows.filter fun r => key r = owner e).Perm (derive e) := by
  have hf := h.filter hk fun k => k = owner e
  rw [filter_owner_eq hn he] at hf
  simpa [Derived] using hf

/-- The rows of the parent with key `k` are replaced. -/
theorem Derived.replace (hk : ∀ e, ∀ r ∈ derive e, key r = owner e)
    (h : Derived derive parents rows) (hn : (parents.map owner).Nodup) {e : ε} (he : e ∈ parents)
    {g : ε → ε} (hother : ∀ x ∈ parents, owner x ≠ owner e → derive' (g x) = derive x)
    {new : List ρ} (hnew : derive' (g e) = new) :
    Derived derive' (parents.map g) (rows.filter (fun r => key r ≠ owner e) ++ new) := by
  have hrest := h.filter hk fun k => k ≠ owner e
  have hparents : parents.Perm (parents.filter (fun x => owner x ≠ owner e) ++ [e]) := by
    have := (List.filter_append_perm (fun x => decide (owner x = owner e)) parents).symm
    rw [filter_owner_eq hn he] at this
    refine this.trans (List.perm_append_comm.trans (List.Perm.of_eq ?_))
    congr 2
    funext x
    simp
  unfold Derived at *
  rw [List.flatMap_map]
  refine List.Perm.trans ?_ (hparents.flatMap_right _).symm
  rw [List.flatMap_append, List.flatMap_singleton, hnew]
  refine List.Perm.append_right _ (hrest.trans (List.Perm.of_eq ?_))
  refine List.flatMap_congr fun x hx => ?_
  obtain ⟨hx, hne⟩ := List.mem_filter.mp hx
  exact (hother x hx (by simpa using hne)).symm

/-! ## Joins on a key -/

/-- With distinct keys, at most one parent with a given key satisfies `p`. -/
theorem length_filter_owner_le_one (h : (parents.map owner).Nodup) {k : κ} {p : ε → Bool}
    (hp : ∀ e ∈ parents, p e = true → owner e = k) : (parents.filter p).length ≤ 1 := by
  by_cases hne : ∃ e ∈ parents, owner e = k
  · obtain ⟨e, he, rfl⟩ := hne
    have hboth : parents.filter p = (parents.filter fun x => owner x = owner e).filter p := by
      rw [List.filter_filter]
      refine List.filter_congr fun x hx => ?_
      cases hpx : p x with
      | false => rfl
      | true => simp [hp x hx hpx]
    rw [hboth, filter_owner_eq h he]
    exact List.length_filter_le p [e]
  · rw [List.filter_eq_nil_iff.mpr fun e he hpe => hne ⟨e, he, hp e he hpe⟩]
    exact Nat.zero_le _

/-- When a join finds at most one partner for each row and as many as there are rows, it
finds one for each. -/
theorem eq_one_of_sum_eq_length {α : Type*} {f : α → Nat} {l : List α} (hle : ∀ a ∈ l, f a ≤ 1)
    (hsum : (l.map f).sum = l.length) : ∀ a ∈ l, f a = 1 := by
  have hbound : ∀ {l : List α}, (∀ a ∈ l, f a ≤ 1) → (l.map f).sum ≤ l.length := by
    intro l hle
    induction l with
    | nil => simp
    | cons a as ih =>
        have ha := hle a (List.mem_cons_self ..)
        have has := ih fun b hb => hle b (List.mem_cons_of_mem a hb)
        simp only [List.map_cons, List.sum_cons, List.length_cons]
        omega
  induction l with
  | nil => simp
  | cons a as ih =>
      have ha := hle a (List.mem_cons_self ..)
      have hrest : ∀ b ∈ as, f b ≤ 1 := fun b hb => hle b (List.mem_cons_of_mem a hb)
      have has := hbound hrest
      simp only [List.map_cons, List.sum_cons, List.length_cons] at hsum
      intro b hb
      rcases List.mem_cons.mp hb with rfl | hb
      · omega
      · exact ih hrest (by omega) b hb

theorem sum_eq_length_iff {α : Type*} {f : α → Nat} {l : List α} (hle : ∀ a ∈ l, f a ≤ 1) :
    (l.map f).sum = l.length ↔ ∀ a ∈ l, f a = 1 := by
  refine ⟨eq_one_of_sum_eq_length hle, fun hone => ?_⟩
  rw [List.map_congr_left hone]
  simp

end SideTable
