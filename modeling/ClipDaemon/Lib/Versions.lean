import Mathlib.Data.List.Nodup
import Mathlib.Order.Nat

/-!
# Version stamps

A *snapshot* is a clock and a list of items, each stamped with the clock value of its
last change.  `Advances s t` says what a step may do: the clock does not go back, and an
item of `t` that is not stamped later than the clock of `s` was an item of `s`.  So an
item changes only by taking a stamp that was never given before, and an item that is gone
does not come back (`Advances.eq_of_stamp`).

`Sealed` is the coarser guarantee of one clock for a whole view: when the clock is the
same at both ends, so is the view.

Both relations are reflexive and transitive, so it is enough to prove them for steps.

A memo table keeps values that were computed from items, under the key and the stamp of the
item.  `Fresh` says that what it holds for a present item is the value of that item; it
stays so while items advance, entries are dropped and values of present items are added.
-/

namespace Versions

variable {ι κ σ ν α : Type*}

/-- A clock and stamped items. -/
structure Snapshot (ι : Type*) where
  clock : Nat
  items : List ι

/-- An item of `t` that is not newer than the clock of `s` is an item of `s`. -/
structure Advances (stamp : ι → Nat) (s t : Snapshot ι) : Prop where
  clock_le : s.clock ≤ t.clock
  old : ∀ i ∈ t.items, stamp i ≤ s.clock → i ∈ s.items

variable {stamp : ι → Nat} {s t u : Snapshot ι}

theorem Advances.refl (stamp : ι → Nat) (s : Snapshot ι) : Advances stamp s s :=
  ⟨le_rfl, fun _ hi _ => hi⟩

theorem Advances.trans (h : Advances stamp s t) (h' : Advances stamp t u) : Advances stamp s u where
  clock_le := h.clock_le.trans h'.clock_le
  old i hi hle := h.old i (h'.old i hi (hle.trans h.clock_le)) hle

/-- Two items with one key and one stamp are the same item, at any distance. -/
theorem Advances.eq_of_stamp {key : ι → κ} (h : Advances stamp s t)
    (hvalid : ∀ i ∈ s.items, stamp i ≤ s.clock) (hkeys : (s.items.map key).Nodup) {i j : ι}
    (hi : i ∈ s.items) (hj : j ∈ t.items) (hkey : key i = key j) (hstamp : stamp i = stamp j) :
    i = j := by
  have hj' : j ∈ s.items := h.old j hj (hstamp ▸ hvalid i hi)
  exact List.inj_on_of_nodup_map hkeys hi hj' hkey

/-- One clock for a whole view. -/
structure Sealed (clock : σ → Nat) (view : σ → ν) (a b : σ) : Prop where
  clock_le : clock a ≤ clock b
  view_eq : clock a = clock b → view a = view b

theorem Sealed.refl (clock : σ → Nat) (view : σ → ν) (a : σ) : Sealed clock view a a :=
  ⟨le_rfl, fun _ => rfl⟩

theorem Sealed.trans {clock : σ → Nat} {view : σ → ν} {a b c : σ} (h : Sealed clock view a b)
    (h' : Sealed clock view b c) : Sealed clock view a c where
  clock_le := h.clock_le.trans h'.clock_le
  view_eq hac := by
    have hab : clock a = clock b := le_antisymm h.clock_le (hac ▸ h'.clock_le)
    exact (h.view_eq hab).trans (h'.view_eq (hab ▸ hac))

/-! ## Fresh stamps -/

/-- Stamping the rows of one key with the next clock value keeps the stamps distinct. -/
theorem nodup_map_stamp {key : ι → κ} {f : ι → Nat} {rows : List ι}
    (hkeys : (rows.map key).Nodup) (hf : (rows.map f).Nodup) {n : Nat}
    (hle : ∀ r ∈ rows, f r ≤ n) {p : ι → Bool} {k : κ} (hp : ∀ r ∈ rows, p r = true → key r = k) :
    (rows.map fun r => if p r then n + 1 else f r).Nodup := by
  refine List.Nodup.map_on (fun x hx y hy hxy => ?_) hkeys.of_map
  have hxn := hle x hx
  have hyn := hle y hy
  cases hpx : p x <;> cases hpy :
    p y <;> simp only [hpx, hpy, if_true, Bool.false_eq_true, if_false] at hxy
  · exact List.inj_on_of_nodup_map hf hx hy hxy
  · omega
  · omega
  · exact List.inj_on_of_nodup_map hkeys hx hy ((hp x hx hpx).trans (hp y hy hpy).symm)

/-- A row with the next clock value keeps the stamps distinct. -/
theorem nodup_append_stamp {stamps : List Nat} (h : stamps.Nodup) {n : Nat}
    (hle : ∀ m ∈ stamps, m ≤ n) : (stamps ++ [n + 1]).Nodup := by
  rw [List.nodup_append]
  refine ⟨h, List.nodup_singleton _, fun m hm k hk hmk => ?_⟩
  have := hle m hm
  rw [List.mem_singleton] at hk
  omega

/-! ## Memo tables -/

/-- `held k n a v` says that the table holds `v` for the key `k`, the stamp `n` and the
argument `a`; `value i a v` says that `v` is what the item `i` gives now. -/
structure Fresh (key : ι → κ) (stamp : ι → Nat) (value : ι → α → ν → Prop) (s : Snapshot ι)
    (held : κ → Nat → α → ν → Prop) : Prop where
  stamp_le : ∀ k n a v, held k n a v → n ≤ s.clock
  agrees : ∀ i ∈ s.items, ∀ a v, held (key i) (stamp i) a v → value i a v

section Memo

variable {key : ι → κ} {value value' : ι → α → ν → Prop} {held held' : κ → Nat → α → ν → Prop}

/-- Values are dropped from the table. -/
theorem Fresh.drop (h : Fresh key stamp value s held)
    (hsub : ∀ k n a v, held' k n a v → held k n a v) : Fresh key stamp value s held' where
  stamp_le k n a v hv := h.stamp_le k n a v (hsub k n a v hv)
  agrees i hi a v hv := h.agrees i hi a v (hsub _ _ a v hv)

/-- No value is held for an item with a new stamp. -/
theorem Fresh.advance (h : Fresh key stamp value s held) (hst : Advances stamp s t) :
    Fresh key stamp value t held where
  stamp_le k n a v hv := (h.stamp_le k n a v hv).trans hst.clock_le
  agrees i hi a v hv := h.agrees i (hst.old i hi (h.stamp_le _ _ a v hv)) a v hv

/-- What the items give changes where nothing is held. -/
theorem Fresh.revalue (h : Fresh key stamp value s held)
    (hvalue : ∀ i ∈ s.items, (∃ a v, held (key i) (stamp i) a v) → ∀ a v, value i a v →
      value' i a v) :
    Fresh key stamp value' s held where
  stamp_le := h.stamp_le
  agrees i hi a v hv := hvalue i hi ⟨a, v, hv⟩ a v (h.agrees i hi a v hv)

/-- The value of a present item is added. -/
theorem Fresh.add (h : Fresh key stamp value s held) (hkeys : (s.items.map key).Nodup) {i : ι}
    (hi : i ∈ s.items) (hle : stamp i ≤ s.clock) {b : α}
    (hadd : ∀ k n a v, held' k n a v →
      held k n a v ∨ k = key i ∧ n = stamp i ∧ a = b ∧ value i b v) :
    Fresh key stamp value s held' where
  stamp_le k n a v hv := by
    rcases hadd k n a v hv with hv | ⟨-, rfl, -, -⟩
    · exact h.stamp_le k n a v hv
    · exact hle
  agrees j hj a v hv := by
    rcases hadd _ _ a v hv with hv | ⟨hkey, -, rfl, hvalue⟩
    · exact h.agrees j hj a v hv
    · obtain rfl := List.inj_on_of_nodup_map hkeys hj hi hkey
      exact hvalue

end Memo

end Versions
