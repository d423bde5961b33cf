import Mathlib.Data.Finset.Card
import Mathlib.Logic.Function.Basic

/-!
# Counting references

Slots `i ∈ S` may each hold a reference to an object. `refs S r f` is how many of them refer to
`f`. Overwriting one slot moves at most one reference, and that single equation (`refs_update`) is
what every counting argument rests on.
-/

namespace Linux011.Lib

variable {ι φ : Type _} [DecidableEq ι] [DecidableEq φ]

/-- The number of slots of `S` that refer to `f`. -/
def refs (S : Finset ι) (r : ι → Option φ) (f : φ) : Nat :=
  (S.filter (fun i => r i = some f)).card

variable {S : Finset ι} {r r' : ι → Option φ} {i j : ι} {f g : φ} {v : Option φ}

omit [DecidableEq ι] in
theorem refs_congr (h : ∀ i ∈ S, (r i = some f ↔ r' i = some f)) : refs S r f = refs S r' f := by
  unfold refs
  congr 1
  exact Finset.filter_congr h

/-- Overwriting slot `i` takes its old reference away and adds its new one. -/
theorem refs_update (hi : i ∈ S) :
    refs S (Function.update r i v) f + (if r i = some f then 1 else 0)
      = refs S r f + (if v = some f then 1 else 0) := by
  have hsplit : ∀ q : ι → Option φ,
      refs S q f = refs (S.erase i) q f + (if q i = some f then 1 else 0) := by
    intro q
    unfold refs
    conv_lhs => rw [← Finset.insert_erase hi, Finset.filter_insert]
    split
    · rw [Finset.card_insert_of_notMem (by simp)]
    · rfl
  have hrest : refs (S.erase i) (Function.update r i v) f = refs (S.erase i) r f := by
    apply refs_congr
    intro j hj
    rw [Function.update_of_ne (Finset.ne_of_mem_erase hj)]
  rw [hsplit, hsplit r, hrest, Function.update_self]
  omega

omit [DecidableEq ι] in
theorem refs_pos_iff : 0 < refs S r f ↔ ∃ i ∈ S, r i = some f := by
  unfold refs
  rw [Finset.card_pos]
  constructor
  · rintro ⟨i, hi⟩
    exact ⟨i, (Finset.mem_filter.mp hi).1, (Finset.mem_filter.mp hi).2⟩
  · rintro ⟨i, hi, hr⟩
    exact ⟨i, Finset.mem_filter.mpr ⟨hi, hr⟩⟩

omit [DecidableEq ι] in
theorem refs_eq_zero_iff : refs S r f = 0 ↔ ∀ i ∈ S, r i ≠ some f := by
  have h := refs_pos_iff (S := S) (r := r) (f := f)
  constructor
  · intro h0 i hi hr
    have := h.mpr ⟨i, hi, hr⟩
    omega
  · intro hall
    by_contra hne
    obtain ⟨i, hi, hr⟩ := h.mp (Nat.pos_of_ne_zero hne)
    exact hall i hi hr

omit [DecidableEq ι] in
theorem two_le_refs_iff : 2 ≤ refs S r f ↔
    ∃ i ∈ S, ∃ j ∈ S, i ≠ j ∧ r i = some f ∧ r j = some f := by
  unfold refs
  rw [Nat.succ_le_iff, Finset.one_lt_card]
  constructor
  · rintro ⟨i, hi, j, hj, hne⟩
    rw [Finset.mem_filter] at hi hj
    exact ⟨i, hi.1, j, hj.1, hne, hi.2, hj.2⟩
  · rintro ⟨i, hi, j, hj, hne, hri, hrj⟩
    exact ⟨i, Finset.mem_filter.mpr ⟨hi, hri⟩, j, Finset.mem_filter.mpr ⟨hj, hrj⟩, hne⟩

omit [DecidableEq ι] in
/-- A single reference leaves no second slot. -/
theorem eq_of_refs_eq_one (h : refs S r f = 1) (hi : i ∈ S) (hj : j ∈ S)
    (hri : r i = some f) (hrj : r j = some f) : i = j := by
  by_contra hne
  have := two_le_refs_iff.mpr ⟨i, hi, j, hj, hne, hri, hrj⟩
  omega

omit [DecidableEq ι] in
/-- If the slots that refer to `f` are told apart by a label below `n`, there are at most `n`. -/
theorem refs_le_of_injOn (label : ι → Nat) {n : Nat}
    (hlt : ∀ i ∈ S, r i = some f → label i < n)
    (hinj : ∀ i ∈ S, ∀ j ∈ S, r i = some f → r j = some f → label i = label j → i = j) :
    refs S r f ≤ n := by
  unfold refs
  rw [← Finset.card_range n]
  apply Finset.card_le_card_of_injOn label
  · intro i hi
    have hi' := Finset.mem_filter.mp (Finset.mem_coe.mp hi)
    exact Finset.mem_coe.mpr (Finset.mem_range.mpr (hlt i hi'.1 hi'.2))
  · intro i hi j hj heq
    have hi' := Finset.mem_filter.mp (Finset.mem_coe.mp hi)
    have hj' := Finset.mem_filter.mp (Finset.mem_coe.mp hj)
    exact hinj i hi'.1 j hj'.1 hi'.2 hj'.2 heq

end Linux011.Lib
