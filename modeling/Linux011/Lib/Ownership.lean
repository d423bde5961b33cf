import Mathlib.Logic.Function.Basic

/-!
# Exclusive ownership

Slots `r : ρ` may refer to objects `z : κ`, and some objects are marked as used. `Owns tight R used`
says that a slot's object is used and no other slot's, and, when `tight` holds, that no object is used
without a slot that refers to it. Objects are given to slots and taken from them one at a time.
-/

namespace Linux011.Lib

variable {ρ κ : Type _} {tight : Prop} {R R' : ρ → κ → Prop} {used used' : κ → Prop} {r₀ : ρ} {z₀ : κ}

structure Owns (tight : Prop) (R : ρ → κ → Prop) (used : κ → Prop) : Prop where
  inj : ∀ r r' z, R r z → R r' z → r = r'
  used_of_ref : ∀ r z, R r z → used z
  owner : tight → ∀ z, used z → ∃ r, R r z

namespace Owns

theorem congr (h : Owns tight R used) (hR : ∀ r z, R' r z ↔ R r z) (hused : ∀ z, used' z ↔ used z) :
    Owns tight R' used' := by
  have hR' : R' = R := funext fun r => funext fun z => propext (hR r z)
  have hused' : used' = used := funext fun z => propext (hused z)
  rw [hR', hused']
  exact h

/-- An unused object is given to a slot. -/
theorem give (h : Owns tight R used) (hfree : ¬ used z₀)
    (hR : ∀ r z, R' r z ↔ R r z ∨ r = r₀ ∧ z = z₀) (hused : ∀ z, used' z ↔ used z ∨ z = z₀) :
    Owns tight R' used' := by
  refine ⟨fun r r' z hr hr' => ?_, fun r z hr => ?_, fun ht z hz => ?_⟩
  · rcases (hR r z).mp hr with hold | ⟨rfl, rfl⟩ <;> rcases (hR r' z).mp hr' with hold' | ⟨rfl, heq⟩
    · exact h.inj r r' z hold hold'
    · exact absurd (heq ▸ h.used_of_ref r z hold) hfree
    · exact absurd (h.used_of_ref r' z hold') hfree
    · rfl
  · apply (hused z).mpr
    rcases (hR r z).mp hr with hold | ⟨-, heq⟩
    · exact Or.inl (h.used_of_ref r z hold)
    · exact Or.inr heq
  · rcases (hused z).mp hz with hold | rfl
    · obtain ⟨r, hr⟩ := h.owner ht z hold
      exact ⟨r, (hR r z).mpr (Or.inl hr)⟩
    · exact ⟨r₀, (hR r₀ z).mpr (Or.inr ⟨rfl, rfl⟩)⟩

/-- The object of a slot is taken away from it and is no longer used. -/
theorem take (h : Owns tight R used) (h₀ : R r₀ z₀) (hfun : ∀ z, R r₀ z → z = z₀)
    (hR : ∀ r z, R' r z ↔ R r z ∧ r ≠ r₀) (hused : ∀ z, used' z ↔ used z ∧ z ≠ z₀) :
    Owns tight R' used' := by
  refine ⟨fun r r' z hr hr' => ?_, fun r z hr => ?_, fun ht z hz => ?_⟩
  · exact h.inj r r' z ((hR r z).mp hr).1 ((hR r' z).mp hr').1
  · obtain ⟨hold, hne⟩ := (hR r z).mp hr
    refine (hused z).mpr ⟨h.used_of_ref r z hold, fun heq => hne ?_⟩
    exact h.inj r r₀ z hold (heq ▸ h₀)
  · obtain ⟨hold, hne⟩ := (hused z).mp hz
    obtain ⟨r, hr⟩ := h.owner ht z hold
    exact ⟨r, (hR r z).mpr ⟨hr, fun heq => hne (hfun z (heq ▸ hr))⟩⟩

/-- Slots give up their objects, which stay used. -/
theorem leak (h : Owns tight R used) (hR : ∀ r z, R' r z → R r z) : Owns False R' used :=
  ⟨fun r r' z hr hr' => h.inj r r' z (hR r z hr) (hR r' z hr'), fun r z hr => h.used_of_ref r z (hR r z hr),
    fun hf => hf.elim⟩

end Owns

end Linux011.Lib
