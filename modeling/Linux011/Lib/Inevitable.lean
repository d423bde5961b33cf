import Mathlib.Data.Nat.Notation
import Mathlib.Tactic.ByContra
import Linux011.Lib.Run

/-!
# What a run comes to

`Inevitable step Q s` says that a system that goes on from `s` comes to a state where `Q` holds, whichever
steps it takes. A measure that goes down proves it; a loop that it can stay in refutes it.
-/

namespace Linux011.Lib

variable {σ : Type _} {step : σ → σ → Prop} {Q : σ → Prop}

inductive Inevitable (step : σ → σ → Prop) (Q : σ → Prop) : σ → Prop
  | done {s : σ} (h : Q s) : Inevitable step Q s
  | later {s : σ} (hmove : ∃ s', step s s') (h : ∀ s', step s s' → Inevitable step Q s') :
      Inevitable step Q s

namespace Inevitable

/-- Where `P` holds and `Q` does not, there is a step, and each step leads to `Q`, or again to `P` with
something less. -/
theorem of_measure {P : σ → Prop} {m : σ → ℕ} (hmove : ∀ s, P s → ¬ Q s → ∃ s', step s s')
    (hless : ∀ s s', P s → ¬ Q s → step s s' → Q s' ∨ P s' ∧ m s' < m s) {s : σ} (h : P s) :
    Inevitable step Q s := by
  induction hn : m s using Nat.strongRecOn generalizing s with
  | _ n ih =>
    by_cases hQ : Q s
    · exact .done hQ
    · refine .later (hmove s h hQ) fun s' hs' => ?_
      rcases hless s s' h hQ hs' with hdone | ⟨h', hlt⟩
      · exact .done hdone
      · exact ih (m s') (hn ▸ hlt) h' rfl

theorem mono {R : σ → Prop} (himp : ∀ s, Q s → R s) {s : σ} (h : Inevitable step Q s) : Inevitable step R s := by
  induction h with
  | done hQ => exact .done (himp _ hQ)
  | later hmove _ ih => exact .later hmove ih

/-- A set of states outside `Q` that the system can stay in. -/
theorem not_of_loop {K : σ → Prop} (hK : ∀ s, K s → ¬ Q s ∧ ∃ s', step s s' ∧ K s') {s : σ} (h : K s) :
    ¬ Inevitable step Q s := by
  intro hend
  induction hend with
  | done hQ => exact (hK _ h).1 hQ
  | later _ _ ih =>
    obtain ⟨s', hs', h'⟩ := (hK _ h).2
    exact ih s' hs' h'

end Inevitable

end Linux011.Lib
