import Mathlib.Data.Nat.Notation
import Linux011.Lib.Run

/-!
# What a run costs

Every step costs something and may bring something in. If a potential pays for what the steps cost beyond
what they bring in, the cost of a whole run is at most the potential at its start and what came in.
-/

namespace Linux011.Lib

variable {σ ε : Type _} {step : σ → ε → σ → Prop} {s s' : σ} {es : List ε} {I P : σ → Prop} {Q : ε → Prop}

def total (f : ε → ℕ) : List ε → ℕ
  | [] => 0
  | e :: es => f e + total f es

theorem total_snoc (f : ε → ℕ) (es : List ε) (e : ε) : total f (es ++ [e]) = total f es + f e := by
  induction es with
  | nil => exact Nat.add_comm (f e) 0
  | cons e' es ih =>
    show f e' + total f (es ++ [e]) = f e' + total f es + f e
    rw [ih, Nat.add_assoc]

/-- Steps that cost nothing. -/
theorem total_eq_zero {f : ε → ℕ} {es : List ε} (h : ∀ e ∈ es, f e = 0) : total f es = 0 := by
  induction es with
  | nil => rfl
  | cons e es ih =>
    obtain ⟨he, hes⟩ := List.forall_mem_cons.mp h
    show f e + total f es = 0
    rw [he, ih hes]

namespace Run

/-- `Run.inv` for steps that are known to be of some kind. -/
theorem inv_of (hstep : ∀ s e s', Q e → I s → step s e s' → I s') (hrun : Run step s es s')
    (hQ : ∀ e ∈ es, Q e) (h0 : I s) : I s' := by
  induction hrun with
  | nil => exact h0
  | snoc _ hst ih =>
    have hlast := hQ _ (List.mem_append_right _ (List.mem_singleton_self _))
    exact hstep _ _ _ hlast (ih fun e he => hQ e (List.mem_append_left _ he)) hst

/-- `Q` is what the steps have to be, and `P` holds before each of them. -/
theorem cost_le {Φ : σ → ℕ} {cost gain : ε → ℕ} (hbefore : ∀ s e s', Q e → step s e s' → P s)
    (hinv : ∀ s e s', Q e → I s → step s e s' → I s')
    (hpay : ∀ s e s', Q e → I s → P s' → step s e s' → cost e + Φ s' ≤ Φ s + gain e)
    (hrun : Run step s es s') (hQ : ∀ e ∈ es, Q e) (h0 : I s) (hend : P s') :
    total cost es + Φ s' ≤ Φ s + total gain es := by
  induction hrun with
  | nil => exact Nat.le_of_eq (Nat.add_comm _ _)
  | snoc hrun hst ih =>
    have hlast := hQ _ (List.mem_append_right _ (List.mem_singleton_self _))
    have hfirst := fun e he => hQ e (List.mem_append_left _ he)
    have hle := ih hfirst (hbefore _ _ _ hlast hst)
    have hstep := hpay _ _ _ hlast (hrun.inv_of hinv hfirst h0) hend hst
    rw [total_snoc, total_snoc]
    omega

end Run

end Linux011.Lib
