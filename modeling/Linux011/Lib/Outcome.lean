import Mathlib.Logic.Basic

/-!
# Outcomes of calls that can stop

A call either returns a value or stops early with a reason. `Post x P Q` says that a returned value
satisfies `P` and a reason for stopping satisfies `Q`; with `Q := fun _ => False` it says that the
call returns. The rules below follow the structure of a call: sequencing, loops over a list, and
weakening.
-/

namespace Linux011.Lib

variable {ε α β : Type _}

/-- `x` returns something in `P`, or stops for a reason in `Q`. -/
structure Post (x : Except ε α) (P : α → Prop) (Q : ε → Prop) : Prop where
  of_ok : ∀ a, x = .ok a → P a
  of_error : ∀ e, x = .error e → Q e

namespace Post

variable {P P' : α → Prop} {R : β → Prop} {Q Q' : ε → Prop}

/-- A call that has returned. -/
theorem ret {a : α} (h : P a) : Post (Except.ok a : Except ε α) P Q := by
  refine ⟨?_, ?_⟩
  · rintro b ⟨⟩
    exact h
  · rintro e ⟨⟩

/-- A call that has stopped. -/
theorem stop {e : ε} (h : Q e) : Post (Except.error e : Except ε α) P Q := by
  refine ⟨?_, ?_⟩
  · rintro b ⟨⟩
  · rintro e' ⟨⟩
    exact h

@[simp] theorem ok_iff {a : α} : Post (Except.ok a : Except ε α) P Q ↔ P a :=
  ⟨fun h => h.of_ok a rfl, ret⟩

@[simp] theorem pure_iff {a : α} : Post (pure a : Except ε α) P Q ↔ P a := ok_iff

@[simp] theorem error_iff {e : ε} : Post (Except.error e : Except ε α) P Q ↔ Q e :=
  ⟨fun h => h.of_error e rfl, stop⟩

instance {x : Except ε α} [DecidablePred P] : Decidable (Post x P fun _ => False) :=
  match x with
  | .ok _ => decidable_of_iff _ ok_iff.symm
  | .error _ => isFalse fun h => h.of_error _ rfl

theorem mono {x : Except ε α} (h : Post x P Q) (hP : ∀ a, P a → P' a) (hQ : ∀ e, Q e → Q' e) :
    Post x P' Q' :=
  ⟨fun a ha => hP a (h.of_ok a ha), fun e he => hQ e (h.of_error e he)⟩

/-- A call that never stops: only what it returns is left to weaken. -/
theorem imp {x : Except ε α} (h : Post x P Q) (hP : ∀ a, P a → P' a) : Post x P' Q :=
  h.mono hP fun _ hQ => hQ

/-- A call that never stops returns. -/
theorem returns {x : Except ε α} (h : Post x P fun _ => False) : ∃ a, x = .ok a ∧ P a := by
  cases x with
  | ok a => exact ⟨a, rfl, h.of_ok a rfl⟩
  | error e => exact (h.of_error e rfl).elim

/-- What a call does is what it does. -/
theorem self (x : Except ε α) : Post x (fun a => x = .ok a) (fun e => x = .error e) :=
  ⟨fun _ h => h, fun _ h => h⟩

/-- Any call at all. -/
theorem any (x : Except ε α) : Post x (fun _ => True) (fun _ => True) :=
  ⟨fun _ _ => trivial, fun _ _ => trivial⟩

/-- Two results about one call. -/
theorem and {x : Except ε α} (h : Post x P Q) (h' : Post x P' Q') :
    Post x (fun a => P a ∧ P' a) (fun e => Q e ∧ Q' e) :=
  ⟨fun a ha => ⟨h.of_ok a ha, h'.of_ok a ha⟩, fun e he => ⟨h.of_error e he, h'.of_error e he⟩⟩

/-- Sequencing: what the first call establishes is what the second one starts from. -/
theorem bind {x : Except ε α} {f : α → Except ε β} (hx : Post x P Q)
    (hf : ∀ a, P a → Post (f a) R Q) : Post (x >>= f) R Q := by
  cases x with
  | ok a => exact hf a (hx.of_ok a rfl)
  | error e => exact stop (hx.of_error e rfl)

/-- A loop over a list keeps an invariant that may speak about the elements still to come. -/
theorem foldlM {γ : Type _} {f : α → γ → Except ε α} {I : List γ → α → Prop}
    (hstep : ∀ c cs a, I (c :: cs) a → Post (f a c) (I cs) Q) :
    ∀ (cs : List γ) (a : α), I cs a → Post (cs.foldlM f a) (I []) Q
  | [], _, h => ret h
  | c :: cs, a, h => by
    rw [List.foldlM_cons]
    exact bind (hstep c cs a h) fun a' h' => foldlM hstep cs a' h'

/-- A loop over the numbers below `n` keeps an invariant that may speak about how far it has come. -/
theorem foldlM_range {f : α → Nat → Except ε α} {I : Nat → α → Prop} (n : Nat)
    (hstep : ∀ k < n, ∀ a, I k a → Post (f a k) (I (k + 1)) Q) {a : α} (h : I 0 a) :
    Post ((List.range n).foldlM f a) (I n) Q := by
  induction n with
  | zero => exact ret h
  | succ n ih =>
    rw [List.range_succ, List.foldlM_append]
    refine bind (ih fun k hk => hstep k (Nat.lt_succ_of_lt hk)) fun a' h' => ?_
    rw [List.foldlM_cons]
    exact bind (hstep n (Nat.lt_succ_self n) a' h') fun a'' h'' => ret h''

end Post

/-- A sequence that has returned. -/
theorem ok_of_bind {x : Except ε α} {f : α → Except ε β} {b : β} (h : (x >>= f) = .ok b) :
    ∃ a, x = .ok a ∧ f a = .ok b := by
  cases x with
  | ok a => exact ⟨a, rfl, h⟩
  | error e => cases h

theorem map_eq_ok {x : Except ε α} {f : α → β} {b : β} :
    x.map f = .ok b ↔ ∃ a, x = .ok a ∧ f a = b := by
  cases x <;> simp [Except.map]

/-- The last step of a run whose steps can stop. -/
theorem foldlM_snoc_ok {γ : Type _} {f : α → γ → Except ε α} {cs : List γ} {c : γ} {a b : α} :
    (cs ++ [c]).foldlM f a = .ok b ↔ ∃ a', cs.foldlM f a = .ok a' ∧ f a' c = .ok b := by
  rw [List.foldlM_append]
  show (cs.foldlM f a >>= fun a' => f a' c >>= fun x => pure x) = .ok b ↔ _
  cases cs.foldlM f a with
  | error e => exact ⟨fun h => (by cases h), fun ⟨_, h, _⟩ => (by cases h)⟩
  | ok a' =>
    show (f a' c >>= fun x => pure x) = .ok b ↔ _
    rw [bind_pure]
    exact ⟨fun h => ⟨a', rfl, h⟩, fun ⟨_, h, h'⟩ => by cases h; exact h'⟩

/-- The same loop rule for a loop that cannot stop. -/
theorem foldl_invariant {α γ : Type _} {f : α → γ → α} {I : List γ → α → Prop}
    (hstep : ∀ c cs a, I (c :: cs) a → I cs (f a c)) :
    ∀ (cs : List γ) (a : α), I cs a → I [] (cs.foldl f a)
  | [], _, h => h
  | c :: cs, a, h => foldl_invariant hstep cs (f a c) (hstep c cs a h)

end Linux011.Lib
