import Mathlib.Algebra.Group.Nat.Defs
import Mathlib.Algebra.Group.Pi.Basic
import Mathlib.Algebra.GroupWithZero.Nat
import Mathlib.Order.Basic

/-!
# Transfers of references

A call of `EStateM` works on counted objects. `Books` says what it means for the counts to be `r`, what
may be true when a call stops, and below which counts nothing goes. `Spec B P inp x out Q` says that
`x`, started where `P` holds, turns the references `inp` into `out a` and ends where `Q a` holds, `a`
being what it returns, whatever other references there are: the frame is part of the definition.
`Moves` is the same without `P` and `Q`. The rules follow the structure of a call, and each names the
references that a first call takes and gives.
-/

namespace Linux011.Lib

variable {ε σ ι α β : Type}

structure Books (ε σ ι : Type) where
  inv : (ι → Nat) → σ → Prop
  stop : ε → σ → Prop
  floor : ι → Nat

def Spec (B : Books ε σ ι) (P : σ → Prop) (inp : ι → Nat) (x : EStateM ε σ α) (out : α → ι → Nat)
    (Q : α → σ → Prop) : Prop :=
  ∀ r, B.floor ≤ r → ∀ s, P s → B.inv (r + inp) s →
    match x s with
    | .ok a s' => Q a s' ∧ B.inv (r + out a) s'
    | .error e s' => B.stop e s'

/-- `x` turns the references `inp` into `out a`. -/
def Moves (B : Books ε σ ι) (inp : ι → Nat) (x : EStateM ε σ α) (out : α → ι → Nat) : Prop :=
  Spec B (fun _ => True) inp x out fun _ _ => True

/-- `x` started in `s` returns where `Q` holds, or stops where `stop` does. -/
def Ends (stop : ε → σ → Prop) (x : EStateM ε σ α) (s : σ) (Q : α → σ → Prop) : Prop :=
  match x s with
  | .ok a s' => Q a s'
  | .error e s' => stop e s'

/-- One reference to `i`. -/
def ref [DecidableEq ι] (i : ι) : ι → Nat := Pi.single i 1

variable {B : Books ε σ ι} {P : σ → Prop} {inp mid fr rest : ι → Nat} {x : EStateM ε σ α}
  {f : α → EStateM ε σ β} {out : β → ι → Nat} {out' : α → ι → Nat} {Q : α → σ → Prop}
  {R : β → σ → Prop}

namespace Spec

theorem ret {a : α} (hQ : ∀ s, P s → Q a s) (h : out' a = inp) : Spec B P inp (pure a) out' Q := by
  intro r _ s hP hs
  refine ⟨hQ s hP, ?_⟩
  rw [h]
  exact hs

theorem stop {e : ε} (h : ∀ r s, P s → B.inv r s → B.stop e s) : Spec B P inp (throw e) out' Q :=
  fun _ _ s hP hs => h _ s hP hs

theorem bind {mid : α → ι → Nat} (hx : Spec B P inp x mid Q)
    (hf : ∀ a, Spec B (Q a) (mid a) (f a) out R) : Spec B P inp (x >>= f) out R := by
  intro r hr s hP hs
  have hx := hx r hr s hP hs
  show match EStateM.bind x f s with
    | .ok b s' => R b s' ∧ B.inv (r + out b) s'
    | .error e s' => B.stop e s'
  unfold EStateM.bind
  revert hx
  cases x s with
  | ok a s' => exact fun hx => hf a r hr s' hx.1 hx.2
  | error e s' => exact id

/-- Other references pass through a call untouched. -/
theorem frame (fr : ι → Nat) (h : Spec B P inp x out' Q) :
    Spec B P (inp + fr) x (fun a => out' a + fr) Q := by
  intro r hr s hP hs
  have hassoc : ∀ q : ι → Nat, r + (q + fr) = (r + fr) + q :=
    fun q => by rw [add_comm q fr, add_assoc]
  have hx := h (r + fr) (fun i => Nat.le_trans (hr i) (Nat.le_add_right _ _)) s hP
    (by rw [← hassoc]; exact hs)
  revert hx
  cases x s with
  | ok a s' => exact fun hx => by simpa only [hassoc] using hx
  | error e s' => exact id

/-- The first call takes nothing and gives nothing. -/
theorem skip (hx : Spec B P 0 x (fun _ => 0) Q) (hf : ∀ a, Spec B (Q a) inp (f a) out R) :
    Spec B P inp (x >>= f) out R := by
  have hx := hx.frame inp
  simp only [zero_add] at hx
  exact hx.bind hf

/-- The first call reads `g` off the state. -/
theorem known {g : σ → α} (hx : ∀ s, x s = .ok (g s) s)
    (hf : ∀ a, Spec B (fun s => P s ∧ g s = a) inp (f a) out R) : Spec B P inp (x >>= f) out R := by
  have hread : Spec B P inp x (fun _ => inp) fun a s => P s ∧ g s = a := by
    intro r _ s hP hs
    rw [hx]
    exact ⟨⟨hP, rfl⟩, hs⟩
  exact hread.bind hf

theorem change {g : σ → σ} {Q : Unit → σ → Prop} {out : Unit → ι → Nat}
    (h : ∀ r s, B.floor ≤ r → P s → B.inv (r + inp) s → Q () (g s) ∧ B.inv (r + out ()) (g s)) :
    Spec B P inp (modify g) out Q :=
  fun r hr s hP hs => h r s hr hP hs

theorem conseq {P' : σ → Prop} {Q' : α → σ → Prop} (h : Spec B P inp x out' Q)
    (hP : ∀ s, P' s → P s) (hQ : ∀ a s, Q a s → Q' a s) : Spec B P' inp x out' Q' := by
  intro r hr s hP' hs
  have hx := h r hr s (hP s hP') hs
  revert hx
  cases x s with
  | ok a s' => exact fun hx => ⟨hQ a s' hx.1, hx.2⟩
  | error e s' => exact id

theorem ends {r : ι → Nat} {s : σ} (h : Spec B P inp x out' Q) (hr : B.floor ≤ r) (hP : P s)
    (hs : B.inv (r + inp) s) : Ends B.stop x s fun a s' => Q a s' ∧ B.inv (r + out' a) s' :=
  h r hr s hP hs

/-- What the state says, whatever it is. -/
theorem fact {p : Prop} (hp : ∀ s, P s → p) (h : p → Spec B P inp x out' Q) : Spec B P inp x out' Q :=
  fun r hr s hP hs => h (hp s hP) r hr s hP hs

/-- A place that the call does not reach. -/
theorem absurd (h : ∀ r s, P s → B.inv (r + inp) s → False) : Spec B P inp x out' Q :=
  fun r _ s hP hs => (h r s hP hs).elim

end Spec

namespace Moves

theorem of_spec (h : Spec B (fun _ => True) inp x out' Q) : Moves B inp x out' :=
  h.conseq (fun _ => id) fun _ _ _ => trivial

theorem spec (h : Moves B inp x out') : Spec B P inp x out' fun _ _ => True :=
  h.conseq (fun _ _ => trivial) fun _ _ => id

theorem ret {a : α} (h : out' a = inp) : Moves B inp (pure a) out' :=
  Spec.ret (fun _ => id) h

theorem stop {e : ε} (h : ∀ r s, B.inv r s → B.stop e s) : Moves B inp (throw e) out' :=
  Spec.stop fun r s _ => h r s

theorem bind {mid : α → ι → Nat} (hx : Moves B inp x mid) (hf : ∀ a, Moves B (mid a) (f a) out) :
    Moves B inp (x >>= f) out :=
  Spec.bind hx hf

/-- The first call exchanges some of the references there are. -/
theorem swap {mid' : α → ι → Nat} (hx : Moves B mid x mid') (hinp : mid + rest = inp)
    (hf : ∀ a, Moves B (mid' a + rest) (f a) out) : Moves B inp (x >>= f) out := by
  have hx := Spec.frame rest hx
  rw [hinp] at hx
  exact hx.bind hf

/-- The first call takes nothing and gives nothing. -/
theorem skip (hx : Moves B 0 x fun _ => 0) (hf : ∀ a, Moves B inp (f a) out) :
    Moves B inp (x >>= f) out :=
  hx.swap (zero_add inp) fun a => by rw [zero_add]; exact hf a

/-- The first call gives the references `mid a`. -/
theorem take {mid : α → ι → Nat} (hx : Moves B 0 x mid)
    (hf : ∀ a, Moves B (mid a + inp) (f a) out) : Moves B inp (x >>= f) out :=
  hx.swap (zero_add inp) hf

/-- The first call takes some of the references there are. -/
theorem give (hx : Moves B mid x fun _ => 0) (rest : ι → Nat) (hinp : mid + rest = inp)
    (hf : ∀ a, Moves B rest (f a) out) : Moves B inp (x >>= f) out :=
  hx.swap hinp fun a => by rw [zero_add]; exact hf a

theorem cast {inp' : ι → Nat} {out'' : α → ι → Nat} (h : Moves B inp x out') (hinp : inp = inp')
    (hout : ∀ a, out' a = out'' a) : Moves B inp' x out'' := by
  have hfun : out' = out'' := funext hout
  exact hinp ▸ hfun ▸ h

/-- The first call only reads the state. -/
theorem read {g : σ → α} (hx : ∀ s, x s = .ok (g s) s) (hf : ∀ a, Moves B inp (f a) out) :
    Moves B inp (x >>= f) out :=
  Spec.known hx fun a => (hf a).spec

/-- A change of the state that the books do not notice. -/
theorem keep {g : σ → σ} (h : ∀ r s, B.inv r s → B.inv r (g s)) :
    Moves B 0 (modify g) fun _ => (0 : ι → Nat) :=
  Spec.change fun r s _ _ hs => ⟨trivial, h (r + 0) s hs⟩

theorem forM {cs : List α} {f : α → EStateM ε σ Unit}
    (h : ∀ c ∈ cs, Moves B 0 (f c) fun _ => 0) : Moves B 0 (cs.forM f) fun _ => 0 := by
  induction cs with
  | nil => exact ret rfl
  | cons c cs ih =>
    exact (h c List.mem_cons_self).skip fun _ => ih fun c' hc' => h c' (List.mem_cons_of_mem c hc')

theorem ends {r : ι → Nat} {s : σ} (h : Moves B inp x out') (hr : B.floor ≤ r)
    (hs : B.inv (r + inp) s) : Ends B.stop x s fun a s' => B.inv (r + out' a) s' := by
  have hx := Spec.ends h hr trivial hs
  unfold Ends at hx ⊢
  cases hx' : x s with
  | ok a s' =>
    rw [hx'] at hx
    exact hx.2
  | error e s' =>
    rw [hx'] at hx
    exact hx

end Moves

/-! ## Calls from one state -/

theorem bind_eq_ok {s s'' : σ} {b : β} (h : (x >>= f) s = .ok b s'') :
    ∃ a s', x s = .ok a s' ∧ f a s' = .ok b s'' := by
  change EStateM.bind x f s = .ok b s'' at h
  unfold EStateM.bind at h
  cases hx : x s with
  | ok a s' =>
    rw [hx] at h
    exact ⟨a, s', rfl, h⟩
  | error e s' =>
    rw [hx] at h
    cases h

namespace Ends

variable {stop : ε → σ → Prop} {s : σ}

theorem bind (hx : Ends stop x s Q) (hf : ∀ a s', Q a s' → Ends stop (f a) s' R) :
    Ends stop (x >>= f) s R := by
  show match EStateM.bind x f s with
    | .ok b s' => R b s'
    | .error e s' => stop e s'
  unfold Ends at hx
  unfold EStateM.bind
  cases hxs : x s with
  | ok a s' =>
    rw [hxs] at hx
    exact hf a s' hx
  | error e s' =>
    rw [hxs] at hx
    exact hx

theorem mono {Q' : α → σ → Prop} (hx : Ends stop x s Q) (h : ∀ a s', Q a s' → Q' a s') :
    Ends stop x s Q' := by
  unfold Ends at hx ⊢
  cases hxs : x s with
  | ok a s' =>
    rw [hxs] at hx
    exact h a s' hx
  | error e s' =>
    rw [hxs] at hx
    exact hx

/-- What is known of a call that returned. -/
theorem of_ok {Q' : α → σ → Prop} (hx : Ends stop x s Q) (h : ∀ a s', x s = .ok a s' → Q' a s') :
    Ends stop x s fun a s' => Q a s' ∧ Q' a s' := by
  unfold Ends at hx ⊢
  cases hxs : x s with
  | ok a s' =>
    rw [hxs] at hx
    exact ⟨hx, h a s' hxs⟩
  | error e s' =>
    rw [hxs] at hx
    exact hx

theorem ret {a : α} (h : Q a s) : Ends stop (pure a) s Q := h

end Ends

end Linux011.Lib
