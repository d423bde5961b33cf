import Mathlib.Data.List.Basic

/-!
# Terminated strings

A string in memory ends with a terminator, and a pointer into it is the number of the characters before it.
Nothing is read behind the terminator. `walk` goes on as long as `step` takes the character that it reads;
`walkList` does the same to the characters themselves.
-/

namespace Linux011.Lib

variable {α β : Type _} {nul : α}

structure Terminated (nul : α) where
  chars : List α
  notMem : nul ∉ chars

/-- The characters that `step` takes, one after the other. -/
def walkList (step : β → α → Option β) : List α → β → β × List α
  | [], b => (b, [])
  | a :: l, b =>
    match step b a with
    | some b => walkList step l b
    | none => (b, a :: l)

theorem walkList_length_le (step : β → α → Option β) (l : List α) (b : β) :
    (walkList step l b).2.length ≤ l.length := by
  induction l generalizing b with
  | nil => exact Nat.le_refl _
  | cons a l ih =>
    unfold walkList
    split
    · exact Nat.le_succ_of_le (ih _)
    · exact Nat.le_refl _

namespace Terminated

def read (s : Terminated nul) (p : Nat) : Option α := (s.chars ++ [nul])[p]?

/-- The pointer `p` stands before `l`. -/
def Rest (s : Terminated nul) (p : Nat) (l : List α) : Prop := ∃ before, s.chars = before ++ l ∧ before.length = p

def walk (s : Terminated nul) (step : β → α → Option β) : (fuel p : Nat) → β → Option (β × Nat)
  | 0, _, _ => none
  | fuel + 1, p, b =>
    (s.read p).bind fun a =>
      match step b a with
      | some b => walk s step fuel (p + 1) b
      | none => some (b, p)

variable {s : Terminated nul} {p : Nat} {a : α} {l : List α}

theorem rest_zero : s.Rest 0 s.chars := ⟨[], rfl, rfl⟩

namespace Rest

theorem length (h : s.Rest p l) : p + l.length = s.chars.length := by
  obtain ⟨before, hchars, rfl⟩ := h
  rw [hchars, List.length_append]

theorem read_nil (h : s.Rest p []) : s.read p = some nul := by
  obtain ⟨before, hchars, rfl⟩ := h
  unfold read
  rw [hchars, List.append_nil]
  exact List.getElem?_concat_length

theorem read_cons (h : s.Rest p (a :: l)) : s.read p = some a := by
  obtain ⟨before, hchars, rfl⟩ := h
  unfold read
  rw [hchars, List.append_assoc, List.getElem?_append_right (Nat.le_refl _), Nat.sub_self]
  rfl

theorem ne (h : s.Rest p (a :: l)) : a ≠ nul := by
  obtain ⟨before, hchars, -⟩ := h
  rintro rfl
  apply s.notMem
  rw [hchars]
  exact List.mem_append_right _ List.mem_cons_self

theorem next (h : s.Rest p (a :: l)) : s.Rest (p + 1) l := by
  obtain ⟨before, hchars, rfl⟩ := h
  refine ⟨before ++ [a], ?_, ?_⟩
  · rw [hchars, List.append_assoc]
    rfl
  · rw [List.length_append, List.length_singleton]

/-- A walk that stops at the terminator stays in the string. -/
theorem walk {step : β → α → Option β} (hstep : ∀ b, step b nul = none) (h : s.Rest p l) {fuel : Nat}
    (hfuel : l.length < fuel) (b : β) :
    ∃ q, s.walk step fuel p b = some ((walkList step l b).1, q) ∧ s.Rest q (walkList step l b).2 := by
  induction l generalizing p fuel b with
  | nil =>
    -- `step` does not take the terminator
    obtain ⟨fuel, rfl⟩ := Nat.exists_eq_add_one.mpr hfuel
    refine ⟨p, ?_, h⟩
    simp only [Terminated.walk, h.read_nil, Option.bind_some, hstep]
    rfl
  | cons a l ih =>
    obtain ⟨fuel, rfl⟩ : ∃ k, fuel = k + 1 := Nat.exists_eq_add_one.mpr (Nat.zero_lt_of_lt hfuel)
    unfold walkList Terminated.walk
    rw [h.read_cons, Option.bind_some]
    cases hnext : step b a with
    | none => exact ⟨p, rfl, h⟩
    | some b' => exact ih h.next (Nat.lt_of_succ_lt_succ hfuel) b'

end Rest

end Terminated

end Linux011.Lib
