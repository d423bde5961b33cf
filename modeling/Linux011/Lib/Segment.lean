import Mathlib.Logic.Function.Iterate

/-!
# Shifting a segment

A row of cells is a function of their numbers. `pull` moves the cells of the segment from `lo` on and below `hi`
towards its start, `push` towards its end. What gets over the edge is lost, and the cells that become free are blank.
-/

namespace Linux011.Lib

variable {α : Type _} {lo hi m n : Nat} {blank : α} {f : Nat → α}

def pull (lo hi n : Nat) (blank : α) (f : Nat → α) (i : Nat) : α :=
  if lo ≤ i ∧ i < hi then if i + n < hi then f (i + n) else blank else f i

def push (lo hi n : Nat) (blank : α) (f : Nat → α) (i : Nat) : α :=
  if lo ≤ i ∧ i < hi then if lo + n ≤ i then f (i - n) else blank else f i

@[simp] theorem pull_zero : pull lo hi 0 blank f = f := by
  funext i
  grind [pull]

@[simp] theorem push_zero : push lo hi 0 blank f = f := by
  funext i
  grind [push]

theorem pull_pull : pull lo hi m blank (pull lo hi n blank f) = pull lo hi (m + n) blank f := by
  funext i
  grind [pull]

theorem push_push : push lo hi m blank (push lo hi n blank f) = push lo hi (m + n) blank f := by
  funext i
  grind [push]

theorem iterate_pull : (pull lo hi 1 blank)^[n] f = pull lo hi n blank f := by
  induction n with
  | zero => rw [Function.iterate_zero_apply, pull_zero]
  | succ n ih => rw [Function.iterate_succ_apply', ih, pull_pull, Nat.add_comm 1]

theorem iterate_push : (push lo hi 1 blank)^[n] f = push lo hi n blank f := by
  induction n with
  | zero => rw [Function.iterate_zero_apply, push_zero]
  | succ n ih => rw [Function.iterate_succ_apply', ih, push_push, Nat.add_comm 1]

/-- From some count on nothing of the segment is left. -/
theorem pull_of_le (hm : hi ≤ lo + m) (hn : hi ≤ lo + n) : pull lo hi m blank f = pull lo hi n blank f := by
  funext i
  grind [pull]

theorem push_of_le (hm : hi ≤ lo + m) (hn : hi ≤ lo + n) : push lo hi m blank f = push lo hi n blank f := by
  funext i
  grind [push]

/-- What is seen of a cell depends on what is seen of the cells below some number. -/
theorem pull_congr {β : Type _} (φ : α → β) {blank' : α} {g : Nat → α} {i : Nat} (hblank : φ blank = φ blank')
    (h : ∀ k < m, φ (f k) = φ (g k)) (hhi : hi ≤ m) (hi' : i < m) :
    φ (pull lo hi n blank f i) = φ (pull lo hi n blank' g i) := by
  unfold pull
  split
  · split
    · exact h _ (by omega)
    · exact hblank
  · exact h i hi'

theorem push_congr {β : Type _} (φ : α → β) {blank' : α} {g : Nat → α} {i : Nat} (hblank : φ blank = φ blank')
    (h : ∀ k < m, φ (f k) = φ (g k)) (hi' : i < m) :
    φ (push lo hi n blank f i) = φ (push lo hi n blank' g i) := by
  unfold push
  split
  · split
    · exact h _ (by omega)
    · exact hblank
  · exact h i hi'

end Linux011.Lib
