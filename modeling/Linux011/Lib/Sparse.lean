import Mathlib.Data.List.Basic
import Mathlib.Data.List.GetD

/-!
# Arrays that grow

An array has a size, and a cell for each number: the cells behind the end are what a later write uncovers. A write
stores a list from some cell on, and the array grows as far as it has to. A read stops at the end.
-/

namespace Linux011.Lib

@[ext] structure Sparse (α : Type _) where
  size : Nat
  cell : Nat → α

namespace Sparse

variable {α : Type _} {F : Sparse α} {start pos p : Nat} {l l₁ l₂ : List α}

def write (start : Nat) (l : List α) (F : Sparse α) : Sparse α where
  size := if l = [] then F.size else max F.size (start + l.length)
  cell p := if start ≤ p then l.getD (p - start) (F.cell p) else F.cell p

/-- The `count` cells from `pos` on. -/
def cells (F : Sparse α) (pos count : Nat) : List α := (List.range count).map fun i => F.cell (pos + i)

def read (F : Sparse α) (pos count : Nat) : List α := F.cells pos (min count (F.size - pos))

@[simp] theorem write_nil : F.write start [] = F := by
  ext p
  · simp [write]
  · simp [write]

/-- Only the cells that are stored change. -/
theorem write_cell_of_notMem (h : ¬ (start ≤ p ∧ p < start + l.length)) : (F.write start l).cell p = F.cell p := by
  show (if start ≤ p then l.getD (p - start) (F.cell p) else F.cell p) = F.cell p
  split
  · next hle =>
    rw [List.getD_eq_default]
    omega
  · rfl

/-- A write in two parts. -/
theorem write_append : F.write start (l₁ ++ l₂) = (F.write start l₁).write (start + l₁.length) l₂ := by
  ext p
  · simp only [write, List.append_eq_nil_iff, List.length_append]
    by_cases h₁ : l₁ = []
    · simp [h₁]
    · by_cases h₂ : l₂ = []
      · simp [h₁, h₂]
      · simp only [h₁, h₂, and_self, if_false]
        omega
  · simp only [write]
    by_cases hlow : start ≤ p
    · by_cases hhigh : start + l₁.length ≤ p
      · rw [if_pos hlow, if_pos hhigh, if_pos hlow, List.getD_append_right _ _ _ _ (by omega),
          List.getD_eq_default l₁ _ (by omega)]
        congr 1
        omega
      · rw [if_pos hlow, if_neg hhigh, if_pos hlow, List.getD_append _ _ _ _ (by omega)]
    · rw [if_neg hlow, if_neg (by omega), if_neg hlow]

@[simp] theorem length_cells {count : Nat} : (F.cells pos count).length = count := by
  simp [cells]

/-- A read in two parts. -/
theorem cells_add {a b : Nat} : F.cells pos (a + b) = F.cells pos a ++ F.cells (pos + a) b := by
  simp only [cells, List.range_add, List.map_append, List.map_map]
  congr 1
  refine List.map_congr_left fun i _ => ?_
  simp [Nat.add_assoc]

end Sparse

end Linux011.Lib
