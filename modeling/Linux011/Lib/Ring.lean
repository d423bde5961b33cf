import Mathlib.Data.List.Basic
import Mathlib.Data.List.GetD
import Mathlib.Data.Nat.ModEq
import Mathlib.Logic.Function.Basic

/-!
# Ring buffers

A ring of `n` cells with a head, where elements are stored, and a tail, where they are taken. One
cell stays free, so that a full ring differs from an empty one. `contents` lists what is stored, the
oldest first. Elements come and go in chunks that do not cross the end of the ring: `front` and
`drop` take a chunk at the tail, `push` stores one at the head. `put` stores a single element, and
does not ask for room: where there is none, the ring is empty afterwards.
-/

namespace Linux011.Lib

structure Ring (α : Type _) (n : Nat) where
  cell : Nat → α
  head : Nat
  tail : Nat
  head_lt : head < n
  tail_lt : tail < n

namespace Ring

variable {α : Type _} {n : Nat}

/-- The distance from the tail to the head, around the end. -/
def used (r : Ring α n) : Nat :=
  (((r.head : Int) - r.tail) % n).toNat

def contents (r : Ring α n) : List α :=
  (List.range r.used).map fun i => r.cell ((r.tail + i) % n)

/-- The `k` cells from the tail on. -/
def front (r : Ring α n) (k : Nat) : List α :=
  (List.range k).map fun i => r.cell (r.tail + i)

def drop (r : Ring α n) (k : Nat) : Ring α n :=
  { r with
    tail := (r.tail + k) % n
    tail_lt := Nat.mod_lt _ (Nat.zero_lt_of_lt r.tail_lt) }

/-- The elements of `l` are stored from the head on. -/
def push (r : Ring α n) (l : List α) : Ring α n :=
  { r with
    cell := fun i => if r.head ≤ i then l.getD (i - r.head) (r.cell i) else r.cell i
    head := (r.head + l.length) % n
    head_lt := Nat.mod_lt _ (Nat.zero_lt_of_lt r.head_lt) }

/-- The element `x` is stored at the head. -/
def put (r : Ring α n) (x : α) : Ring α n :=
  { r with
    cell := Function.update r.cell r.head x
    head := (r.head + 1) % n
    head_lt := Nat.mod_lt _ (Nat.zero_lt_of_lt r.head_lt) }

/-! ## How full the ring is -/

theorem used_eq (r : Ring α n) :
    r.used = if r.tail ≤ r.head then r.head - r.tail else r.head + n - r.tail := by
  have hh := r.head_lt
  have ht := r.tail_lt
  unfold used
  split
  next hle =>
    rw [Int.emod_eq_of_lt (by omega) (by omega)]
    omega
  next hlt =>
    have hadd : ((r.head : Int) - r.tail) % n = ((r.head : Int) - r.tail + n) % n := by
      rw [Int.add_emod_right]
    rw [hadd, Int.emod_eq_of_lt (by omega) (by omega)]
    omega

theorem used_lt (r : Ring α n) : r.used < n := by
  have hh := r.head_lt
  have ht := r.tail_lt
  rw [used_eq]
  split <;> omega

@[simp] theorem contents_length (r : Ring α n) : r.contents.length = r.used := by
  simp [contents]

@[simp] theorem front_length (r : Ring α n) (k : Nat) : (r.front k).length = k := by
  simp [front]

/-- The fill is known up to multiples of `n`. -/
theorem used_unique (r : Ring α n) {k : Nat} (hk : k < n) (h : ((r.head : Int) - r.tail) % n = k % n) : r.used = k := by
  unfold used
  rw [h, Int.emod_eq_of_lt (Int.natCast_nonneg k) (Int.ofNat_lt.mpr hk)]
  rfl

theorem cast_used (r : Ring α n) : (r.used : Int) = ((r.head : Int) - r.tail) % n :=
  Int.toNat_of_nonneg (Int.emod_nonneg _ (by have := r.head_lt; omega))

theorem used_drop (r : Ring α n) {k : Nat} (hk : k ≤ r.used) : (r.drop k).used = r.used - k := by
  refine used_unique _ (Nat.lt_of_le_of_lt (Nat.sub_le _ k) r.used_lt) ?_
  show ((r.head : Int) - ((r.tail + k) % n : Nat)) % n = _
  rw [Int.natCast_emod, Int.natCast_add, Int.sub_emod_emod, Int.ofNat_sub hk, cast_used, Int.emod_sub_emod, Int.sub_sub]

theorem used_push (r : Ring α n) {l : List α} (hroom : r.used + l.length < n) :
    (r.push l).used = r.used + l.length := by
  refine used_unique _ hroom ?_
  show (((r.head + l.length) % n : Nat) - (r.tail : Int)) % n = _
  rw [Int.natCast_emod, Int.natCast_add, Int.emod_sub_emod, Int.natCast_add, cast_used, Int.emod_add_emod]
  exact congrArg (fun d : Int => d % n) (by omega)

/-- The head goes around, whatever it meets. -/
theorem used_put (r : Ring α n) (x : α) : (r.put x).used = (r.used + 1) % n := by
  refine used_unique _ (Nat.mod_lt _ (Nat.zero_lt_of_lt r.head_lt)) ?_
  show (((r.head + 1) % n : Nat) - (r.tail : Int)) % n = _
  rw [Int.natCast_emod, Int.natCast_emod, Int.emod_emod, Int.natCast_add, Int.emod_sub_emod, Int.natCast_add, cast_used,
    Int.emod_add_emod]
  exact congrArg (fun d : Int => d % n) (by omega)

theorem used_puts (r : Ring α n) (l : List α) : (l.foldl put r).used = (r.used + l.length) % n := by
  induction l generalizing r with
  | nil => exact (Nat.mod_eq_of_lt r.used_lt).symm
  | cons x l ih => rw [List.foldl_cons, ih, used_put, Nat.mod_add_mod, List.length_cons, Nat.add_right_comm, Nat.add_assoc]

/-! ## What it contains -/

/-- Taking a chunk splits the contents. -/
theorem contents_drop (r : Ring α n) {k : Nat} (hk : k ≤ r.used) (hend : r.tail + k ≤ n) :
    r.contents = r.front k ++ (r.drop k).contents := by
  have hsplit : List.range r.used =
      List.range k ++ (List.range (r.used - k)).map fun i => k + i := by
    rw [← List.range_add, Nat.add_sub_cancel' hk]
  simp only [contents, used_drop r hk, hsplit, List.map_append, List.map_map]
  congr 1
  · refine List.map_congr_left fun i hi => ?_
    rw [Nat.mod_eq_of_lt]
    have := List.mem_range.mp hi
    omega
  · refine List.map_congr_left fun i _ => ?_
    show r.cell ((r.tail + (k + i)) % n) = r.cell (((r.tail + k) % n + i) % n)
    rw [Nat.mod_add_mod, Nat.add_assoc]

/-- Storing a chunk appends it: the cells it fills are free. -/
theorem contents_push (r : Ring α n) {l : List α} (hroom : r.used + l.length < n)
    (hend : r.head + l.length ≤ n) : (r.push l).contents = r.contents ++ l := by
  have hh := r.head_lt
  have ht := r.tail_lt
  have hused := used_eq r
  refine List.ext_getElem ?_ fun i hi hi' => ?_
  · simp [used_push r hroom]
  · rw [contents_length, used_push r hroom] at hi
    have hcell : (r.push l).contents[i] = (r.push l).cell ((r.tail + i) % n) := by
      simp [contents, push]
    rw [hcell]
    have hwrap : (r.tail + i) % n = if r.tail + i < n then r.tail + i else r.tail + i - n := by
      split
      next hlt => exact Nat.mod_eq_of_lt hlt
      next hge => rw [Nat.mod_eq_sub_mod (by omega), Nat.mod_eq_of_lt (by omega)]
    by_cases hold : i < r.used
    · -- an element that was there is not overwritten
      rw [List.getElem_append_left (by simpa using hold)]
      have hout : ¬ (r.head ≤ (r.tail + i) % n ∧ (r.tail + i) % n < r.head + l.length) := by
        rw [hwrap]
        split at hused <;> split <;> omega
      simp only [contents, push, List.getElem_map, List.getElem_range]
      split
      next hle =>
        rw [List.getD_eq_default]
        omega
      next => rfl
    · -- a new element stands where the chunk was stored
      have hpos : (r.tail + i) % n = r.head + (i - r.used) := by
        rw [hwrap]
        split at hused <;> split <;> omega
      rw [List.getElem_append_right (by simpa using Nat.le_of_not_lt hold)]
      simp only [push, hpos, contents_length]
      rw [if_pos (Nat.le_add_right _ _), Nat.add_sub_cancel_left, List.getD_eq_getElem _ _ (by omega)]

/-- A single element is a chunk that does not cross the end. -/
theorem put_eq_push (r : Ring α n) (x : α) : r.put x = r.push [x] := by
  unfold put push
  congr 1
  funext i
  by_cases hi : i = r.head
  · simp [hi]
  · rw [Function.update_of_ne hi]
    split
    · next hle =>
      rw [List.getD_eq_default]
      simp only [List.length_singleton]
      omega
    · rfl

theorem contents_put (r : Ring α n) (x : α) (hroom : r.used + 1 < n) : (r.put x).contents = r.contents ++ [x] := by
  rw [put_eq_push]
  exact r.contents_push hroom r.head_lt

theorem contents_puts (r : Ring α n) (l : List α) (hroom : r.used + l.length < n) :
    (l.foldl put r).contents = r.contents ++ l := by
  induction l generalizing r with
  | nil => exact (List.append_nil _).symm
  | cons x l ih =>
    rw [List.length_cons] at hroom
    have hone : r.used + 1 < n := by omega
    have hused : (r.put x).used = r.used + 1 := (r.used_put x).trans (Nat.mod_eq_of_lt hone)
    rw [List.foldl_cons, ih _ (by omega), contents_put r x hone, List.append_assoc]
    rfl

end Ring

end Linux011.Lib
