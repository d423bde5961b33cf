import Mathlib.Data.List.Basic
import Mathlib.Data.List.Nodup
import Mathlib.Logic.Function.Basic

/-!
# Linked lists

A singly linked list is a start and a function that gives the successor of each node. `Chain` relates
it to the list of its nodes; a chain is finite by definition, and one without repetitions is acyclic.
-/

namespace Linux011.Lib

variable {P : Type _}

/-- The nodes met from `a` on are those of `l`, in this order. -/
def Chain (next : P → Option P) : Option P → List P → Prop
  | a, [] => a = none
  | a, p :: l => a = some p ∧ Chain next (next p) l

namespace Chain

variable {next next' : P → Option P} {a : Option P} {p r : P} {l l₁ l₂ : List P}

@[simp] theorem nil_iff : Chain next a [] ↔ a = none := Iff.rfl

@[simp] theorem cons_iff : Chain next a (p :: l) ↔ a = some p ∧ Chain next (next p) l := Iff.rfl

theorem of_none (h : Chain next none l) : l = [] := by
  cases l with
  | nil => rfl
  | cons p l => cases h.1

theorem of_some (h : Chain next (some p) l) : ∃ l', l = p :: l' ∧ Chain next (next p) l' := by
  cases l with
  | nil => cases h
  | cons p' l' =>
    obtain ⟨hp, hl⟩ := h
    cases hp
    exact ⟨l', rfl, hl⟩

/-- A chain depends only on the successors of its own nodes. -/
theorem congr (h : Chain next a l) (hsame : ∀ p ∈ l, next' p = next p) : Chain next' a l := by
  induction l generalizing a with
  | nil => exact h
  | cons p l ih =>
    obtain ⟨ha, hl⟩ := h
    refine ⟨ha, ?_⟩
    rw [hsame p List.mem_cons_self]
    exact ih hl fun q hq => hsame q (List.mem_cons_of_mem p hq)

/-- The chain from the last node of a first part. -/
theorem split (h : Chain next a (l₁ ++ p :: l₂)) : Chain next (next p) l₂ := by
  induction l₁ generalizing a with
  | nil => exact h.2
  | cons q l₁ ih => exact ih h.2

/-- The link of a node that is not the last one. -/
theorem link (h : Chain next a (l₁ ++ p :: r :: l₂)) : next p = some r := h.split.1

/-- A start has one chain. -/
theorem unique (h₁ : Chain next a l₁) (h₂ : Chain next a l₂) : l₁ = l₂ := by
  induction l₁ generalizing a l₂ with
  | nil =>
    cases h₁
    exact h₂.of_none.symm
  | cons p l₁ ih =>
    obtain ⟨rfl, h₁⟩ := h₁
    obtain ⟨l, rfl, hl⟩ := h₂.of_some
    rw [ih h₁ hl]

variable [DecidableEq P]

/-- Links of other nodes do not matter. -/
theorem update_of_notMem {v : Option P} (h : Chain next a l) (hp : p ∉ l) :
    Chain (Function.update next p v) a l := by
  apply h.congr
  intro q hq
  have hqp : q ≠ p := by
    rintro rfl
    exact hp hq
  exact Function.update_of_ne hqp _ _

/-- `r` is taken out behind `p`. -/
theorem unlink (h : Chain next a (l₁ ++ p :: r :: l₂)) (hnodup : (l₁ ++ p :: r :: l₂).Nodup) :
    Chain (Function.update next p (next r)) a (l₁ ++ p :: l₂) := by
  induction l₁ generalizing a with
  | nil =>
    obtain ⟨hp, -, hrest⟩ := h
    refine ⟨hp, ?_⟩
    rw [Function.update_self]
    apply hrest.update_of_notMem
    exact fun hm => (List.nodup_cons.mp hnodup).1 (List.mem_cons_of_mem r hm)
  | cons q l₁ ih =>
    obtain ⟨hq, hrest⟩ := h
    have hqp : q ≠ p := by
      intro heq
      apply (List.nodup_cons.mp hnodup).1
      simp [heq]
    refine ⟨hq, ?_⟩
    rw [Function.update_of_ne hqp]
    exact ih hrest (List.nodup_cons.mp hnodup).2

/-- `r` is linked in behind `p`. -/
theorem insert (h : Chain next a (l₁ ++ p :: l₂)) (hnodup : (l₁ ++ p :: l₂).Nodup)
    (hr : r ∉ l₁ ++ p :: l₂) :
    Chain (Function.update (Function.update next r (next p)) p (some r)) a
      (l₁ ++ p :: r :: l₂) := by
  have hrp : r ≠ p := by
    rintro rfl
    exact hr (by simp)
  induction l₁ generalizing a with
  | nil =>
    refine ⟨h.1, Function.update_self .., ?_⟩
    rw [Function.update_of_ne hrp, Function.update_self]
    refine h.2.congr fun q hq => ?_
    have hqp : q ≠ p := by
      rintro rfl
      exact (List.nodup_cons.mp hnodup).1 hq
    have hqr : q ≠ r := by
      rintro rfl
      exact hr (List.mem_cons_of_mem p hq)
    rw [Function.update_of_ne hqp, Function.update_of_ne hqr]
  | cons q l₁ ih =>
    obtain ⟨ha, hl⟩ := h
    have hqp : q ≠ p := by
      rintro rfl
      exact (List.nodup_cons.mp hnodup).1 (by simp)
    have hqr : q ≠ r := by
      rintro rfl
      exact hr List.mem_cons_self
    refine ⟨ha, ?_⟩
    rw [Function.update_of_ne hqp, Function.update_of_ne hqr]
    exact ih hl (List.nodup_cons.mp hnodup).2 fun hm => hr (List.mem_cons_of_mem q hm)

end Chain

/-! ## Several lists

Lists `q i` without common nodes, as a hash table or an allocator has them. One of them loses a node, or
gets one. -/

section Several

variable {ι : Type _} [DecidableEq ι] {q : ι → List P} {i k : ι} {p r : P} {l₁ l₂ : List P}

theorem mem_removed (hq : q k = l₁ ++ p :: l₂) (hnodup : (q k).Nodup) (honly : ∀ i, p ∈ q i → i = k) :
    r ∈ Function.update q k (l₁ ++ l₂) i ↔ r ∈ q i ∧ r ≠ p := by
  rw [hq] at hnodup
  have hgone := (List.nodup_cons.mp (List.nodup_middle.mp hnodup)).1
  by_cases hik : i = k
  · subst hik
    rw [Function.update_self, hq, List.mem_append, List.mem_append, List.mem_cons]
    constructor
    · intro hr
      refine ⟨by tauto, ?_⟩
      rintro rfl
      exact hgone (List.mem_append.mpr hr)
    · tauto
  · rw [Function.update_of_ne hik]
    refine (and_iff_left_of_imp fun hr => ?_).symm
    rintro rfl
    exact hik (honly i hr)

theorem nodup_removed (hq : q k = l₁ ++ p :: l₂) (hnodup : ∀ i, (q i).Nodup) (i : ι) :
    (Function.update q k (l₁ ++ l₂) i).Nodup := by
  by_cases hik : i = k
  · subst hik
    rw [Function.update_self]
    have hself := hnodup i
    rw [hq] at hself
    exact (List.nodup_middle.mp hself).of_cons
  · rw [Function.update_of_ne hik]
    exact hnodup i

theorem mem_added : r ∈ Function.update q k (p :: q k) i ↔ r ∈ q i ∨ (r = p ∧ i = k) := by
  by_cases hik : i = k
  · subst hik
    rw [Function.update_self, List.mem_cons]
    tauto
  · rw [Function.update_of_ne hik]
    tauto

theorem nodup_added (hp : p ∉ q k) (hnodup : ∀ i, (q i).Nodup) (i : ι) :
    (Function.update q k (p :: q k) i).Nodup := by
  by_cases hik : i = k
  · subst hik
    rw [Function.update_self]
    exact List.nodup_cons.mpr ⟨hp, hnodup i⟩
  · rw [Function.update_of_ne hik]
    exact hnodup i

end Several

end Linux011.Lib
