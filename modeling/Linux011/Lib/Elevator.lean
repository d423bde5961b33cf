import Mathlib.Data.List.Pairwise
import Mathlib.Data.List.Perm.Basic
import Mathlib.Order.Defs.LinearOrder
import Mathlib.Order.Lattice

/-!
# One-way elevators

A queue of items with keys. Its head is being served, and a new item goes behind an item it may follow: into a gap
of a run where its key fits, to the place where the keys start again from below, or to the end. `TwoRuns` says that
the keys start again at most once, and `behind_twoRuns` that an insertion keeps it so.
-/

namespace Linux011.Lib

variable {α κ : Type*} [LinearOrder κ] {key : α → κ} {x a b : α} {l u v : List α}

/-- The items behind `a` after `x` has come into the queue. -/
def behind (key : α → κ) (x : α) : α → List α → List α
  | _, [] => [x]
  | a, b :: l =>
    if (key a < key x ∨ ¬ key a < key b) ∧ key x < key b then x :: b :: l else b :: behind key x b l

/-- The keys increase along the list. -/
def Increasing (key : α → κ) (l : List α) : Prop := l.Pairwise fun a b => key a < key b

/-- The keys increase, start again once at most, and increase. -/
def TwoRuns (key : α → κ) (l : List α) : Prop := ∃ u v, l = u ++ v ∧ Increasing key u ∧ Increasing key v

theorem behind_perm (key : α → κ) (x a : α) (l : List α) : (behind key x a l).Perm (x :: l) := by
  induction l generalizing a with
  | nil => exact List.Perm.refl _
  | cons b l ih =>
    unfold behind
    split
    · exact List.Perm.refl _
    · exact ((ih b).cons b).trans (List.Perm.swap x b l)

/-- The items keep their order. -/
theorem behind_sublist (key : α → κ) (x a : α) (l : List α) : List.Sublist l (behind key x a l) := by
  induction l generalizing a with
  | nil => exact List.nil_sublist _
  | cons b l ih =>
    unfold behind
    split
    · exact List.sublist_cons_self x _
    · exact (ih b).cons_cons b

theorem Increasing.tail (h : Increasing key (a :: l)) : Increasing key l := (List.pairwise_cons.mp h).2

theorem Increasing.head (h : Increasing key (a :: l)) (hb : b ∈ l) : key a < key b := (List.pairwise_cons.mp h).1 b hb

theorem Increasing.cons (h : Increasing key (b :: l)) (hab : key a < key b) : Increasing key (a :: b :: l) := by
  refine List.pairwise_cons.mpr ⟨fun c hc => ?_, h⟩
  rcases List.mem_cons.mp hc with rfl | hc
  · exact hab
  · exact lt_trans hab (h.head hc)

/-- An item with a higher key comes into a run. -/
theorem behind_increasing (h : Increasing key (a :: l)) (hax : key a < key x) (hx : ∀ b ∈ l, key b ≠ key x) :
    Increasing key (a :: behind key x a l) := by
  induction l generalizing a with
  | nil => exact Increasing.cons (List.pairwise_singleton _ x) hax
  | cons b l ih =>
    have hab := h.head List.mem_cons_self
    unfold behind
    split
    · next hplace => exact (h.tail.cons hplace.2).cons hax
    · next hplace =>
      have hbx : key b < key x := by
        apply lt_of_le_of_ne _ (hx b List.mem_cons_self)
        exact le_of_not_gt fun hxb => hplace ⟨Or.inl hax, hxb⟩
      exact (ih h.tail hbx fun c hc => hx c (List.mem_cons_of_mem b hc)).cons hab

/-- An item with a lower key goes to the end of a run. -/
theorem behind_end (h : Increasing key (a :: l)) (hxa : key x < key a) : behind key x a l = l ++ [x] := by
  induction l generalizing a with
  | nil => rfl
  | cons b l ih =>
    have hab := h.head List.mem_cons_self
    unfold behind
    rw [if_neg fun hplace => hplace.1.elim (lt_asymm hxa) fun hno => hno hab, ih h.tail (lt_trans hxa hab)]
    rfl

/-- Two runs with a wrap between them. -/
theorem behind_wrap (hu : Increasing key (a :: u)) (hv : Increasing key (b :: v))
    (hwrap : ¬ key ((a :: u).getLast (List.cons_ne_nil a u)) < key b) (hx : ∀ c ∈ u ++ b :: v, key c ≠ key x) :
    ∃ u' v', behind key x a (u ++ b :: v) = u' ++ v' ∧ Increasing key (a :: u') ∧ Increasing key v' := by
  induction u generalizing a with
  | nil =>
    simp only [List.nil_append, behind]
    by_cases hxb : key x < key b
    · rw [if_pos ⟨Or.inr hwrap, hxb⟩]
      exact ⟨[], x :: b :: v, rfl, hu, hv.cons hxb⟩
    · rw [if_neg fun hplace => hxb hplace.2]
      have hbx : key b < key x := lt_of_le_of_ne (le_of_not_gt hxb) (hx b List.mem_cons_self)
      refine ⟨[], _, rfl, hu, behind_increasing hv hbx fun c hc => ?_⟩
      exact hx c (List.mem_cons_of_mem b hc)
  | cons c u ih =>
    have hac := hu.head List.mem_cons_self
    simp only [List.cons_append, behind]
    split
    · next hplace =>
      have hax : key a < key x := hplace.1.resolve_right fun hno => hno hac
      exact ⟨x :: c :: u, b :: v, rfl, (hu.tail.cons hplace.2).cons hax, hv⟩
    · obtain ⟨u', v', heq, hu', hv'⟩ := ih hu.tail hwrap fun d hd => hx d (List.mem_cons_of_mem c hd)
      exact ⟨c :: u', v', by rw [heq]; rfl, hu'.cons hac, hv'⟩

/-- Two runs that fit together are one. -/
theorem Increasing.append (hu : Increasing key u) (hv : Increasing key (b :: v))
    (hfit : ∀ c ∈ u, key c < key b) : Increasing key (u ++ b :: v) := by
  refine List.pairwise_append.mpr ⟨hu, hv, fun c hc d hd => ?_⟩
  rcases List.mem_cons.mp hd with rfl | hd
  · exact hfit c hc
  · exact lt_trans (hfit c hc) (hv.head hd)

theorem Increasing.twoRuns (h : Increasing key l) : TwoRuns key l :=
  ⟨l, [], (List.append_nil l).symm, h, List.Pairwise.nil⟩

theorem behind_oneRun (h : Increasing key (a :: l)) (hx : ∀ c ∈ a :: l, key c ≠ key x) :
    TwoRuns key (a :: behind key x a l) := by
  rcases lt_or_gt_of_ne (hx a List.mem_cons_self) with hax | hxa
  · apply Increasing.twoRuns
    exact behind_increasing h hax fun b hb => hx b (List.mem_cons_of_mem a hb)
  · rw [behind_end h hxa]
    exact ⟨a :: l, [x], rfl, h, List.pairwise_singleton _ x⟩

/-- An insertion keeps the elevator going one way. -/
theorem behind_twoRuns (h : TwoRuns key (a :: l)) (hx : ∀ c ∈ a :: l, key c ≠ key x) :
    TwoRuns key (a :: behind key x a l) := by
  obtain ⟨u, v, heq, hu, hv⟩ := h
  cases u with
  | nil =>
    rw [List.nil_append] at heq
    rw [← heq] at hv
    exact behind_oneRun hv hx
  | cons c u =>
    rw [List.cons_append] at heq
    obtain ⟨rfl, rfl⟩ := List.cons.inj heq
    cases v with
    | nil =>
      rw [List.append_nil] at hx ⊢
      exact behind_oneRun hu hx
    | cons b v =>
      by_cases hwrap : key ((a :: u).getLast (List.cons_ne_nil a u)) < key b
      · refine behind_oneRun (Increasing.append hu hv fun c hc => ?_) hx
        refine lt_of_le_of_lt ?_ hwrap
        have hle : (a :: u).Pairwise fun b c => key b ≤ key c := hu.imp fun h => le_of_lt h
        have hrefl : Std.Refl fun b c : α => key b ≤ key c := ⟨fun b => le_refl (key b)⟩
        exact hle.rel_getLast hc
      · obtain ⟨u', v', heq', hu', hv'⟩ := behind_wrap hu hv hwrap fun c hc => hx c (List.mem_cons_of_mem a hc)
        exact ⟨a :: u', v', by rw [heq']; rfl, hu', hv'⟩

/-- The head of the queue is served. -/
theorem TwoRuns.tail (h : TwoRuns key (a :: l)) : TwoRuns key l := by
  obtain ⟨u, v, heq, hu, hv⟩ := h
  cases u with
  | nil =>
    rw [List.nil_append] at heq
    rw [← heq] at hv
    exact hv.tail.twoRuns
  | cons c u =>
    rw [List.cons_append] at heq
    obtain ⟨-, rfl⟩ := List.cons.inj heq
    exact ⟨u, v, rfl, hu.tail, hv⟩

end Linux011.Lib
