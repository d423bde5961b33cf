import Mathlib.Data.List.Chain
import Linux011.Lib.Doubly

/-!
# Circular lists

The last node of a circular list is linked to the first one, in both directions. A node is taken out wherever it
is, and one that comes in before the first node is the last one.
-/

namespace Linux011.Lib

variable {P : Type _}

/-- Each node of `l` is linked to the one behind it, in both directions. -/
def Along (L : Links P) (l : List P) : Prop := l.IsChain fun p q => L.next p = some q ∧ L.prev q = some p

/-- The nodes of `l` are linked in this order, and the last one to the first one. -/
structure Circular (L : Links P) (l : List P) : Prop where
  along : Along L l
  closed : ∀ p q, l.getLast? = some p → l.head? = some q → L.next p = some q ∧ L.prev q = some p

namespace Links

variable [DecidableEq P] {L : Links P}

/-- `p` is linked in before `f`. -/
def linkBefore (p f : P) (L : Links P) : Links P :=
  let last := L.prev f
  let L := (L.setNext (some p) (some f)).setPrev (some p) last
  (L.setNext last (some p)).setPrev (some f) (some p)

/-- The order of the two writes does not matter. -/
theorem unlink_eq (p : P) (L : Links P) :
    L.unlink p = (L.setNext (L.prev p) (L.next p)).setPrev (L.next p) (L.prev p) := by
  unfold unlink
  dsimp only
  rw [setPrev_next, setPrev_prev, ite_self]
  cases L.next p <;> cases L.prev p <;> rfl

theorem unlink_next (p q : P) : (L.unlink p).next q = if L.prev p = some q then L.next p else L.next q := by
  rw [unlink_eq, setPrev_next, setNext_next]

theorem unlink_prev (p q : P) : (L.unlink p).prev q = if L.next p = some q then L.prev p else L.prev q := by
  rw [unlink_eq, setPrev_prev, setNext_prev]

theorem linkBefore_next (p f q : P) : (L.linkBefore p f).next q =
    if L.prev f = some q then some p else if p = q then some f else L.next q := by
  simp [linkBefore, setNext_next]

theorem linkBefore_prev (p f q : P) : (L.linkBefore p f).prev q =
    if f = q then some p else if p = q then L.prev f else L.prev q := by
  simp [linkBefore, setPrev_prev]

end Links

namespace Along

variable {L L' : Links P} {l : List P}

/-- The link behind the last node and the one before the first node do not matter. -/
theorem congr (h : Along L l) (hnodup : l.Nodup) (hnext : ∀ p ∈ l, l.getLast? ≠ some p → L'.next p = L.next p)
    (hprev : ∀ p ∈ l, l.head? ≠ some p → L'.prev p = L.prev p) : Along L' l := by
  refine List.isChain_iff_forall_rel_of_append_cons_cons.mpr fun p q l₁ l₂ hl => ?_
  obtain ⟨hpq, hqp⟩ := List.isChain_iff_forall_rel_of_append_cons_cons.mp h hl
  subst hl
  have hlast : (l₁ ++ p :: q :: l₂).getLast? ≠ some p := by
    intro heq
    -- `p` would be one of the nodes behind it.
    have hin : p ∈ q :: l₂ := by
      rw [List.getLast?_append, List.getLast?_cons_cons] at heq
      cases hrest : (q :: l₂).getLast? with
      | none => simp at hrest
      | some r =>
        rw [hrest] at heq
        cases heq
        exact List.mem_of_getLast? hrest
    exact (List.nodup_cons.mp (List.nodup_append.mp hnodup).2.1).1 hin
  have hhead : (l₁ ++ p :: q :: l₂).head? ≠ some q := by
    intro heq
    have hin : q ∈ l₁ ++ [p] := by
      cases l₁ <;> simp_all
    rw [List.append_cons] at hnodup
    exact (List.nodup_append.mp hnodup).2.2 q hin q List.mem_cons_self rfl
  rw [hnext p (by simp) hlast, hprev q (by simp) hhead]
  exact ⟨hpq, hqp⟩

end Along

namespace Circular

variable {L : Links P} {p f : P} {l l₁ l₂ : List P}

theorem prev_first (h : Circular L (f :: l)) : L.prev f = (f :: l).getLast? := by
  obtain ⟨p, hp⟩ := Option.isSome_iff_exists.mp (List.getLast?_isSome.mpr (List.cons_ne_nil f l))
  rw [hp]
  exact (h.closed p f hp rfl).2

/-- A circular list may be read from the next node on. -/
theorem rotate (h : Circular L (p :: l)) : Circular L (l ++ [p]) := by
  cases l with
  | nil => exact h
  | cons q l =>
    obtain ⟨hpq, hrest⟩ := List.isChain_cons_cons.mp h.along
    refine ⟨List.isChain_append.mpr ⟨hrest, List.isChain_singleton p, fun r hr x hx => ?_⟩, fun r x hr hx => ?_⟩
    · obtain rfl : p = x := Option.some.inj hx
      exact h.closed r p (by rwa [List.getLast?_cons_cons]) rfl
    · rw [List.getLast?_concat] at hr
      cases hr
      cases hx
      exact hpq

/-- A circular list may be read from any node on. -/
theorem swap (h : Circular L (l₁ ++ l₂)) : Circular L (l₂ ++ l₁) := by
  induction l₁ generalizing l₂ with
  | nil => rwa [List.append_nil]
  | cons p l₁ ih =>
    have hrot : Circular L (l₁ ++ (l₂ ++ [p])) := by
      rw [← List.append_assoc]
      exact h.rotate
    have hswap := ih hrot
    rwa [List.append_assoc] at hswap

/-- The node behind the first one. -/
theorem next_first (h : Circular L (p :: l)) (hl : l ≠ []) : L.next p = l.head? := by
  obtain ⟨q, l, rfl⟩ := List.exists_cons_of_ne_nil hl
  exact (List.isChain_cons_cons.mp h.along).1.1

/-- The links of a node lead to nodes of the list. -/
theorem next_mem (h : Circular L l) (hp : p ∈ l) : ∃ q ∈ l, L.next p = some q := by
  obtain ⟨l₁, l₂, rfl⟩ := List.append_of_mem hp
  have hswap := h.swap
  cases hrest : l₂ ++ l₁ with
  | nil =>
    rw [List.cons_append, hrest] at hswap
    exact ⟨p, hp, (hswap.closed p p rfl rfl).1⟩
  | cons q m =>
    rw [List.cons_append, hrest] at hswap
    have hq : q ∈ l₂ ++ l₁ := by
      rw [hrest]
      exact List.mem_cons_self
    refine ⟨q, ?_, hswap.next_first (List.cons_ne_nil q m)⟩
    simp only [List.mem_append, List.mem_cons] at hq ⊢
    tauto

theorem prev_mem (h : Circular L l) (hp : p ∈ l) : ∃ q ∈ l, L.prev p = some q := by
  obtain ⟨l₁, l₂, rfl⟩ := List.append_of_mem hp
  have hprev := h.swap.prev_first
  obtain ⟨q, hq⟩ := Option.isSome_iff_exists.mp (List.getLast?_isSome.mpr (List.cons_ne_nil p (l₂ ++ l₁)))
  refine ⟨q, ?_, hprev.trans hq⟩
  have hin := List.mem_of_getLast? hq
  simp only [List.mem_append, List.mem_cons] at hin ⊢
  tauto

/-- The nodes of a circular list stand for those of another one. -/
theorem map {Q : Type _} {L' : Links Q} (h : Circular L l) (f : P → Q)
    (hnext : ∀ p ∈ l, ∀ q, L.next p = some q → L'.next (f p) = some (f q))
    (hprev : ∀ p ∈ l, ∀ q, L.prev p = some q → L'.prev (f p) = some (f q)) : Circular L' (l.map f) := by
  refine ⟨(List.isChain_map f).mpr (h.along.imp_of_mem_imp fun p q hp hq hpq => ?_), fun x y hx hy => ?_⟩
  · exact ⟨hnext p hp q hpq.1, hprev q hq p hpq.2⟩
  · rw [List.getLast?_map] at hx
    rw [List.head?_map] at hy
    obtain ⟨p, hp, rfl⟩ := Option.map_eq_some_iff.mp hx
    obtain ⟨q, hq, rfl⟩ := Option.map_eq_some_iff.mp hy
    obtain ⟨hpq, hqp⟩ := h.closed p q hp hq
    exact ⟨hnext p (List.mem_of_getLast? hp) q hpq, hprev q (List.mem_of_head? hq) p hqp⟩

variable [DecidableEq P]

/-- The first node is taken out of the list. -/
theorem unlink_first (h : Circular L (p :: l)) (hnodup : (p :: l).Nodup) (hl : l ≠ []) : Circular (L.unlink p) l := by
  have hlast : (p :: l).getLast? = l.getLast? := by
    obtain ⟨q, l, rfl⟩ := List.exists_cons_of_ne_nil hl
    exact List.getLast?_cons_cons
  have hprev : L.prev p = l.getLast? := h.prev_first.trans hlast
  have hnext : L.next p = l.head? := h.next_first hl
  have hrest : Along L l := h.along.tail
  refine ⟨hrest.congr (List.nodup_cons.mp hnodup).2 (fun q _ hq => ?_) fun q _ hq => ?_, fun q r hq hr => ?_⟩
  · rw [Links.unlink_next, hprev, if_neg hq]
  · rw [Links.unlink_prev, hnext, if_neg hq]
  · rw [Links.unlink_next, Links.unlink_prev, hprev, hnext, if_pos hq, if_pos hr]
    exact ⟨hr, hq⟩

/-- A node is taken out of the list. -/
theorem unlink (h : Circular L (l₁ ++ p :: l₂)) (hnodup : (l₁ ++ p :: l₂).Nodup) (hl : l₁ ++ l₂ ≠ []) :
    Circular (L.unlink p) (l₁ ++ l₂) := by
  have hperm : List.Perm (p :: l₂ ++ l₁) (l₁ ++ p :: l₂) := List.perm_append_comm
  refine (unlink_first h.swap (hperm.nodup_iff.mpr hnodup) ?_).swap
  intro hnil
  apply hl
  simpa [and_comm] using hnil

/-- A node comes in at the end of the list, before the first node. -/
theorem linkBefore (h : Circular L (f :: l)) (hnodup : (f :: l).Nodup) (hp : p ∉ f :: l) :
    Circular (L.linkBefore p f) (f :: l ++ [p]) := by
  have hprev := h.prev_first
  have hpf : f ≠ p := fun heq => hp (heq ▸ List.mem_cons_self)
  have hne : ∀ q ∈ f :: l, p ≠ q := fun q hq heq => hp (heq ▸ hq)
  have hlast : (f :: l).getLast? ≠ some p := fun heq => hp (List.mem_of_getLast? heq)
  refine ⟨List.isChain_append.mpr ⟨?_, List.isChain_singleton p, fun q hq r hr => ?_⟩, fun q r hq hr => ?_⟩
  · refine h.along.congr hnodup (fun q hin hq => ?_) fun q hin hq => ?_
    · rw [Links.linkBefore_next, hprev, if_neg hq, if_neg (hne q hin)]
    · rw [Links.linkBefore_prev, if_neg fun heq => hq (congrArg some heq), if_neg (hne q hin)]
  · obtain rfl : p = r := Option.some.inj hr
    have hq : (f :: l).getLast? = some q := hq
    rw [Links.linkBefore_next, Links.linkBefore_prev, hprev, if_pos hq, if_neg hpf, if_pos rfl]
    exact ⟨rfl, hq⟩
  · rw [List.getLast?_concat] at hq
    cases hq
    cases hr
    rw [Links.linkBefore_next, Links.linkBefore_prev, hprev, if_neg hlast, if_pos rfl, if_pos rfl]
    exact ⟨rfl, rfl⟩

/-- A node that is linked to itself alone stays so. -/
theorem linkBefore_self (h : L.prev p = some p) : Circular (L.linkBefore p p) [p] := by
  refine ⟨List.isChain_singleton p, fun q r hq hr => ?_⟩
  obtain rfl : p = q := Option.some.inj hq
  obtain rfl : p = r := Option.some.inj hr
  rw [Links.linkBefore_next, Links.linkBefore_prev, if_pos h, if_pos rfl]
  exact ⟨rfl, rfl⟩

end Circular

end Linux011.Lib
