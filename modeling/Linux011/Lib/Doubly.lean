import Linux011.Lib.Chain

/-!
# Doubly linked lists

A doubly linked list is a chain in both directions. A link that would be written through a null pointer is
not written.
-/

namespace Linux011.Lib

/-- The two links of each node. -/
structure Links (P : Type _) where
  next : P → Option P
  prev : P → Option P

variable {P : Type _}

/-- The nodes of `l` are linked in this order, and the ends of the list have no neighbour. -/
structure Doubly (L : Links P) (l : List P) : Prop where
  next : Chain L.next l.head? l
  prev : Chain L.prev l.reverse.head? l.reverse

namespace Chain

variable {next : P → Option P} {a : Option P} {p : P} {l l₁ l₂ : List P}

/-- A chain starts at the first of its nodes. -/
theorem start (h : Chain next a l) : a = l.head? := by
  cases l with
  | nil => exact h
  | cons p l => exact h.1

end Chain

namespace Links

variable [DecidableEq P] {L : Links P} {p q : P} {v : Option P}

def setNext (p v : Option P) (L : Links P) : Links P :=
  match p with
  | none => L
  | some p => { L with next := Function.update L.next p v }

def setPrev (p v : Option P) (L : Links P) : Links P :=
  match p with
  | none => L
  | some p => { L with prev := Function.update L.prev p v }

/-- `setNext` where a store through a null pointer is an error. -/
def storeNext (p v : Option P) (L : Links P) : Option (Links P) := if p.isSome then some (L.setNext p v) else none

/-- `setPrev` where a store through a null pointer is an error. -/
def storePrev (p v : Option P) (L : Links P) : Option (Links P) := if p.isSome then some (L.setPrev p v) else none

/-- The neighbours of `p` are linked to each other. -/
def unlink (p : P) (L : Links P) : Links P :=
  let L := L.setPrev (L.next p) (L.prev p)
  L.setNext (L.prev p) (L.next p)

/-- `p` is linked in before the first node, which is `a`. -/
def push (p : P) (a : Option P) (L : Links P) : Links P :=
  let L := (L.setPrev (some p) none).setNext (some p) a
  L.setPrev (L.next p) (some p)

@[simp] theorem storeNext_some : L.storeNext (some p) v = some (L.setNext (some p) v) := rfl

@[simp] theorem storePrev_some : L.storePrev (some p) v = some (L.setPrev (some p) v) := rfl

@[simp] theorem storePrev_none : L.storePrev none v = none := rfl

@[simp] theorem setNext_prev (o : Option P) : (L.setNext o v).prev = L.prev := by
  cases o <;> rfl

@[simp] theorem setPrev_next (o : Option P) : (L.setPrev o v).next = L.next := by
  cases o <;> rfl

/-- The later of two writes counts. -/
@[simp] theorem setNext_setNext (o w : Option P) : (L.setNext o w).setNext o v = L.setNext o v := by
  cases o with
  | none => rfl
  | some p => exact congrArg (Links.mk · L.prev) (Function.update_idem ..)

theorem setNext_next (o : Option P) : (L.setNext o v).next q = if o = some q then v else L.next q := by
  cases o with
  | none => rfl
  | some p =>
    by_cases h : p = q
    · rw [h, if_pos rfl]
      exact Function.update_self ..
    · rw [if_neg fun heq => h (Option.some.inj heq)]
      exact Function.update_of_ne (Ne.symm h) ..

theorem setPrev_prev (o : Option P) : (L.setPrev o v).prev q = if o = some q then v else L.prev q := by
  cases o with
  | none => rfl
  | some p =>
    by_cases h : p = q
    · rw [h, if_pos rfl]
      exact Function.update_self ..
    · rw [if_neg fun heq => h (Option.some.inj heq)]
      exact Function.update_of_ne (Ne.symm h) ..

end Links

namespace Doubly

variable {L L' : Links P} {p : P} {l l₁ l₂ : List P}

/-- A list depends only on the links of its own nodes. -/
theorem congr (h : Doubly L l) (hnext : ∀ p ∈ l, L'.next p = L.next p) (hprev : ∀ p ∈ l, L'.prev p = L.prev p) :
    Doubly L' l :=
  ⟨h.next.congr hnext, h.prev.congr fun q hq => hprev q (List.mem_reverse.mp hq)⟩

theorem reverse_append : (l₁ ++ p :: l₂).reverse = l₂.reverse ++ p :: l₁.reverse := by
  simp

/-- The node after `p`. -/
theorem next_eq (h : Doubly L (l₁ ++ p :: l₂)) : L.next p = l₂.head? := h.next.split.start

theorem prev_eq (h : Doubly L (l₁ ++ p :: l₂)) : L.prev p = l₁.reverse.head? := by
  have hprev := h.prev
  rw [reverse_append] at hprev
  exact hprev.split.start

variable [DecidableEq P]

/-- The node before `p`, if there is one, gets the successor of `p`. -/
theorem bypass {next next' : P → Option P} (h : Chain next (l₁ ++ p :: l₂).head? (l₁ ++ p :: l₂))
    (hnodup : (l₁ ++ p :: l₂).Nodup)
    (hlink : ∀ q ∈ l₁ ++ p :: l₂, next' q = if l₁.reverse.head? = some q then next p else next q) :
    Chain next' (l₁ ++ l₂).head? (l₁ ++ l₂) := by
  rcases List.eq_nil_or_concat l₁ with rfl | ⟨l₀, q, rfl⟩
  · have hrest := h.2
    rw [hrest.start] at hrest
    refine hrest.congr fun r hr => ?_
    rw [hlink r (List.mem_cons_of_mem p hr)]
    rfl
  · rw [List.concat_eq_append] at h hnodup hlink ⊢
    have hlist : l₀ ++ [q] ++ p :: l₂ = l₀ ++ q :: p :: l₂ := by simp
    have hshort : l₀ ++ [q] ++ l₂ = l₀ ++ q :: l₂ := by simp
    have hhead : (l₀ ++ q :: p :: l₂).head? = (l₀ ++ q :: l₂).head? := by
      cases l₀ <;> rfl
    rw [hlist, hhead] at h
    rw [hlist] at hnodup
    rw [hshort]
    refine (h.unlink hnodup).congr fun r hr => ?_
    have hmem : r ∈ l₀ ++ [q] ++ p :: l₂ := by
      simp only [List.mem_append, List.mem_cons] at hr ⊢
      tauto
    rw [hlink r hmem, Function.update_apply]
    simp [eq_comm]

/-- A node is taken out of the list. -/
theorem unlink (h : Doubly L (l₁ ++ p :: l₂)) (hnodup : (l₁ ++ p :: l₂).Nodup) :
    Doubly (L.unlink p) (l₁ ++ l₂) := by
  constructor
  · refine bypass h.next hnodup fun q _ => ?_
    unfold Links.unlink
    dsimp only
    rw [Links.setNext_next, Links.setPrev_next, Links.setPrev_prev, ite_self, h.prev_eq]
  · have hprev := h.prev
    rw [reverse_append] at hprev
    rw [List.reverse_append]
    refine bypass hprev (by rw [← reverse_append]; exact List.nodup_reverse.mpr hnodup) fun q _ => ?_
    unfold Links.unlink
    dsimp only
    rw [Links.setNext_prev, Links.setPrev_prev, List.reverse_reverse, h.next_eq]

/-- Nodes outside the list keep their links. -/
theorem unlink_out (h : Doubly L (l₁ ++ p :: l₂)) {q : P} (hq : q ∉ l₁ ++ p :: l₂) :
    (L.unlink p).next q = L.next q ∧ (L.unlink p).prev q = L.prev q := by
  have hnext : L.next p ≠ some q := by
    rw [h.next_eq]
    intro heq
    apply hq
    have := List.mem_of_head? heq
    simp [this]
  have hprev : L.prev p ≠ some q := by
    rw [h.prev_eq]
    intro heq
    apply hq
    have := List.mem_reverse.mp (List.mem_of_head? heq)
    simp [this]
  unfold Links.unlink
  dsimp only
  constructor
  · rw [Links.setNext_next, Links.setPrev_next, Links.setPrev_prev, ite_self, if_neg hprev]
  · rw [Links.setNext_prev, Links.setPrev_prev, if_neg hnext]

/-- Other lists stay as they are. -/
theorem unlink_other {l' : List P} (h : Doubly L (l₁ ++ p :: l₂)) (h' : Doubly L l')
    (hdisj : ∀ q ∈ l', q ∉ l₁ ++ p :: l₂) : Doubly (L.unlink p) l' :=
  h'.congr (fun q hq => (h.unlink_out (hdisj q hq)).1) fun q hq => (h.unlink_out (hdisj q hq)).2

/-- The node that is first when `p` has gone. -/
theorem head_unlink (h : Doubly L (l₁ ++ p :: l₂)) (hp : p ∉ l₁) :
    (l₁ ++ l₂).head? = if (l₁ ++ p :: l₂).head? = some p then (L.unlink p).next p else (l₁ ++ p :: l₂).head? := by
  cases l₁ with
  | nil =>
    rw [List.nil_append, List.nil_append, List.head?_cons, if_pos rfl, Links.unlink, Links.setNext_next,
      Links.setPrev_next, ite_self]
    exact h.next_eq.symm
  | cons q l₁ =>
    have hqp : q ≠ p := fun heq => hp (heq ▸ List.mem_cons_self)
    rw [List.cons_append, List.cons_append, List.head?_cons, List.head?_cons,
      if_neg fun heq => hqp (Option.some.inj heq)]

theorem push (h : Doubly L l) (hnodup : l.Nodup) (hp : p ∉ l) : Doubly (L.push p l.head?) (p :: l) := by
  constructor
  · refine ⟨rfl, ?_⟩
    unfold Links.push
    dsimp only
    have hself : (((L.setPrev (some p) none).setNext (some p) l.head?).setPrev
        (((L.setPrev (some p) none).setNext (some p) l.head?).next p) (some p)).next p = l.head? := by
      rw [Links.setPrev_next, Links.setNext_next, if_pos rfl]
    rw [hself]
    refine h.next.congr fun q hq => ?_
    rw [Links.setPrev_next, Links.setNext_next, if_neg, Links.setPrev_next]
    intro heq
    exact hp (Option.some.inj heq ▸ hq)
  · cases l with
    | nil =>
      refine ⟨rfl, ?_⟩
      unfold Links.push
      dsimp only
      rw [Links.setPrev_prev, Links.setNext_next, Links.setNext_prev, Links.setPrev_prev, if_pos rfl, if_pos rfl]
      rfl
    | cons q l =>
      have hprev := h.prev
      have hnodup' := List.nodup_reverse.mpr hnodup
      rw [List.reverse_cons] at hprev hnodup'
      have hend : L.prev q = none := hprev.split
      have hin : p ∉ l.reverse ++ q :: [] := by
        simpa [and_comm] using hp
      have hlist : (p :: q :: l).reverse = l.reverse ++ q :: p :: [] := by simp
      have hhead : (l.reverse ++ q :: p :: []).head? = (l.reverse ++ [q]).head? := by
        cases l.reverse <;> rfl
      rw [hlist, hhead]
      refine (hprev.insert hnodup' hin).congr fun r _ => ?_
      unfold Links.push
      dsimp only
      rw [Links.setPrev_prev, Links.setNext_next, Links.setNext_prev, Links.setPrev_prev, if_pos rfl, hend,
        Function.update_apply, Function.update_apply]
      simp [eq_comm]

theorem push_out {q : P} (hq : q ∉ p :: l) :
    (L.push p l.head?).next q = L.next q ∧ (L.push p l.head?).prev q = L.prev q := by
  have hqp : some p ≠ some q := fun heq => hq (Option.some.inj heq ▸ List.mem_cons_self)
  have hql : l.head? ≠ some q := fun heq => hq (List.mem_cons_of_mem p (List.mem_of_head? heq))
  unfold Links.push
  dsimp only
  constructor
  · rw [Links.setPrev_next, Links.setNext_next, if_neg hqp, Links.setPrev_next]
  · rw [Links.setPrev_prev, Links.setNext_next, if_pos rfl, if_neg hql, Links.setNext_prev, Links.setPrev_prev,
      if_neg hqp]

/-- Other lists stay as they are. -/
theorem push_other {l' : List P} (h' : Doubly L l') (hdisj : ∀ q ∈ l', q ∉ p :: l) :
    Doubly (L.push p l.head?) l' :=
  h'.congr (fun q hq => (push_out (hdisj q hq)).1) fun q hq => (push_out (hdisj q hq)).2

end Doubly

/-! ## Queues over one set of links -/

/-- The queues of a hash table: `first` is the table, and no node is in two of them. -/
structure Queues {ι : Type _} (L : Links P) (first : ι → Option P) (q : ι → List P) : Prop where
  linked : ∀ i, Doubly L (q i)
  start : ∀ i, first i = (q i).head?
  nodup : ∀ i, (q i).Nodup
  apart : ∀ i j p, p ∈ q i → p ∈ q j → i = j

namespace Queues

variable {ι : Type _} [DecidableEq P] [DecidableEq ι] {L : Links P} {first : ι → Option P} {q : ι → List P} {k : ι} {p : P}
  {l₁ l₂ : List P}

/-- A node leaves its queue; if it was the first one, the next node is that now. -/
theorem unlink (h : Queues L first q) (hq : q k = l₁ ++ p :: l₂) : Queues (L.unlink p)
    (if first k = some p then Function.update first k ((L.unlink p).next p) else first)
    (Function.update q k (l₁ ++ l₂)) := by
  have hlinked := h.linked k
  have hnodup := h.nodup k
  have hin : p ∈ q k := by
    rw [hq]
    simp
  rw [hq] at hlinked hnodup
  have hp : p ∉ l₁ := fun hp => (List.nodup_append.mp hnodup).2.2 p hp p List.mem_cons_self rfl
  have hmem : ∀ {i r}, r ∈ Function.update q k (l₁ ++ l₂) i → r ∈ q i := fun hr =>
    ((mem_removed hq (h.nodup k) fun i hi => h.apart i k p hi hin).mp hr).1
  refine ⟨fun i => ?_, fun i => ?_, nodup_removed hq h.nodup, fun i j r hi hj => h.apart i j r (hmem hi) (hmem hj)⟩
  · by_cases hik : i = k
    · rw [hik, Function.update_self]
      exact hlinked.unlink hnodup
    · rw [Function.update_of_ne hik]
      exact hlinked.unlink_other (h.linked i) fun r hr hr' => hik (h.apart i k r hr (hq ▸ hr'))
  · by_cases hik : i = k
    · rw [hik, Function.update_self, hlinked.head_unlink hp, h.start k, hq]
      split
      · rw [Function.update_self]
      · rw [h.start k, hq]
    · rw [Function.update_of_ne hik, ← h.start i]
      split
      · rw [Function.update_of_ne hik]
      · rfl

/-- A node that is in no queue becomes the first one. -/
theorem push (h : Queues L first q) (hp : ∀ i, p ∉ q i) :
    Queues (L.push p (first k)) (Function.update first k (some p)) (Function.update q k (p :: q k)) := by
  rw [h.start]
  refine ⟨fun i => ?_, fun i => ?_, nodup_added (hp k) h.nodup, fun i j r hi hj => ?_⟩
  · by_cases hik : i = k
    · rw [hik, Function.update_self]
      exact (h.linked k).push (h.nodup k) (hp k)
    · rw [Function.update_of_ne hik]
      refine Doubly.push_other (h.linked i) fun r hr hin => ?_
      rcases List.mem_cons.mp hin with rfl | hin
      · exact hp i hr
      · exact hik (h.apart i k r hr hin)
  · by_cases hik : i = k
    · rw [hik, Function.update_self, Function.update_self]
      rfl
    · rw [Function.update_of_ne hik, Function.update_of_ne hik]
      exact h.start i
  · rcases mem_added.mp hi with hi | ⟨rfl, rfl⟩ <;> rcases mem_added.mp hj with hj | ⟨hrp, hjk⟩
    · exact h.apart i j r hi hj
    · exact absurd (hrp ▸ hi) (hp i)
    · exact absurd hj (hp j)
    · exact hjk.symm

end Queues

end Linux011.Lib
