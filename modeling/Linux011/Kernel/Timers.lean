import Mathlib.Data.List.Perm.Subperm
import Linux011.Lib.Chain
import Linux011.Lib.Run

/-!
# Timers

`add_timer` and the timers of `do_timer` in `kernel/sched.c`. The entries of `timer_list` that are in use
form a list from `next_timer` on, in which each entry has the ticks that are left after the entry before it
is called. The functions are values of any type `F`.

`add_timer` moves the new entry down the list by swapping contents, and does not take its ticks from the
entry that follows it then. `fuel` bounds the turns of that loop.
-/

namespace Linux011.Kernel

def timeRequests : Nat := 64

/-- `struct timer_list`; the entry is free if it has no function. -/
structure Timer (F : Type _) where
  jiffies : Int
  fn : Option F
  next : Option Nat

structure Timers (F : Type _) where
  timer : Nat → Timer F
  nextTimer : Option Nat

namespace Timers

variable {F : Type _}

/-- The contents of the entries `p` and `q` change places, and the ticks of `q` are taken from those of
`p`. -/
def swap (s : Timers F) (p q : Nat) : Timers F :=
  let a := s.timer p
  let b := s.timer q
  { s with
    timer := Function.update (Function.update s.timer p { a with jiffies := b.jiffies, fn := b.fn })
      q { b with jiffies := a.jiffies - b.jiffies, fn := a.fn } }

/-- `while (p->next && p->next->jiffies < p->jiffies)` -/
def sink : (fuel : Nat) → Timers F → Nat → Option (Timers F)
  | 0, _, _ => none
  | fuel + 1, s, p =>
    match (s.timer p).next with
    | none => some s
    | some q => if (s.timer q).jiffies < (s.timer p).jiffies then sink fuel (s.swap p q) q else some s

/-- The entry `p` is put at the head. -/
def push (s : Timers F) (p : Nat) (jiffies : Int) (f : F) : Timers F where
  timer := Function.update s.timer p ⟨jiffies, some f, s.nextTimer⟩
  nextTimer := some p

def freeTimer (s : Timers F) : Option Nat :=
  (List.range timeRequests).find? fun p => (s.timer p).fn.isNone

/-- `add_timer`, with the function that it calls itself. -/
def addTimer (fuel : Nat) (s : Timers F) (jiffies : Int) (fn : Option F) :
    Option (Except String (Option F × Timers F)) :=
  match fn with
  | none => some (.ok (none, s))
  | some f =>
    if jiffies ≤ 0 then some (.ok (some f, s))
    else
      match s.freeTimer with
      | none => some (.error "No more time requests free")
      | some p => (sink fuel (s.push p jiffies f) p).map fun s => .ok (none, s)

/-- `next_timer->jiffies--`, if there is one -/
def countDown (s : Timers F) : Timers F :=
  match s.nextTimer with
  | none => s
  | some p =>
    { s with timer := Function.update s.timer p { s.timer p with jiffies := (s.timer p).jiffies - 1 } }

/-- One turn of the loop of `do_timer`, up to the call of the function. -/
def expire (s : Timers F) : Option (Option F × Timers F) :=
  match s.nextTimer with
  | none => none
  | some p =>
    if (s.timer p).jiffies ≤ 0 then
      some ((s.timer p).fn,
        { timer := Function.update s.timer p { s.timer p with fn := none }
          nextTimer := (s.timer p).next })
    else none

end Timers

/-- Outside `do_timer`, at the test of its loop, or in a function that it has called. -/
inductive TimerPhase where
  | idle
  | test
  | call
deriving DecidableEq

inductive TimerEvent (F : Type _) where
  | add (n : Int) (f : F)
  | tick
  | fire (f : F)
  | ret
  | done

namespace Timers

variable {F : Type _}

/-- Timers are added between the ticks, and by the functions that a tick calls. -/
inductive Step : Timers F × TimerPhase → TimerEvent F → Timers F × TimerPhase → Prop
  | add {s s' : Timers F} {ph : TimerPhase} {fuel : Nat} {n : Int} {f : F} (hn : 0 < n) (hph : ph ≠ .test)
      (h : s.addTimer fuel n (some f) = some (.ok (none, s'))) : Step (s, ph) (.add n f) (s', ph)
  | tick {s : Timers F} : Step (s, .idle) .tick (s.countDown, .test)
  | fire {s s' : Timers F} {f : F} (h : s.expire = some (some f, s')) : Step (s, .test) (.fire f) (s', .call)
  | ret {s : Timers F} : Step (s, .call) .ret (s, .test)
  | done {s : Timers F} (h : s.expire = none) : Step (s, .test) .done (s, .idle)

/-- `timer_list` and `next_timer` at the start. -/
def empty : Timers F := ⟨fun _ => ⟨0, none, none⟩, none⟩

end Timers

namespace TimerEvent

variable {F : Type _}

def isTick : TimerEvent F → Bool
  | .tick => true
  | _ => false

/-- The ticks so far. -/
def ticks (ls : List (TimerEvent F)) : Int := ls.countP isTick

/-- The functions that were added, with the ticks on which they are to be called. -/
def due (now : Int) : List (TimerEvent F) → List (Int × F)
  | [] => []
  | .add n f :: ls => (now + n, f) :: due now ls
  | .tick :: ls => due (now + 1) ls
  | _ :: ls => due now ls

/-- The functions that were called, with the ticks on which they were. -/
def called (now : Int) : List (TimerEvent F) → List (Int × F)
  | [] => []
  | .fire f :: ls => (now, f) :: called now ls
  | .tick :: ls => called (now + 1) ls
  | _ :: ls => called now ls

end TimerEvent

namespace Timers

variable {F : Type _} {s s' : Timers F}

/-! ## The list -/

/-- What `add_timer` does to the contents of the entries. -/
def insert (n : Int) (f : F) : List (Int × F) → List (Int × F)
  | [] => [(n, f)]
  | (d, g) :: l => if d < n then (d, g) :: insert (n - d) f l else (n, f) :: (d, g) :: l

/-- The entries `ps` are in use, in this order, and `l` are their contents. -/
structure Holds (s : Timers F) (ps : List Nat) (l : List (Int × F)) : Prop where
  chain : Lib.Chain (fun p => (s.timer p).next) s.nextTimer ps
  nodup : ps.Nodup
  bound : ∀ p ∈ ps, p < timeRequests
  contents : ps.map (fun p => ((s.timer p).jiffies, (s.timer p).fn)) = l.map fun e => (e.1, some e.2)
  free : ∀ p < timeRequests, p ∉ ps → (s.timer p).fn = none

theorem empty_holds : (empty : Timers F).Holds [] [] :=
  ⟨rfl, List.nodup_nil, fun _ h => (by cases h), rfl, fun _ _ _ => rfl⟩

theorem Holds.length {ps : List Nat} {l : List (Int × F)} (h : s.Holds ps l) : ps.length = l.length := by
  have hmap := congrArg List.length h.contents
  rwa [List.length_map, List.length_map] at hmap

theorem next_swap (p q r : Nat) : ((s.swap p q).timer r).next = (s.timer r).next := by
  unfold swap
  by_cases hrq : r = q
  · subst hrq
    simp
  · by_cases hrp : r = p
    · subst hrp
      simp [hrq]
    · simp [hrq, hrp]

theorem swap_of_ne {p q r : Nat} (hrp : r ≠ p) (hrq : r ≠ q) : (s.swap p q).timer r = s.timer r := by
  unfold swap
  simp [hrq, hrp]

theorem swap_left {p q : Nat} (hne : p ≠ q) :
    (s.swap p q).timer p = { s.timer p with jiffies := (s.timer q).jiffies, fn := (s.timer q).fn } := by
  unfold swap
  simp [hne]

theorem swap_right (p q : Nat) : (s.swap p q).timer q =
    { s.timer q with jiffies := (s.timer p).jiffies - (s.timer q).jiffies, fn := (s.timer p).fn } := by
  unfold swap
  simp

/-- The loop of `add_timer`, from the entry `p` on. -/
theorem sink_spec (qs : List Nat) : ∀ {l : List (Int × F)} {s : Timers F} {p fuel : Nat} {n : Int} {f : F},
    Lib.Chain (fun p => (s.timer p).next) (s.timer p).next qs → (p :: qs).Nodup →
    (s.timer p).jiffies = n → (s.timer p).fn = some f →
    qs.map (fun p => ((s.timer p).jiffies, (s.timer p).fn)) = l.map (fun e => (e.1, some e.2)) →
    qs.length < fuel →
    ∃ s', sink fuel s p = some s' ∧ s'.nextTimer = s.nextTimer ∧
      (∀ r, (s'.timer r).next = (s.timer r).next) ∧ (∀ r, r ∉ p :: qs → s'.timer r = s.timer r) ∧
      (p :: qs).map (fun p => ((s'.timer p).jiffies, (s'.timer p).fn)) =
        (insert n f l).map fun e => (e.1, some e.2) := by
  induction qs with
  | nil =>
    intro l s p fuel n f hchain _ hn hf hl hfuel
    obtain ⟨fuel, rfl⟩ := Nat.exists_eq_add_of_lt hfuel
    cases l with
    | cons e l => cases hl
    | nil =>
      have hnext : (s.timer p).next = none := hchain
      refine ⟨s, ?_, rfl, fun _ => rfl, fun _ _ => rfl, ?_⟩
      · simp only [sink, hnext]
      · simp [insert, hn, hf]
  | cons q qs ih =>
    intro l s p fuel n f hchain hnodup hn hf hl hfuel
    obtain ⟨fuel, rfl⟩ : ∃ k, fuel = k + 1 := Nat.exists_eq_add_one.mpr (by omega)
    obtain ⟨hnext, hchain⟩ := hchain
    cases l with
    | nil => cases hl
    | cons e l =>
      obtain ⟨d, g⟩ := e
      rw [List.map_cons, List.map_cons, List.cons.injEq, Prod.mk.injEq] at hl
      obtain ⟨⟨hd, hg⟩, hl⟩ := hl
      have hpq : q ≠ p := by
        rintro rfl
        simp at hnodup
      rw [List.nodup_cons] at hnodup
      rw [sink, hnext]
      dsimp only
      rw [hd, hn, insert]
      split
      · next hlt =>
        -- the contents change places, and the loop goes on from `q`
        have hq := swap_right (s := s) p q
        have hp := swap_left (s := s) (Ne.symm hpq)
        rw [hn, hd, hf] at hq
        rw [hd, hg] at hp
        have hnotin : p ∉ qs := fun h => hnodup.1 (List.mem_cons_of_mem q h)
        have hqnot : q ∉ qs := (List.nodup_cons.mp hnodup.2).1
        have hfuel : qs.length < fuel := Nat.lt_of_succ_lt_succ hfuel
        have hchain' : Lib.Chain (fun r => ((s.swap p q).timer r).next) ((s.swap p q).timer q).next qs := by
          rw [next_swap]
          exact hchain.congr fun r _ => next_swap p q r
        have hl' : qs.map (fun r => (((s.swap p q).timer r).jiffies, ((s.swap p q).timer r).fn)) =
            l.map fun e => (e.1, some e.2) := by
          rw [← hl]
          refine List.map_congr_left fun r hr => ?_
          have hrp : r ≠ p := fun h => hnotin (h ▸ hr)
          have hrq : r ≠ q := fun h => hqnot (h ▸ hr)
          rw [swap_of_ne hrp hrq]
        obtain ⟨s', hs', hhead, hnexts, hothers, hcontents⟩ :=
          ih hchain' hnodup.2 (congrArg Timer.jiffies hq) (congrArg Timer.fn hq) hl' hfuel
        refine ⟨s', hs', hhead, fun r => (hnexts r).trans (next_swap p q r), fun r hr => ?_, ?_⟩
        · rw [List.mem_cons, List.mem_cons, not_or, not_or] at hr
          rw [hothers r (by simp [hr.2.1, hr.2.2]), swap_of_ne hr.1 hr.2.1]
        · rw [List.map_cons, hcontents, hothers p hnodup.1, hp, List.map_cons]
      · refine ⟨s, rfl, rfl, fun _ => rfl, fun _ _ => rfl, ?_⟩
        rw [List.map_cons, List.map_cons, List.map_cons, List.map_cons, hl, hd, hg, hn, hf]

theorem sink_mono {fuel fuel' p : Nat} (h : sink fuel s p = some s') (hle : fuel ≤ fuel') :
    sink fuel' s p = some s' := by
  induction fuel generalizing fuel' s p with
  | zero => cases h
  | succ fuel ih =>
    obtain ⟨fuel', rfl⟩ : ∃ k, fuel' = k + 1 := Nat.exists_eq_add_one.mpr (by omega)
    rw [sink] at h ⊢
    cases hnext : (s.timer p).next with
    | none =>
      rw [hnext] at h
      exact h
    | some q =>
      rw [hnext] at h
      dsimp only at h ⊢
      split at h
      · next hlt =>
        rw [if_pos hlt]
        exact ih h (Nat.le_of_succ_le_succ hle)
      · next hge =>
        rw [if_neg hge]
        exact h

theorem Holds.used {ps : List Nat} {l : List (Int × F)} (h : s.Holds ps l) {p : Nat} (hp : p ∈ ps) :
    ∃ f, (s.timer p).fn = some f := by
  have hmem : ((s.timer p).jiffies, (s.timer p).fn) ∈ l.map fun e => (e.1, some e.2) := by
    rw [← h.contents]
    exact List.mem_map_of_mem hp
  obtain ⟨e, -, he⟩ := List.mem_map.mp hmem
  exact ⟨e.2, (congrArg Prod.snd he).symm⟩

/-- An entry that is found free is free. -/
theorem Holds.found {ps : List Nat} {l : List (Int × F)} (h : s.Holds ps l) {p : Nat}
    (hp : s.freeTimer = some p) : p < timeRequests ∧ p ∉ ps := by
  refine ⟨List.mem_range.mp (List.mem_of_find?_eq_some hp), fun hin => ?_⟩
  obtain ⟨f, hf⟩ := h.used hin
  have hfree := List.find?_some hp
  rw [hf] at hfree
  cases hfree

theorem Holds.found_of_lt {ps : List Nat} {l : List (Int × F)} (h : s.Holds ps l)
    (hl : l.length < timeRequests) : ∃ p, s.freeTimer = some p := by
  cases hfind : s.freeTimer with
  | some p => exact ⟨p, rfl⟩
  | none =>
    -- all entries are in use
    have hall : ∀ p ∈ List.range timeRequests, p ∈ ps := by
      intro p hp
      by_contra hnot
      have hfree := h.free p (List.mem_range.mp hp) hnot
      have hused := List.find?_eq_none.mp hfind p hp
      rw [hfree] at hused
      exact hused rfl
    have hle := (List.subperm_of_subset List.nodup_range hall).length_le
    rw [List.length_range, h.length] at hle
    omega

/-- `add_timer` with a free entry. -/
theorem Holds.add {ps : List Nat} {l : List (Int × F)} (h : s.Holds ps l) {n : Int} (hn : 0 < n) (f : F)
    {p : Nat} (hp : s.freeTimer = some p) :
    ∃ s', (∀ fuel, timeRequests ≤ fuel → s.addTimer fuel n (some f) = some (.ok (none, s'))) ∧
      s'.Holds (p :: ps) (insert n f l) := by
  obtain ⟨hlt, hnot⟩ := h.found hp
  have hnodup : (p :: ps).Nodup := List.nodup_cons.mpr ⟨hnot, h.nodup⟩
  have hother : ∀ r, r ≠ p → (s.push p n f).timer r = s.timer r := fun r hr => Function.update_of_ne hr ..
  have hself : (s.push p n f).timer p = ⟨n, some f, s.nextTimer⟩ := Function.update_self ..
  have hin : ∀ r ∈ ps, (s.push p n f).timer r = s.timer r := fun r hr => hother r fun heq => hnot (heq ▸ hr)
  have hchain : Lib.Chain (fun r => ((s.push p n f).timer r).next) ((s.push p n f).timer p).next ps := by
    rw [hself]
    exact h.chain.congr fun r hr => congrArg Timer.next (hin r hr)
  have hlength : ps.length < timeRequests := by
    have hsub : p :: ps ⊆ List.range timeRequests := by
      intro r hr
      rcases List.mem_cons.mp hr with rfl | hr
      · exact List.mem_range.mpr hlt
      · exact List.mem_range.mpr (h.bound r hr)
    have hle := (List.subperm_of_subset hnodup hsub).length_le
    rw [List.length_range, List.length_cons] at hle
    exact hle
  obtain ⟨s', hs', hhead, hnexts, hothers, hcontents⟩ := sink_spec ps hchain hnodup
    (congrArg Timer.jiffies hself) (congrArg Timer.fn hself) (l := l)
    (by rw [← h.contents]; exact List.map_congr_left fun r hr => by rw [hin r hr]) hlength
  refine ⟨s', fun fuel hfuel => ?_, ?_, hnodup, ?_, hcontents, fun r hr hout => ?_⟩
  · unfold addTimer
    dsimp only
    rw [if_neg (by omega), hp]
    dsimp only
    rw [sink_mono hs' hfuel]
    rfl
  · rw [hhead]
    refine ⟨rfl, ?_⟩
    show Lib.Chain _ (s'.timer p).next ps
    rw [hnexts]
    exact hchain.congr fun r _ => hnexts r
  · intro r hr
    rcases List.mem_cons.mp hr with rfl | hr
    · exact hlt
    · exact h.bound r hr
  · have hne := not_or.mp (mt List.mem_cons.mpr hout)
    rw [hothers r hout, hother r hne.1]
    exact h.free r hr hne.2

/-- What `add_timer` leaves, however much fuel it has. -/
theorem Holds.added {ps : List Nat} {l : List (Int × F)} (h : s.Holds ps l) {fuel : Nat} {n : Int} (hn : 0 < n) {f : F}
    (hadd : s.addTimer fuel n (some f) = some (.ok (none, s'))) : ∃ p, s'.Holds (p :: ps) (insert n f l) := by
  cases hfree : s.freeTimer with
  | none =>
    unfold addTimer at hadd
    rw [hfree] at hadd
    dsimp only at hadd
    rw [if_neg (by omega)] at hadd
    cases hadd
  | some p =>
    obtain ⟨s₁, hs₁, hholds₁⟩ := h.add hn f hfree
    have heq : s' = s₁ := by
      have hmore := hs₁ (fuel + timeRequests) (Nat.le_add_left ..)
      unfold addTimer at hadd hmore
      rw [hfree] at hadd hmore
      dsimp only at hadd hmore
      rw [if_neg (by omega)] at hadd hmore
      obtain ⟨s₂, hs₂, hok⟩ := Option.map_eq_some_iff.mp hadd
      rw [sink_mono hs₂ (Nat.le_add_right ..)] at hmore
      cases hok
      cases hmore
      rfl
    exact ⟨p, heq ▸ hholds₁⟩

/-- The countdown of the first entry. -/
theorem Holds.countDown {ps : List Nat} {l : List (Int × F)} (h : s.Holds ps l) :
    s.countDown.Holds ps (match l with | [] => [] | (d, f) :: l => (d - 1, f) :: l) := by
  cases ps with
  | nil =>
    cases l with
    | cons e l => cases h.contents
    | nil =>
      have hnone : s.nextTimer = none := h.chain
      unfold Timers.countDown
      rw [hnone]
      exact h
  | cons p ps =>
    cases l with
    | nil => cases h.contents
    | cons e l =>
      obtain ⟨hhead, hchain⟩ := h.chain
      have hcontents := h.contents
      rw [List.map_cons, List.map_cons, List.cons.injEq, Prod.mk.injEq] at hcontents
      obtain ⟨⟨hd, hf⟩, hl⟩ := hcontents
      have hnot := (List.nodup_cons.mp h.nodup).1
      have hdown : s.countDown = { s with
          timer := Function.update s.timer p { s.timer p with jiffies := (s.timer p).jiffies - 1 } } := by
        unfold Timers.countDown
        rw [hhead]
      generalize hs' : s.countDown = s' at hdown
      have hself : s'.timer p = { s.timer p with jiffies := (s.timer p).jiffies - 1 } := by
        rw [hdown]
        exact Function.update_self ..
      have hother : ∀ r, r ≠ p → s'.timer r = s.timer r := by
        intro r hr
        rw [hdown]
        exact Function.update_of_ne hr ..
      have hin : ∀ r ∈ ps, s'.timer r = s.timer r := fun r hr => hother r fun heq => hnot (heq ▸ hr)
      refine ⟨⟨?_, ?_⟩, h.nodup, h.bound, ?_, fun r hr hout => ?_⟩
      · rw [hdown]
        exact hhead
      · show Lib.Chain _ (s'.timer p).next ps
        rw [hself]
        exact hchain.congr fun r hr => congrArg Timer.next (hin r hr)
      · rw [List.map_cons, List.map_cons, hself, hd, hf, ← hl]
        refine congrArg _ (List.map_congr_left fun r hr => ?_)
        rw [hin r hr]
      · rw [hother r (not_or.mp (mt List.mem_cons.mpr hout)).1]
        exact h.free r hr hout

/-- The loop of `do_timer` ends, or takes the first entry off the list. -/
theorem Holds.expire {ps : List Nat} {l : List (Int × F)} (h : s.Holds ps l) :
    (s.expire = none ∧ ∀ d f l', l = (d, f) :: l' → 0 < d) ∨
    ∃ p ps' d f l' s', ps = p :: ps' ∧ l = (d, f) :: l' ∧ d ≤ 0 ∧ s.expire = some (some f, s') ∧
      s'.Holds ps' l' := by
  cases ps with
  | nil =>
    cases l with
    | cons e l => cases h.contents
    | nil =>
      have hnone : s.nextTimer = none := h.chain
      refine .inl ⟨?_, fun d f l' hl => by cases hl⟩
      unfold Timers.expire
      rw [hnone]
  | cons p ps =>
    cases l with
    | nil => cases h.contents
    | cons e l =>
      obtain ⟨d, f⟩ := e
      obtain ⟨hhead, hchain⟩ := h.chain
      have hcontents := h.contents
      rw [List.map_cons, List.map_cons, List.cons.injEq, Prod.mk.injEq] at hcontents
      obtain ⟨⟨hd, hf⟩, hl⟩ := hcontents
      obtain ⟨hnot, hnodup⟩ := List.nodup_cons.mp h.nodup
      by_cases hle : d ≤ 0
      · -- the first entry is due, and leaves the list
        refine .inr ⟨p, ps, d, f, l, { timer := Function.update s.timer p { s.timer p with fn := none }, nextTimer := (s.timer p).next },
          rfl, rfl, hle, ?_, ?_⟩
        · unfold Timers.expire
          rw [hhead]
          dsimp only
          rw [if_pos (le_of_eq_of_le hd hle), hf]
        · have hother : ∀ r, r ≠ p →
              Function.update s.timer p { s.timer p with fn := none } r = s.timer r :=
            fun r hr => Function.update_of_ne hr ..
          have hin : ∀ r ∈ ps, Function.update s.timer p { s.timer p with fn := none } r = s.timer r :=
            fun r hr => hother r fun heq => hnot (heq ▸ hr)
          refine ⟨?_, hnodup, fun r hr => h.bound r (List.mem_cons_of_mem p hr), ?_, fun r hr hout => ?_⟩
          · exact hchain.congr fun r hr => congrArg Timer.next (hin r hr)
          · rw [← hl]
            refine List.map_congr_left fun r hr => ?_
            dsimp only
            rw [hin r hr]
          · by_cases hrp : r = p
            · subst hrp
              show (Function.update s.timer r { s.timer r with fn := none } r).fn = none
              rw [Function.update_self]
            · show (Function.update s.timer p { s.timer p with fn := none } r).fn = none
              rw [hother r hrp]
              refine h.free r hr fun hin => ?_
              rcases List.mem_cons.mp hin with heq | hin
              · exact hrp heq
              · exact hout hin
      · refine .inl ⟨?_, fun d' f' l' heq => ?_⟩
        · unfold Timers.expire
          rw [hhead]
          dsimp only
          rw [if_neg (by rw [hd]; exact hle)]
        · cases heq
          omega

end Timers

/-! ## Due times -/

namespace TimerEvent

variable {F : Type _}

theorem ticks_snoc (ls : List (TimerEvent F)) (e : TimerEvent F) :
    ticks (ls ++ [e]) = ticks ls + if e.isTick then 1 else 0 := by
  unfold ticks
  rw [List.countP_append, List.countP_singleton]
  split <;> simp

theorem ticks_cons (ls : List (TimerEvent F)) (e : TimerEvent F) :
    ticks (e :: ls) = ticks ls + if e.isTick then 1 else 0 := by
  unfold ticks
  rw [List.countP_cons]
  split <;> simp

theorem due_snoc (ls : List (TimerEvent F)) (e : TimerEvent F) (now : Int) :
    due now (ls ++ [e]) = due now ls ++ due (now + ticks ls) [e] := by
  induction ls generalizing now with
  | nil => simp [ticks, due]
  | cons a ls ih =>
    rw [ticks_cons]
    cases a <;> simp [due, ih, isTick, Int.add_assoc, Int.add_comm]

theorem called_snoc (ls : List (TimerEvent F)) (e : TimerEvent F) (now : Int) :
    called now (ls ++ [e]) = called now ls ++ called (now + ticks ls) [e] := by
  induction ls generalizing now with
  | nil => simp [ticks, called]
  | cons a ls ih =>
    rw [ticks_cons]
    cases a <;> simp [called, ih, isTick, Int.add_assoc, Int.add_comm]

end TimerEvent

namespace Timers

variable {F : Type _} {s s' : Timers F}

open TimerEvent

/-- The contents of the list, with the ticks on which they will be called. -/
def dues (now : Int) : List (Int × F) → List (Int × F)
  | [] => []
  | (d, f) :: l => (now + d, f) :: dues (now + d) l

/-- A timer that goes last is called when it is due, and so are the others. -/
theorem dues_insert {now n : Int} {f : F} {l : List (Int × F)} (hlast : ∀ e ∈ dues now l, e.1 < now + n) :
    dues now (insert n f l) = dues now l ++ [(now + n, f)] := by
  induction l generalizing now n with
  | nil => rfl
  | cons e l ih =>
    obtain ⟨d, g⟩ := e
    have hd : now + d < now + n := hlast _ List.mem_cons_self
    have hsum : now + d + (n - d) = now + n := by omega
    rw [insert, if_pos (by omega), dues, dues, List.cons_append, ih, hsum]
    intro e he
    rw [hsum]
    exact hlast e (List.mem_cons_of_mem _ he)

theorem insert_pos {n : Int} {f : F} {l : List (Int × F)} (hn : 0 < n) (hpos : ∀ e ∈ l, 0 < e.1) :
    ∀ e ∈ insert n f l, 0 < e.1 := by
  induction l generalizing n with
  | nil => simpa [insert] using hn
  | cons e l ih =>
    rw [insert]
    split
    · next hlt =>
      have hrest := ih (n := n - e.1) (by omega) fun e he => hpos e (List.mem_cons_of_mem _ he)
      intro x hx
      rcases List.mem_cons.mp hx with rfl | hx
      · exact hpos _ List.mem_cons_self
      · exact hrest x hx
    · intro x hx
      rcases List.mem_cons.mp hx with rfl | hx
      · exact hn
      · exact hpos x hx

/-- What is pending has ticks to go, but for the first timer at the test of the loop. -/
def Ahead (ph : TimerPhase) (l : List (Int × F)) : Prop :=
  match ph, l with
  | .test, e :: l => 0 ≤ e.1 ∧ ∀ e ∈ l, 0 < e.1
  | _, l => ∀ e ∈ l, 0 < e.1

theorem ahead_of_pos {ph : TimerPhase} {l : List (Int × F)} (hpos : ∀ e ∈ l, 0 < e.1) : Ahead ph l := by
  cases l with
  | nil => cases ph <;> exact fun e he => (by cases he)
  | cons e l =>
    cases ph with
    | test => exact ⟨Int.le_of_lt (hpos e List.mem_cons_self), fun e he => hpos e (List.mem_cons_of_mem _ he)⟩
    | idle => exact hpos
    | call => exact hpos

theorem Ahead.pos {ph : TimerPhase} {l : List (Int × F)} (h : Ahead ph l) (hph : ph ≠ .test) :
    ∀ e ∈ l, 0 < e.1 := by
  cases ph with
  | test => exact absurd rfl hph
  | idle => exact h
  | call => exact h

/-- The calls that were made, and those that the list still holds, are the ones that are due. -/
def Tracks (ls : List (TimerEvent F)) (s : Timers F) (ph : TimerPhase) : Prop :=
  ∃ ps l, s.Holds ps l ∧ Ahead ph l ∧ (called 0 ls ++ dues (ticks ls) l).Perm (due 0 ls)

/-- Each timer is due later than all timers that were added before it. -/
def Later (ls : List (TimerEvent F)) : Prop := (due 0 ls).Pairwise fun a b => a.1 < b.1

theorem Tracks.add {ls : List (TimerEvent F)} {ph : TimerPhase} {fuel : Nat} {n : Int} {f : F}
    (h : Tracks ls s ph) (hlater : Later (ls ++ [.add n f])) (hn : 0 < n) (hph : ph ≠ .test)
    (hadd : s.addTimer fuel n (some f) = some (.ok (none, s'))) : Tracks (ls ++ [.add n f]) s' ph := by
  obtain ⟨ps, l, hholds, hahead, hperm⟩ := h
  have hticks : ticks (ls ++ [TimerEvent.add n f]) = ticks ls := by
    rw [ticks_snoc]
    exact Int.add_zero _
  have hcalled : called 0 (ls ++ [TimerEvent.add n f]) = called 0 ls := by
    rw [called_snoc]
    exact List.append_nil _
  have hdue : due 0 (ls ++ [TimerEvent.add n f]) = due 0 ls ++ [(ticks ls + n, f)] := by
    rw [due_snoc, Int.zero_add]
    rfl
  obtain ⟨p, hholds₁⟩ := hholds.added hn hadd
  unfold Later at hlater
  rw [hdue, List.pairwise_append] at hlater
  have hlast : ∀ e ∈ dues (ticks ls) l, e.1 < ticks ls + n := by
    intro e he
    have hmem : e ∈ due 0 ls := hperm.mem_iff.mp (List.mem_append_right _ he)
    exact hlater.2.2 e hmem _ List.mem_cons_self
  refine ⟨_, _, hholds₁, ahead_of_pos (insert_pos hn (hahead.pos hph)), ?_⟩
  rw [hticks, hcalled, hdue, dues_insert hlast, ← List.append_assoc]
  exact hperm.append_right _

theorem Tracks.step {ls : List (TimerEvent F)} {e : TimerEvent F} {ph ph' : TimerPhase} (h : Tracks ls s ph)
    (hlater : Later (ls ++ [e])) (hst : Step (s, ph) e (s', ph')) : Tracks (ls ++ [e]) s' ph' := by
  cases hst with
  | add hn hph hadd => exact h.add hlater hn hph hadd
  | tick =>
    -- the first entry loses the tick that the clock has gained
    obtain ⟨ps, l, hholds, hahead, hperm⟩ := h
    have hpos := hahead.pos (by decide)
    refine ⟨ps, _, hholds.countDown, ?_, ?_⟩
    · cases l with
      | nil => exact fun e he => by cases he
      | cons e l =>
        have hd := hpos e List.mem_cons_self
        exact ⟨by show 0 ≤ e.1 - 1; omega, fun e he => hpos e (List.mem_cons_of_mem _ he)⟩
    · rw [ticks_snoc, called_snoc, due_snoc]
      show (called 0 ls ++ [] ++ dues (ticks ls + 1) _).Perm (due 0 ls ++ [])
      rw [List.append_nil, List.append_nil]
      cases l with
      | nil => exact hperm
      | cons e l =>
        have hsame : ticks ls + 1 + (e.1 - 1) = ticks ls + e.1 := by omega
        dsimp only
        rw [dues, hsame]
        exact hperm
  | fire hex =>
    -- an entry moves from those that are due to those that were called
    obtain ⟨ps, l, hholds, hahead, hperm⟩ := h
    rcases hholds.expire with ⟨hnone, -⟩ | ⟨p, ps', d, f, l', s₁, rfl, rfl, hd, hfire, hholds₁⟩
    · rw [hnone] at hex
      cases hex
    · rw [hfire] at hex
      cases hex
      obtain ⟨hd', hpos⟩ := hahead
      have hzero : d = 0 := Int.le_antisymm hd hd'
      refine ⟨ps', l', hholds₁, hpos, ?_⟩
      rw [ticks_snoc, called_snoc, due_snoc]
      show (called 0 ls ++ [(0 + ticks ls, _)] ++ dues (ticks ls + 0) l').Perm (due 0 ls ++ [])
      rw [hzero, dues, Int.add_zero] at hperm
      rw [Int.zero_add, Int.add_zero, List.append_nil, List.append_assoc]
      exact hperm
  | ret =>
    obtain ⟨ps, l, hholds, hahead, hperm⟩ := h
    refine ⟨ps, l, hholds, ahead_of_pos (hahead.pos (by decide)), ?_⟩
    rw [ticks_snoc, called_snoc, due_snoc]
    show (called 0 ls ++ [] ++ dues (ticks ls + 0) l).Perm (due 0 ls ++ [])
    rw [List.append_nil, List.append_nil, Int.add_zero]
    exact hperm
  | done hex =>
    obtain ⟨ps, l, hholds, hahead, hperm⟩ := h
    rcases hholds.expire with ⟨-, hd⟩ | ⟨p, ps', d, f, l', s₁, rfl, rfl, hd, hfire, hholds₁⟩
    · refine ⟨ps, l, hholds, ?_, ?_⟩
      · cases l with
        | nil => exact hahead
        | cons e l =>
          intro x hx
          rcases List.mem_cons.mp hx with rfl | hx
          · exact hd _ _ _ rfl
          · exact hahead.2 x hx
      · rw [ticks_snoc, called_snoc, due_snoc]
        show (called 0 ls ++ [] ++ dues (ticks ls + 0) l).Perm (due 0 ls ++ [])
        rw [List.append_nil, List.append_nil, Int.add_zero]
        exact hperm
    · rw [hfire] at hex
      cases hex

/-- What `add_timer` leaves. -/
def added (s : Timers F) (n : Int) (f : F) : Timers F :=
  match s.addTimer timeRequests n (some f) with
  | some (.ok (_, s')) => s'
  | _ => s

/-- What a turn of the loop of `do_timer` leaves. -/
def expired (s : Timers F) : Timers F :=
  match s.expire with
  | some (_, s') => s'
  | none => s

def one : Timers Bool := empty.added 2 true

def two : Timers Bool := one.added 1 false

def ticked : Timers Bool := two.countDown.expired

/-- The function of the first timer adds the third one. -/
def three : Timers Bool := ((empty.added 1 false).added 3 true).countDown.expired.added 3 false

theorem run_three : Lib.Run Step ((empty : Timers Bool), .idle)
    ([] ++ [.add 1 false] ++ [.add 3 true] ++ [.tick] ++ [.fire false] ++ [.add 3 false] ++ [.ret] ++ [.done] ++
      [.tick] ++ [.done] ++ [.tick] ++ [.fire true]) (three.countDown.countDown.expired, .call) := by
  have hone : empty.addTimer timeRequests 1 (some false) = some (.ok (none, empty.added 1 false)) := rfl
  have htwo : (empty.added 1 false).addTimer timeRequests 3 (some true) =
    some (.ok (none, (empty.added 1 false).added 3 true)) := rfl
  have hfire : ((empty.added 1 false).added 3 true).countDown.expire =
    some (some false, ((empty.added 1 false).added 3 true).countDown.expired) := rfl
  have hthree : ((empty.added 1 false).added 3 true).countDown.expired.addTimer timeRequests 3 (some false) =
    some (.ok (none, three)) := rfl
  have hdone : three.expire = none := rfl
  have hdone' : three.countDown.expire = none := rfl
  have hlast : three.countDown.countDown.expire = some (some true, three.countDown.countDown.expired) := rfl
  have hadded : Lib.Run Step ((empty : Timers Bool), .idle) ([] ++ [.add 1 false] ++ [.add 3 true])
      ((empty.added 1 false).added 3 true, .idle) :=
    .snoc (.snoc .nil (.add (by decide) (by decide) hone)) (.add (by decide) (by decide) htwo)
  have hcalled := (hadded.snoc .tick).snoc (.fire hfire)
  have htick := ((hcalled.snoc (.add (by decide) (by decide) hthree)).snoc .ret).snoc (.done hdone)
  exact (((htick.snoc .tick).snoc (.done hdone')).snoc .tick).snoc (.fire hlast)

end Timers

end Linux011.Kernel
