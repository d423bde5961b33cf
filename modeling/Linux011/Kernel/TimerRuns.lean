import Linux011.Kernel.Timers

/-!
# Timers and interrupts

`add_timer` ends with `sti`, also in a function that `do_timer` calls. The next tick can then come before that
function returns, and later between any two statements of the outer `do_timer`. `frames` are what runs above
the task, innermost first; `ints` is the interrupt flag.

The loop of `do_timer` goes step by step, one access to the list a step. Where it uses `next_timer` again it
may also read it again.
-/

namespace Linux011.Kernel

/-- `do_timer` at the test of its loop, behind the two reads of the test, and behind each access of the three
statements; a function that the loop has called, one that `add_timer` has called at once, and the handler of
another interrupt. -/
inductive TimerFrame (F : Type _) where
  | test
  | head (p : Nat)
  | due (p : Nat)
  | got (p : Nat) (fn : Option F)
  | cleared (p : Nat) (fn : Option F)
  | tail (next : Option Nat) (fn : Option F)
  | calling (fn : Option F)
  | call
  | direct
  | irq

structure TimerState (F : Type _) where
  timers : Timers F
  ints : Bool
  frames : List (TimerFrame F)

/-- `null` is the call of a function, or the use of an entry, at address 0. -/
inductive TimerAct (F : Type _) where
  | add (n : Int) (fn : Option F)
  | tick
  | fire (f : F)
  | null
  | other

namespace TimerFrame

variable {F : Type _}

/-- The loop of `do_timer` is not what runs. -/
def runs : TimerFrame F → Bool
  | call | direct | irq => true
  | _ => false

/-- The loop works on an entry. -/
def works : TimerFrame F → Bool
  | head _ | due _ | got .. | cleared .. => true
  | _ => false

/-- The loop with another value of `next_timer`. -/
def reload (q : Nat) : TimerFrame F → TimerFrame F
  | head _ => head q
  | due _ => due q
  | got _ fn => got q fn
  | cleared _ fn => cleared q fn
  | fr => fr

/-- The loop is between `next_timer->fn = NULL` and the call. -/
def takes : TimerFrame F → Bool
  | cleared .. | tail .. | calling _ => true
  | _ => false

/-- The function that the loop has taken off the list and not called yet. -/
def held : TimerFrame F → Option F
  | cleared _ fn | tail _ fn | calling fn => fn
  | _ => none

end TimerFrame

namespace TimerState

variable {F : Type _}

/-- A task, a handler or a timer function runs. -/
def Runs (s : TimerState F) : Prop := ∀ fr ∈ s.frames.head?, fr.runs = true

/-- `next_timer->fn = NULL` -/
def clear (t : Timers F) (p : Nat) : Timers F :=
  { t with timer := Function.update t.timer p { t.timer p with fn := none } }

/-- A step of the loop of `do_timer`. -/
inductive Loop : Timers F → TimerFrame F → TimerAct F → Timers F → TimerFrame F → Prop
  | read {t : Timers F} {p : Nat} (h : t.nextTimer = some p) : Loop t .test .other t (.head p)
  | due {t : Timers F} {p : Nat} (h : (t.timer p).jiffies ≤ 0) : Loop t (.head p) .other t (.due p)
  | get {t : Timers F} {p : Nat} : Loop t (.due p) .other t (.got p (t.timer p).fn)
  | clear {t : Timers F} {p : Nat} {fn : Option F} : Loop t (.got p fn) .other (clear t p) (.cleared p fn)
  | next {t : Timers F} {p : Nat} {fn : Option F} :
      Loop t (.cleared p fn) .other t (.tail (t.timer p).next fn)
  | advance {t : Timers F} {next : Option Nat} {fn : Option F} :
      Loop t (.tail next fn) .other { t with nextTimer := next } (.calling fn)
  | fire {t : Timers F} {f : F} : Loop t (.calling (some f)) (.fire f) t .call
  | wild {t : Timers F} : Loop t (.calling none) .null t (.calling none)
  | reload {t : Timers F} {fr : TimerFrame F} {q : Nat} (hfr : fr.works = true) (h : t.nextTimer = some q) :
      Loop t fr .other t (fr.reload q)
  | fault {t : Timers F} {fr : TimerFrame F} (hfr : fr.works = true) (h : t.nextTimer = none) :
      Loop t fr .null t fr

/-- The test ends the loop. -/
inductive Ends : Timers F → TimerFrame F → Prop
  | empty {t : Timers F} (h : t.nextTimer = none) : Ends t .test
  | ahead {t : Timers F} {p : Nat} (h : 0 < (t.timer p).jiffies) : Ends t (.head p)

/-- Tasks, handlers and timer functions run between the steps of `do_timer`: they add timers and change the
interrupt flag. -/
inductive Step : TimerState F → TimerAct F → TimerState F → Prop
  | add {s : TimerState F} {timers : Timers F} {fuel : Nat} {n : Int} {f : F} (hrun : s.Runs)
      (h : s.timers.addTimer fuel n (some f) = some (.ok (none, timers))) :
      Step s (.add n (some f)) ⟨timers, true, s.frames⟩
  | direct {s : TimerState F} {timers : Timers F} {fuel : Nat} {n : Int} {f : F} (hrun : s.Runs)
      (h : s.timers.addTimer fuel n (some f) = some (.ok (some f, timers))) :
      Step s (.add n (some f)) ⟨timers, false, .direct :: s.frames⟩
  | null {s : TimerState F} {n : Int} (hrun : s.Runs) : Step s (.add n none) s
  | flag {s : TimerState F} (hrun : s.Runs) (ints : Bool) : Step s .other { s with ints }
  | tick {s : TimerState F} (hints : s.ints = true) :
      Step s .tick ⟨s.timers.countDown, false, .test :: s.frames⟩
  | irq {s : TimerState F} (hints : s.ints = true) : Step s .other ⟨s.timers, false, .irq :: s.frames⟩
  | loop {t t' : Timers F} {ints : Bool} {fr fr' : TimerFrame F} {frames : List (TimerFrame F)}
      {e : TimerAct F} (h : Loop t fr e t' fr') : Step ⟨t, ints, fr :: frames⟩ e ⟨t', ints, fr' :: frames⟩
  | done {t : Timers F} {ints : Bool} {fr : TimerFrame F} {frames : List (TimerFrame F)} (h : Ends t fr) :
      Step ⟨t, ints, fr :: frames⟩ .other ⟨t, true, frames⟩
  | retCall {t : Timers F} {ints : Bool} {frames : List (TimerFrame F)} :
      Step ⟨t, ints, .call :: frames⟩ .other ⟨t, ints, .test :: frames⟩
  | retDirect {t : Timers F} {ints : Bool} {frames : List (TimerFrame F)} :
      Step ⟨t, ints, .direct :: frames⟩ .other ⟨t, true, frames⟩
  | retIrq {t : Timers F} {ints : Bool} {frames : List (TimerFrame F)} :
      Step ⟨t, ints, .irq :: frames⟩ .other ⟨t, true, frames⟩

def start (ints : Bool) : TimerState F := ⟨.empty, ints, []⟩

/-- No tick runs down an entry that a loop has read from `next_timer` and not looked at. -/
def Calm (s : TimerState F) : TimerAct F → Prop
  | .tick => ∀ p, .head p ∈ s.frames → s.timers.nextTimer = some p → 1 < (s.timers.timer p).jiffies
  | _ => True

/-- No loop is between the clearing of an entry and the call. -/
def Settled (s : TimerState F) : Prop := ∀ fr ∈ s.frames, fr.takes = false

/-- The functions that were taken off the list and not called yet. -/
def held (s : TimerState F) : List F := s.frames.filterMap TimerFrame.held

end TimerState

namespace TimerAct

variable {F : Type _}

/-- The functions that `add_timer` was given. -/
def addedBy : TimerAct F → Option F
  | .add _ fn => fn
  | _ => none

/-- The functions that were called, by `do_timer` or by `add_timer` itself. -/
def calledBy : TimerAct F → Option F
  | .add n fn => if n ≤ 0 then fn else none
  | .fire f => some f
  | _ => none

def added (ls : List (TimerAct F)) : List F := ls.filterMap addedBy

def called (ls : List (TimerAct F)) : List F := ls.filterMap calledBy

theorem added_snoc (ls : List (TimerAct F)) (e : TimerAct F) :
    added (ls ++ [e]) = added ls ++ e.addedBy.toList := by
  unfold added
  rw [List.filterMap_append]
  cases h : e.addedBy <;> simp [h]

theorem called_snoc (ls : List (TimerAct F)) (e : TimerAct F) :
    called (ls ++ [e]) = called ls ++ e.calledBy.toList := by
  unfold called
  rw [List.filterMap_append]
  cases h : e.calledBy <;> simp [h]

end TimerAct

namespace Timers

variable {F : Type _} {s s' : Timers F}

/-- The functions change places, and none gets lost. -/
theorem insert_perm (n : Int) (f : F) (l : List (Int × F)) :
    ((insert n f l).map Prod.snd).Perm (f :: l.map Prod.snd) := by
  induction l generalizing n with
  | nil => exact .refl _
  | cons e l ih =>
    rw [insert]
    split
    · exact ((ih (n - e.1)).cons e.2).trans (List.Perm.swap ..)
    · exact .refl _

theorem addTimer_none {fuel : Nat} {n : Int} {f : F}
    (h : s.addTimer fuel n (some f) = some (.ok (none, s'))) : 0 < n := by
  by_contra hle
  unfold addTimer at h
  dsimp only at h
  rw [if_pos (Int.not_lt.mp hle)] at h
  cases h

theorem addTimer_some {fuel : Nat} {n : Int} {f : F}
    (h : s.addTimer fuel n (some f) = some (.ok (some f, s'))) : n ≤ 0 ∧ s' = s := by
  unfold addTimer at h
  dsimp only at h
  split at h
  · next hle =>
    cases h
    exact ⟨hle, rfl⟩
  · split at h
    · cases h
    · obtain ⟨s₁, -, heq⟩ := Option.map_eq_some_iff.mp h
      cases heq

theorem Holds.functions {ps : List Nat} {l : List (Int × F)} (h : s.Holds ps l) :
    ps.filterMap (fun p => (s.timer p).fn) = l.map Prod.snd := by
  have hfn : ps.map (fun p => (s.timer p).fn) = l.map fun e => some e.2 := by
    have hmap := congrArg (List.map Prod.snd) h.contents
    rw [List.map_map, List.map_map] at hmap
    exact hmap
  have hid := congrArg (List.filterMap id) hfn
  rw [List.filterMap_map, List.filterMap_map] at hid
  rw [← List.filterMap_eq_map]
  exact hid

/-- The entries of the list are those that have a function. -/
theorem Holds.mem_iff {ps : List Nat} {l : List (Int × F)} (h : s.Holds ps l) {p : Nat} :
    p ∈ ps ↔ p < timeRequests ∧ (s.timer p).fn ≠ none := by
  constructor
  · intro hp
    obtain ⟨f, hf⟩ := h.used hp
    refine ⟨h.bound p hp, ?_⟩
    rw [hf]
    exact Option.some_ne_none f
  · intro hp
    by_contra hout
    exact hp.2 (h.free p hp.1 hout)

theorem Holds.pos {ps : List Nat} {l : List (Int × F)} (h : s.Holds ps l) (hpos : ∀ e ∈ l, 0 < e.1) {p : Nat}
    (hp : p ∈ ps) : 0 < (s.timer p).jiffies := by
  have hmem : ((s.timer p).jiffies, (s.timer p).fn) ∈ l.map fun e => (e.1, some e.2) := by
    rw [← h.contents]
    exact List.mem_map_of_mem hp
  obtain ⟨e, he, heq⟩ := List.mem_map.mp hmem
  have hjiffies : e.1 = (s.timer p).jiffies := congrArg Prod.fst heq
  exact hjiffies ▸ hpos e he

theorem Holds.first {ps : List Nat} {l : List (Int × F)} (h : s.Holds ps l) {p : Nat} (hp : s.nextTimer = some p) :
    ∃ ps' f l', ps = p :: ps' ∧ l = ((s.timer p).jiffies, f) :: l' ∧ (s.timer p).fn = some f := by
  have hchain := h.chain
  rw [hp] at hchain
  have hcontents := h.contents
  cases ps with
  | nil => cases hchain
  | cons q ps =>
    obtain ⟨hq, -⟩ := hchain
    cases hq
    cases l with
    | nil => cases hcontents
    | cons e l =>
      rw [List.map_cons, List.map_cons, List.cons.injEq, Prod.mk.injEq] at hcontents
      refine ⟨ps, e.2, l, rfl, ?_, hcontents.1.2⟩
      rw [hcontents.1.1]

theorem Holds.nil {ps : List Nat} {l : List (Int × F)} (h : s.Holds ps l) (hnone : s.nextTimer = none) :
    ps = [] ∧ l = [] := by
  have hchain := h.chain
  rw [hnone] at hchain
  cases ps with
  | nil => exact ⟨rfl, List.eq_nil_of_length_eq_zero (h.length ▸ rfl)⟩
  | cons p ps => cases hchain.1

theorem jiffies_countDown (p : Nat) :
    (s.countDown.timer p).jiffies = (s.timer p).jiffies - if s.nextTimer = some p then 1 else 0 := by
  unfold countDown
  cases hnext : s.nextTimer with
  | none => simp
  | some q =>
    by_cases hqp : q = p
    · subst hqp
      simp
    · simp [hqp, Function.update_of_ne (Ne.symm hqp)]

end Timers

namespace TimerState

variable {F : Type _} {s s' : TimerState F} {t t' : Timers F} {ps : List Nat} {l : List (Int × F)}

open TimerAct

/-- A frame that is interrupted, or at which an interrupt can come: a loop that has read an entry will find
that it has ticks to go. -/
def Waits (t : Timers F) (ps : List Nat) : TimerFrame F → Prop
  | .head p => p ∈ ps ∧ 0 < (t.timer p).jiffies
  | .due _ | .got .. | .cleared .. | .tail .. | .calling _ => False
  | _ => True

/-- The loop with interrupts off. -/
def Within (t : Timers F) (ps : List Nat) (l : List (Int × F)) : TimerFrame F → Prop
  | .test => t.Holds ps l ∧ Timers.Ahead .test l
  | .head p => t.Holds ps l ∧ Timers.Ahead .test l ∧ t.nextTimer = some p
  | .due p => t.Holds ps l ∧ Timers.Ahead .test l ∧ t.nextTimer = some p ∧ (t.timer p).jiffies ≤ 0
  | .got p fn => t.Holds ps l ∧ Timers.Ahead .test l ∧ t.nextTimer = some p ∧ (t.timer p).jiffies ≤ 0 ∧
      fn = (t.timer p).fn
  | .cleared p fn => Timers.Holds { t with nextTimer := (t.timer p).next } ps l ∧ (∀ e ∈ l, 0 < e.1) ∧
      t.nextTimer = some p ∧ fn ≠ none
  | .tail next fn => Timers.Holds { t with nextTimer := next } ps l ∧ (∀ e ∈ l, 0 < e.1) ∧ fn ≠ none
  | .calling fn => t.Holds ps l ∧ (∀ e ∈ l, 0 < e.1) ∧ fn ≠ none
  | .call | .direct | .irq => False

/-- All pending timers have ticks to go. -/
structure Rest (t : Timers F) (frames : List (TimerFrame F)) (ps : List Nat) (l : List (Int × F)) : Prop where
  holds : t.Holds ps l
  pos : ∀ e ∈ l, 0 < e.1
  waits : ∀ fr ∈ frames, Waits t ps fr

/-- The innermost loop is not through with the last tick. -/
structure Mid (t : Timers F) (fr : TimerFrame F) (frames : List (TimerFrame F)) (ps : List Nat)
    (l : List (Int × F)) : Prop where
  within : Within t ps l fr
  waits : ∀ fr ∈ frames, Waits t ps fr

/-- The entries `ps` with the contents `l` are pending. -/
def Shape (s : TimerState F) (ps : List Nat) (l : List (Int × F)) : Prop :=
  Rest s.timers s.frames ps l ∨
    s.ints = false ∧ ∃ fr frames, s.frames = fr :: frames ∧ Mid s.timers fr frames ps l

/-- The functions that were called, those that the loop is about to call and those that are pending are the
ones that were added. -/
def Keeps (ls : List (TimerAct F)) (s : TimerState F) : Prop :=
  TimerAct.null ∉ ls ∧ ∃ ps l, Shape s ps l ∧ (called ls ++ s.held ++ l.map Prod.snd).Perm (added ls)

theorem Waits.held {fr : TimerFrame F} (h : Waits t ps fr) : fr.held = none := by
  cases fr <;> first | rfl | exact h.elim

theorem Waits.takes {fr : TimerFrame F} (h : Waits t ps fr) : fr.takes = false := by
  cases fr <;> first | rfl | exact h.elim

theorem Waits.mono {ps' : List Nat} {fr : TimerFrame F} (h : Waits t ps fr)
    (hps : ∀ p ∈ ps, 0 < (t.timer p).jiffies → p ∈ ps' ∧ 0 < (t'.timer p).jiffies) : Waits t' ps' fr := by
  cases fr with
  | head p => exact hps p h.1 h.2
  | _ => exact h

theorem held_cons {fr : TimerFrame F} {frames : List (TimerFrame F)} {ints : Bool}
    (h : ∀ fr ∈ frames, Waits t' ps fr) : (⟨t, ints, fr :: frames⟩ : TimerState F).held = fr.held.toList := by
  unfold TimerState.held
  have hnone : frames.filterMap TimerFrame.held = [] := List.filterMap_eq_nil_iff.mpr fun fr hfr => (h fr hfr).held
  rw [List.filterMap_cons, hnone]
  cases fr.held <;> rfl

theorem Rest.held (h : Rest s.timers s.frames ps l) : s.held = [] :=
  List.filterMap_eq_nil_iff.mpr fun fr hfr => (h.waits fr hfr).held

theorem Rest.settled (h : Rest s.timers s.frames ps l) : s.Settled := fun fr hfr => (h.waits fr hfr).takes

/-- The entry at the head is pending, and has ticks to go. -/
theorem Rest.first {frames : List (TimerFrame F)} (h : Rest t frames ps l) {p : Nat} (hp : t.nextTimer = some p) :
    p ∈ ps ∧ 0 < (t.timer p).jiffies := by
  obtain ⟨ps', f, l', rfl, -, -⟩ := h.holds.first hp
  exact ⟨List.mem_cons_self, h.holds.pos h.pos List.mem_cons_self⟩

/-- Only with interrupts off a loop can be at work, and then nothing else runs. -/
theorem Shape.rest_of_runs (h : Shape s ps l) (hrun : s.Runs) : Rest s.timers s.frames ps l := by
  rcases h with h | ⟨-, fr, frames, heq, hmid⟩
  · exact h
  · have hruns := hrun fr (by rw [heq]; rfl)
    have hwithin := hmid.within
    cases fr <;> first | exact hwithin.elim | cases hruns

theorem Shape.rest_of_ints (h : Shape s ps l) (hints : s.ints = true) : Rest s.timers s.frames ps l := by
  rcases h with h | ⟨hoff, -⟩
  · exact h
  · rw [hints] at hoff
    cases hoff

theorem start_keeps (ints : Bool) : Keeps [] (start ints : TimerState F) :=
  ⟨List.not_mem_nil, [], [], .inl ⟨Timers.empty_holds, fun _ h => (by cases h), fun _ h => (by cases h)⟩, .refl _⟩

theorem not_null_snoc {ls : List (TimerAct F)} {e : TimerAct F} (h : TimerAct.null ∉ ls) (he : e ≠ .null) :
    TimerAct.null ∉ ls ++ [e] := by
  rw [List.mem_append, List.mem_singleton]
  exact not_or.mpr ⟨h, Ne.symm he⟩

/-- A step that neither adds a function nor calls one. -/
theorem perm_same {ls : List (TimerAct F)} {e : TimerAct F} {held held' fs : List F}
    (h : (called ls ++ held ++ fs).Perm (added ls)) (hadded : e.addedBy = none) (hcalled : e.calledBy = none)
    (hheld : held' = held) : (called (ls ++ [e]) ++ held' ++ fs).Perm (added (ls ++ [e])) := by
  rw [called_snoc, added_snoc, hadded, hcalled, hheld]
  simpa using h

/-! ## What a step keeps -/

theorem Rest.add {frames : List (TimerFrame F)} (h : Rest t frames ps l) {fuel : Nat} {n : Int} {f : F}
    (hadd : t.addTimer fuel n (some f) = some (.ok (none, t'))) :
    ∃ p, Rest t' frames (p :: ps) (Timers.insert n f l) := by
  have hn := Timers.addTimer_none hadd
  obtain ⟨p, hholds⟩ := h.holds.added hn hadd
  have hpos := Timers.insert_pos (f := f) hn h.pos
  refine ⟨p, hholds, hpos, fun fr hfr => (h.waits fr hfr).mono fun q hq _ => ?_⟩
  have hin : q ∈ p :: ps := List.mem_cons_of_mem p hq
  exact ⟨hin, hholds.pos hpos hin⟩

theorem Rest.tick {frames : List (TimerFrame F)} (h : Rest t frames ps l)
    (hcalm : ∀ p, .head p ∈ frames → t.nextTimer = some p → 1 < (t.timer p).jiffies) :
    ∃ l', Mid t.countDown .test frames ps l' ∧ l'.map Prod.snd = l.map Prod.snd := by
  have hwaits : ∀ fr ∈ frames, Waits t.countDown ps fr := by
    intro fr hfr
    cases fr with
    | head p =>
      obtain ⟨hp, hpos⟩ := h.waits _ hfr
      refine ⟨hp, ?_⟩
      rw [Timers.jiffies_countDown]
      split
      · next hnext =>
        have hmore := hcalm p hfr hnext
        omega
      · omega
    | _ => exact h.waits _ hfr
  refine ⟨_, ⟨⟨h.holds.countDown, ?_⟩, hwaits⟩, ?_⟩
  · cases l with
    | nil => exact fun e he => by cases he
    | cons e l =>
      have hd := h.pos e List.mem_cons_self
      exact ⟨by show 0 ≤ e.1 - 1; omega, fun e he => h.pos e (List.mem_cons_of_mem _ he)⟩
  · cases l <;> rfl

theorem Rest.tail {fr : TimerFrame F} {frames : List (TimerFrame F)} (h : Rest t (fr :: frames) ps l) :
    Rest t frames ps l :=
  ⟨h.holds, h.pos, fun fr hfr => h.waits fr (List.mem_cons_of_mem _ hfr)⟩

theorem Rest.cons {fr : TimerFrame F} {frames : List (TimerFrame F)} (h : Rest t frames ps l)
    (hfr : Waits t ps fr) : Rest t (fr :: frames) ps l :=
  ⟨h.holds, h.pos, List.forall_mem_cons.mpr ⟨hfr, h.waits⟩⟩

/-- With all timers ahead a loop only reads `next_timer`. -/
theorem Rest.loop {fr fr' : TimerFrame F} {frames : List (TimerFrame F)} {e : TimerAct F}
    (h : Rest t (fr :: frames) ps l) (hloop : Loop t fr e t' fr') :
    e = .other ∧ t' = t ∧ Rest t (fr' :: frames) ps l := by
  have htop := h.waits fr List.mem_cons_self
  cases hloop with
  | read hp => exact ⟨rfl, rfl, h.tail.cons (h.first hp)⟩
  | due hle => exact absurd htop.2 (Int.not_lt.mpr hle)
  | get => exact htop.elim
  | clear => exact htop.elim
  | next => exact htop.elim
  | advance => exact htop.elim
  | fire => exact htop.elim
  | wild => exact htop.elim
  | reload hfr hq =>
    cases fr with
    | head p => exact ⟨rfl, rfl, h.tail.cons (h.first hq)⟩
    | due p => exact htop.elim
    | got p fn => exact htop.elim
    | cleared p fn => exact htop.elim
    | _ => cases hfr
  | fault hfr hnone =>
    obtain ⟨rfl, -⟩ := h.holds.nil hnone
    cases fr with
    | head p => cases htop.1
    | due p => exact htop.elim
    | got p fn => exact htop.elim
    | cleared p fn => exact htop.elim
    | _ => cases hfr

/-- The first entry, with no ticks left, is taken off the list. -/
theorem Mid.clear {p : Nat} {fn : Option F} {frames : List (TimerFrame F)} (h : Mid t (.got p fn) frames ps l) :
    ∃ f ps' l', fn = some f ∧ l.map Prod.snd = f :: l'.map Prod.snd ∧
      Mid (clear t p) (.cleared p fn) frames ps' l' := by
  obtain ⟨⟨hholds, hahead, hp, hle, rfl⟩, hwaits⟩ := h
  obtain ⟨ps', f, l', rfl, rfl, hf⟩ := hholds.first hp
  have hexpire : t.expire = some ((t.timer p).fn,
      { timer := Function.update t.timer p { t.timer p with fn := none }
        nextTimer := (t.timer p).next }) := by
    unfold Timers.expire
    rw [hp]
    exact if_pos hle
  have hself : ((clear t p).timer p).next = (t.timer p).next := by
    unfold TimerState.clear
    simp
  rcases hholds.expire with ⟨hnone, -⟩ | ⟨p₁, ps₁, d, f₁, l₁, t₁, hps, hl, -, hfire, hholds₁⟩
  · rw [hexpire] at hnone
    cases hnone
  · cases hps
    cases hl
    rw [hexpire, hf] at hfire
    cases hfire
    refine ⟨f, ps', l', hf, rfl, ⟨?_, hahead.2, hp, ?_⟩, fun fr hfr => ?_⟩
    · rw [hself]
      exact hholds₁
    · rw [hf]
      exact Option.some_ne_none f
    · -- an entry that another loop has read has ticks to go, and is not this one
      refine (hwaits fr hfr).mono fun q hq hpos => ?_
      have hne : q ≠ p := by
        rintro rfl
        exact absurd hpos (Int.not_lt.mpr hle)
      refine ⟨(List.mem_cons.mp hq).resolve_left hne, ?_⟩
      show 0 < (Function.update t.timer p _ q).jiffies
      rw [Function.update_of_ne hne]
      exact hpos

theorem Mid.loop {fr fr' : TimerFrame F} {frames : List (TimerFrame F)} {e : TimerAct F}
    (h : Mid t fr frames ps l) (hloop : Loop t fr e t' fr') :
    e ≠ .null ∧ e.addedBy = none ∧
    ∃ ps' l', (Rest t' (fr' :: frames) ps' l' ∨ Mid t' fr' frames ps' l') ∧
      e.calledBy.toList ++ fr'.held.toList ++ l'.map Prod.snd = fr.held.toList ++ l.map Prod.snd := by
  cases hloop with
  | read hp =>
    obtain ⟨⟨hholds, hahead⟩, hwaits⟩ := h
    exact ⟨by simp, rfl, ps, l, .inr ⟨⟨hholds, hahead, hp⟩, hwaits⟩, rfl⟩
  | due hle =>
    obtain ⟨⟨hholds, hahead, hp⟩, hwaits⟩ := h
    exact ⟨by simp, rfl, ps, l, .inr ⟨⟨hholds, hahead, hp, hle⟩, hwaits⟩, rfl⟩
  | get =>
    obtain ⟨⟨hholds, hahead, hp, hle⟩, hwaits⟩ := h
    exact ⟨by simp, rfl, ps, l, .inr ⟨⟨hholds, hahead, hp, hle, rfl⟩, hwaits⟩, rfl⟩
  | clear =>
    obtain ⟨f, ps', l', rfl, hl, hmid⟩ := h.clear
    exact ⟨by simp, rfl, ps', l', .inr hmid, hl.symm⟩
  | next =>
    obtain ⟨⟨hholds, hpos, -, hfn⟩, hwaits⟩ := h
    exact ⟨by simp, rfl, ps, l, .inr ⟨⟨hholds, hpos, hfn⟩, hwaits⟩, rfl⟩
  | advance =>
    obtain ⟨⟨hholds, hpos, hfn⟩, hwaits⟩ := h
    exact ⟨by simp, rfl, ps, l, .inr ⟨⟨hholds, hpos, hfn⟩, hwaits⟩, rfl⟩
  | fire =>
    obtain ⟨⟨hholds, hpos, hfn⟩, hwaits⟩ := h
    exact ⟨by simp, rfl, ps, l, .inl ⟨hholds, hpos, List.forall_mem_cons.mpr ⟨trivial, hwaits⟩⟩, rfl⟩
  | wild => exact absurd rfl h.within.2.2
  | @reload _ q hfr hq =>
    -- `next_timer` has not changed
    have hsame : fr.reload q = fr := by
      have hwithin := h.within
      cases fr with
      | head p => exact congrArg TimerFrame.head (Option.some.inj (hq.symm.trans hwithin.2.2))
      | due p => exact congrArg TimerFrame.due (Option.some.inj (hq.symm.trans hwithin.2.2.1))
      | got p fn => exact congrArg (TimerFrame.got · fn) (Option.some.inj (hq.symm.trans hwithin.2.2.1))
      | cleared p fn => exact congrArg (TimerFrame.cleared · fn) (Option.some.inj (hq.symm.trans hwithin.2.2.1))
      | _ => cases hfr
    rw [hsame]
    exact ⟨by simp, rfl, ps, l, .inr h, rfl⟩
  | fault hfr hnone =>
    have hwithin := h.within
    cases fr with
    | head p => cases hnone.symm.trans hwithin.2.2
    | due p => cases hnone.symm.trans hwithin.2.2.1
    | got p fn => cases hnone.symm.trans hwithin.2.2.1
    | cleared p fn => cases hnone.symm.trans hwithin.2.2.1
    | _ => cases hfr

/-- The loop ends when all timers have ticks to go. -/
theorem Mid.ends {fr : TimerFrame F} {frames : List (TimerFrame F)} (h : Mid t fr frames ps l) (hends : Ends t fr) :
    fr.held = none ∧ Rest t frames ps l := by
  cases hends with
  | empty hnone =>
    obtain ⟨⟨hholds, -⟩, hwaits⟩ := h
    obtain ⟨rfl, rfl⟩ := hholds.nil hnone
    exact ⟨rfl, hholds, fun e he => (by cases he), hwaits⟩
  | ahead hlt =>
    obtain ⟨⟨hholds, hahead, hp⟩, hwaits⟩ := h
    obtain ⟨ps', f, l', rfl, rfl, -⟩ := hholds.first hp
    exact ⟨rfl, hholds, List.forall_mem_cons.mpr ⟨hlt, hahead.2⟩, hwaits⟩

/-- A step between two states in which nothing is about to be called. -/
theorem Keeps.quiet {ls : List (TimerAct F)} {e : TimerAct F} {ps' : List Nat} (hnull : TimerAct.null ∉ ls)
    (hperm : (called ls ++ s.held ++ l.map Prod.snd).Perm (added ls)) (hrest : Rest s.timers s.frames ps l)
    (hrest' : Rest s'.timers s'.frames ps' l) (he : e ≠ .null) (hadded : e.addedBy = none)
    (hcalled : e.calledBy = none) : Keeps (ls ++ [e]) s' :=
  ⟨not_null_snoc hnull he, ps', l, .inl hrest',
    perm_same hperm hadded hcalled (hrest'.held.trans hrest.held.symm)⟩

theorem Keeps.add {ls : List (TimerAct F)} (h : Keeps ls s) {timers : Timers F} {fuel : Nat} {n : Int} {f : F}
    (hrun : s.Runs) (hadd : s.timers.addTimer fuel n (some f) = some (.ok (none, timers))) :
    Keeps (ls ++ [.add n (some f)]) ⟨timers, true, s.frames⟩ := by
  obtain ⟨hnull, ps, l, hshape, hperm⟩ := h
  have hrest := hshape.rest_of_runs hrun
  have hn := Timers.addTimer_none hadd
  obtain ⟨p, hrest'⟩ := hrest.add hadd
  refine ⟨not_null_snoc hnull (by simp), p :: ps, Timers.insert n f l, .inl hrest', ?_⟩
  have hcalled : calledBy (.add n (some f)) = none := if_neg (Int.not_le.mpr hn)
  have hheld : (⟨timers, true, s.frames⟩ : TimerState F).held = [] := hrest.held
  rw [hrest.held, List.append_nil] at hperm
  rw [called_snoc, added_snoc, hcalled, hheld]
  calc called ls ++ [] ++ [] ++ (Timers.insert n f l).map Prod.snd
      _ = called ls ++ (Timers.insert n f l).map Prod.snd := by rw [List.append_nil, List.append_nil]
      List.Perm _ (called ls ++ f :: l.map Prod.snd) := (Timers.insert_perm n f l).append_left _
      List.Perm _ (f :: (called ls ++ l.map Prod.snd)) := List.perm_middle
      List.Perm _ (f :: added ls) := hperm.cons f
      List.Perm _ (added ls ++ [f]) := (List.perm_append_singleton ..).symm

/-- A function that is called at once is not put in the list. -/
theorem Keeps.direct {ls : List (TimerAct F)} (h : Keeps ls s) {n : Int} (hn : n ≤ 0) (f : F) (hrun : s.Runs) :
    Keeps (ls ++ [.add n (some f)]) ⟨s.timers, false, .direct :: s.frames⟩ := by
  obtain ⟨hnull, ps, l, hshape, hperm⟩ := h
  have hrest := hshape.rest_of_runs hrun
  have hrest' : Rest s.timers (.direct :: s.frames) ps l := hrest.cons trivial
  refine ⟨not_null_snoc hnull (by simp), ps, l, .inl hrest', ?_⟩
  have hcalled : calledBy (.add n (some f)) = some f := if_pos hn
  have hheld : (⟨s.timers, false, .direct :: s.frames⟩ : TimerState F).held = [] :=
    Rest.held (s := ⟨s.timers, false, .direct :: s.frames⟩) hrest'
  rw [hrest.held, List.append_nil] at hperm
  rw [called_snoc, added_snoc, hcalled, hheld, List.append_nil, List.append_assoc]
  calc called ls ++ (f :: l.map Prod.snd)
      List.Perm _ (f :: (called ls ++ l.map Prod.snd)) := List.perm_middle
      List.Perm _ (f :: added ls) := hperm.cons f
      List.Perm _ (added ls ++ [f]) := (List.perm_append_singleton ..).symm

theorem Keeps.tick {ls : List (TimerAct F)} (h : Keeps ls s) (hints : s.ints = true) (hcalm : s.Calm .tick) :
    Keeps (ls ++ [.tick]) ⟨s.timers.countDown, false, .test :: s.frames⟩ := by
  obtain ⟨hnull, ps, l, hshape, hperm⟩ := h
  have hrest := hshape.rest_of_ints hints
  obtain ⟨l', hmid, hl⟩ := hrest.tick hcalm
  refine ⟨not_null_snoc hnull (by simp), ps, l', .inr ⟨rfl, .test, s.frames, rfl, hmid⟩, ?_⟩
  rw [hl]
  exact perm_same hperm rfl rfl rfl

theorem Keeps.loop {ls : List (TimerAct F)} {ints : Bool} {fr fr' : TimerFrame F} {frames : List (TimerFrame F)}
    {e : TimerAct F} (h : Keeps ls ⟨t, ints, fr :: frames⟩) (hloop : Loop t fr e t' fr') :
    Keeps (ls ++ [e]) ⟨t', ints, fr' :: frames⟩ := by
  obtain ⟨hnull, ps, l, hrest | ⟨hoff, fr, frames, heq, hmid⟩, hperm⟩ := h
  · obtain ⟨rfl, rfl, hrest'⟩ := hrest.loop hloop
    exact Keeps.quiet hnull hperm hrest hrest' (by simp) rfl rfl
  · cases heq
    obtain ⟨he, hadded, ps', l', hafter, hfs⟩ := hmid.loop hloop
    have hwaits' : ∀ fr ∈ frames, Waits t' ps' fr := by
      rcases hafter with hrest | hmid
      · exact hrest.tail.waits
      · exact hmid.waits
    refine ⟨not_null_snoc hnull he, ps', l', ?_, ?_⟩
    · exact hafter.imp id fun hmid => ⟨hoff, fr', frames, rfl, hmid⟩
    · rw [held_cons hmid.waits, List.append_assoc, ← hfs] at hperm
      rw [held_cons hwaits', called_snoc, added_snoc, hadded, Option.toList_none, List.append_nil]
      simpa only [List.append_assoc] using hperm

theorem Keeps.done {ls : List (TimerAct F)} {ints : Bool} {fr : TimerFrame F} {frames : List (TimerFrame F)}
    (h : Keeps ls ⟨t, ints, fr :: frames⟩) (hends : Ends t fr) : Keeps (ls ++ [.other]) ⟨t, true, frames⟩ := by
  obtain ⟨hnull, ps, l, hrest | ⟨hoff, fr, frames, heq, hmid⟩, hperm⟩ := h
  · exact Keeps.quiet hnull hperm hrest hrest.tail (by simp) rfl rfl
  · cases heq
    obtain ⟨hheld, hrest⟩ := hmid.ends hends
    refine ⟨not_null_snoc hnull (by simp), ps, l, .inl hrest, ?_⟩
    refine perm_same hperm rfl rfl ?_
    rw [held_cons hmid.waits, hheld]
    exact Rest.held (s := ⟨t, true, frames⟩) hrest

/-- A function returns, or a handler. -/
theorem Keeps.ret {ls : List (TimerAct F)} {ints : Bool} {fr : TimerFrame F} {frames : List (TimerFrame F)}
    (h : Keeps ls ⟨t, ints, fr :: frames⟩) (hfr : fr.runs = true) {frames' : List (TimerFrame F)}
    (hframes : frames' = frames ∨ frames' = .test :: frames) (ints' : Bool) :
    Keeps (ls ++ [.other]) ⟨t, ints', frames'⟩ := by
  obtain ⟨hnull, ps, l, hshape, hperm⟩ := h
  have hrest := hshape.rest_of_runs fun fr' hfr' => by cases hfr'; exact hfr
  have hrest' : Rest t frames' ps l := by
    rcases hframes with rfl | rfl
    · exact hrest.tail
    · exact hrest.tail.cons trivial
  exact Keeps.quiet hnull hperm hrest hrest' (by simp) rfl rfl

theorem Keeps.step {ls : List (TimerAct F)} {e : TimerAct F} (h : Keeps ls s) (hst : Step s e s')
    (hcalm : s.Calm e) : Keeps (ls ++ [e]) s' := by
  have hquiet := h
  obtain ⟨hnull, ps, l, hshape, hperm⟩ := hquiet
  cases hst with
  | add hrun hadd => exact h.add hrun hadd
  | direct hrun hadd =>
    -- nothing was put in the list
    obtain ⟨hn, rfl⟩ := Timers.addTimer_some hadd
    exact h.direct hn _ hrun
  | null hrun =>
    have hrest := hshape.rest_of_runs hrun
    exact Keeps.quiet hnull hperm hrest hrest (by simp) rfl (by simp [calledBy])
  | flag hrun ints =>
    have hrest := hshape.rest_of_runs hrun
    exact Keeps.quiet hnull hperm hrest hrest (by simp) rfl rfl
  | tick hints => exact h.tick hints hcalm
  | irq hints =>
    have hrest := hshape.rest_of_ints hints
    exact Keeps.quiet hnull hperm hrest (hrest.cons trivial) (by simp) rfl rfl
  | loop hloop => exact h.loop hloop
  | done hends => exact h.done hends
  | retCall => exact h.ret rfl (.inr rfl) _
  | retDirect => exact h.ret rfl (.inl rfl) true
  | retIrq => exact h.ret rfl (.inl rfl) true

theorem run_keeps {ints : Bool} {ls : List (TimerAct F)}
    (hrun : Lib.Run (fun s e s' => Step s e s' ∧ s.Calm e) (start ints) ls s) : Keeps ls s := by
  induction hrun with
  | nil => exact start_keeps ints
  | snoc _ hst ih => exact ih.step hst.1 hst.2

/-- In a state that is settled the list is in the memory as it is. -/
theorem Shape.settled (h : Shape s ps l) (hs : s.Settled) : s.timers.Holds ps l ∧ s.held = [] := by
  rcases h with hrest | ⟨-, fr, frames, heq, hmid⟩
  · exact ⟨hrest.holds, hrest.held⟩
  · obtain ⟨t, ints, frames'⟩ := s
    cases heq
    have htakes := hs fr List.mem_cons_self
    have hwithin := hmid.within
    rw [held_cons hmid.waits]
    cases fr with
    | test => exact ⟨hwithin.1, rfl⟩
    | head p => exact ⟨hwithin.1, rfl⟩
    | due p => exact ⟨hwithin.1, rfl⟩
    | got p fn => exact ⟨hwithin.1, rfl⟩
    | cleared p fn => cases htakes
    | tail next fn => cases htakes
    | calling fn => cases htakes
    | call => exact hwithin.elim
    | direct => exact hwithin.elim
    | irq => exact hwithin.elim

/-- In every run in which no tick runs down an entry that an interrupted loop has read: nothing is called or
used at address 0, with interrupts on every state is settled, and in every settled state the list from
`next_timer` on ends and meets no entry twice, its entries are those of `timer_list` that have a function,
their functions and those that were called are the ones that were added, and a timer can be added as long as
an entry is free. -/
theorem timers_kept {ints : Bool} {ls : List (TimerAct F)}
    (hrun : Lib.Run (fun s e s' => Step s e s' ∧ s.Calm e) (start ints) ls s) :
    TimerAct.null ∉ ls ∧ (s.ints = true → s.Settled) ∧
    (s.Settled → ∃ ps, Lib.Chain (fun p => (s.timers.timer p).next) s.timers.nextTimer ps ∧ ps.Nodup ∧
      (∀ p, p ∈ ps ↔ p < timeRequests ∧ (s.timers.timer p).fn ≠ none) ∧
      (called ls ++ ps.filterMap fun p => (s.timers.timer p).fn).Perm (added ls) ∧
      (ps.length < timeRequests → ∀ n f, 0 < n →
        ∃ timers, ∀ fuel, timeRequests ≤ fuel →
          s.timers.addTimer fuel n (some f) = some (.ok (none, timers)))) := by
  obtain ⟨hnull, ps, l, hshape, hperm⟩ := run_keeps hrun
  refine ⟨hnull, fun hints => (hshape.rest_of_ints hints).settled, fun hs => ?_⟩
  obtain ⟨hholds, hheld⟩ := hshape.settled hs
  refine ⟨ps, hholds.chain, hholds.nodup, fun p => hholds.mem_iff, ?_, fun hlt n f hn => ?_⟩
  · rw [hheld, List.append_nil] at hperm
    rw [hholds.functions]
    exact hperm
  · rw [hholds.length] at hlt
    obtain ⟨p, hp⟩ := hholds.found_of_lt hlt
    obtain ⟨timers, htimers, -⟩ := hholds.add hn f hp
    exact ⟨timers, htimers⟩

/-! ### A function that adds a timer and is interrupted -/

/-- The loop from its test on, with the first entry due. -/
theorem fires {R : TimerState F → TimerAct F → TimerState F → Prop}
    (hR : ∀ {s s' : TimerState F} {e : TimerAct F}, e ≠ .tick → Step s e s' → R s e s') {p : Nat} {f : F}
    {c : TimerState F} {ls : List (TimerAct F)} {ints : Bool} {frames : List (TimerFrame F)}
    (hp : t.nextTimer = some p) (hle : (t.timer p).jiffies ≤ 0) (hf : (t.timer p).fn = some f)
    (hrun : Lib.Run R c ls ⟨t, ints, .test :: frames⟩) :
    Lib.Run R c (ls ++ [.other] ++ [.other] ++ [.other] ++ [.other] ++ [.other] ++ [.other] ++ [.fire f])
      ⟨t.expired, ints, .call :: frames⟩ := by
  have hnext : ((clear t p).timer p).next = (t.timer p).next := by
    unfold TimerState.clear
    simp
  have hexpired : { clear t p with nextTimer := ((clear t p).timer p).next } = t.expired := by
    unfold Timers.expired Timers.expire
    rw [hnext, hp]
    dsimp only
    rw [if_pos hle]
    rfl
  have hread := hrun.snoc (hR (by simp) (.loop (.read hp)))
  have hdue := hread.snoc (hR (by simp) (.loop (.due hle)))
  have hget := hdue.snoc (hR (by simp) (.loop .get))
  rw [hf] at hget
  have hclear := hget.snoc (hR (by simp) (.loop .clear))
  have hnext := hclear.snoc (hR (by simp) (.loop .next))
  have hadvance := hnext.snoc (hR (by simp) (.loop .advance))
  rw [hexpired] at hadvance
  exact hadvance.snoc (hR (by simp) (.loop .fire))

theorem calm_of_ne {e : TimerAct F} (he : e ≠ .tick) (hst : Step s e s') : Step s e s' ∧ s.Calm e := by
  refine ⟨hst, ?_⟩
  cases e with
  | tick => exact absurd rfl he
  | _ => trivial

def first : Timers (Fin 3) := Timers.empty.added 1 0

/-- The function 0 adds the function 1, for `n` ticks later. -/
def second (n : Int) : Timers (Fin 3) := first.countDown.expired.added n 1

theorem run_second {n : Int}
    (hadd : first.countDown.expired.addTimer timeRequests n (some 1) = some (.ok (none, second n))) :
    ∃ ls, Lib.Run (fun s e s' => Step s e s' ∧ s.Calm e) (start true : TimerState (Fin 3)) ls
      ⟨second n, true, [.test]⟩ ∧ added ls = [0, 1] ∧ called ls = [0] ∧ 0 < n := by
  have hn := Timers.addTimer_none hadd
  have hfirst : (Timers.empty : Timers (Fin 3)).addTimer timeRequests 1 (some 0) = some (.ok (none, first)) := rfl
  have hadd₁ : Lib.Run (fun s e s' => Step s e s' ∧ s.Calm e) (start true : TimerState (Fin 3))
      ([] ++ [.add 1 (some 0)]) ⟨first, true, []⟩ :=
    .snoc .nil ⟨.add (fun fr h => by cases h) hfirst, trivial⟩
  have htick := hadd₁.snoc ⟨.tick rfl, fun p h => by cases h⟩
  have hfire := fires calm_of_ne (t := first.countDown) (p := 0) (f := 0) rfl (by decide) rfl htick
  have hagain := hfire.snoc ⟨.add (fun fr h => by cases h; rfl) hadd, trivial⟩
  have hlater : calledBy (.add n (some (1 : Fin 3))) = none := if_neg (Int.not_le.mpr hn)
  refine ⟨_, hagain.snoc ⟨.retCall, trivial⟩, rfl, ?_, hn⟩
  simp only [called_snoc, hlater]
  rfl

/-- A tick comes between the two reads of the outer test, and the next one calls the function. -/
theorem run_nested : ∃ ls, Lib.Run (fun s e s' => Step s e s' ∧ s.Calm e) (start true : TimerState (Fin 3)) ls
    ⟨(second 2).countDown.countDown.expired, false, [.call]⟩ ∧ added ls = [0, 1] ∧ called ls = [0, 1] := by
  have hsecond : first.countDown.expired.addTimer timeRequests 2 (some 1) = some (.ok (none, second 2)) := rfl
  obtain ⟨ls, hrun, hadded, hcalled, -⟩ := run_second hsecond
  have hread := hrun.snoc ⟨.loop (.read (p := 0) rfl), trivial⟩
  have htick := hread.snoc ⟨.tick rfl, fun p hp _ => by
    cases List.mem_singleton.mp hp
    decide⟩
  have hnested := htick.snoc ⟨.loop (.read (p := 0) rfl), trivial⟩
  have hdone := hnested.snoc ⟨.done (.ahead (by decide)), trivial⟩
  have houter := hdone.snoc ⟨.done (.ahead (by decide)), trivial⟩
  have hlast := houter.snoc ⟨.tick rfl, fun p h => by cases h⟩
  have hfire := fires calm_of_ne (t := (second 2).countDown.countDown) (p := 0) (f := 1) rfl (by decide) rfl hlast
  refine ⟨_, hfire, ?_, ?_⟩
  · simp only [added_snoc, hadded]
    rfl
  · simp only [called_snoc, hcalled]
    rfl

def third : Timers (Fin 3) := (second 1).countDown.expired.added 1 2

/-- The same with one tick: the tick between the two reads calls the function 1, and the outer loop takes the
entry again. A handler has put the function 2 there before the loop clears it. -/
theorem timer_lost : ∃ (ls : List (TimerAct (Fin 3))) (s : TimerState (Fin 3)), Lib.Run Step (start true) ls s ∧
    TimerAct.null ∈ ls ∧ 2 ∈ added ls ∧ 2 ∉ called ls ∧ s.held = [] ∧
    (∀ p < timeRequests, (s.timers.timer p).fn ≠ some 2) := by
  have hsecond : first.countDown.expired.addTimer timeRequests 1 (some 1) = some (.ok (none, second 1)) := rfl
  have hthird : (second 1).countDown.expired.addTimer timeRequests 1 (some 2) = some (.ok (none, third)) := rfl
  obtain ⟨ls, hcalm, hadded, hcalled, -⟩ := run_second hsecond
  have hrun : Lib.Run Step (start true) ls ⟨second 1, true, [.test]⟩ := hcalm.mono fun h => h.1
  have hread := hrun.snoc (.loop (.read (p := 0) rfl))
  have htick := hread.snoc (.tick rfl)
  have hfire := fires (fun _ h => h) (t := (second 1).countDown) (p := 0) (f := 1) rfl (by decide) rfl htick
  have hret := hfire.snoc .retCall
  have hdone := hret.snoc (.done (.empty rfl))
  have hdue := hdone.snoc (.loop (.due (by decide)))
  have hget := hdue.snoc (.loop .get)
  have hirq := hget.snoc (.irq rfl)
  have hadd := hirq.snoc (.add (fun fr h => by cases h; rfl) hthird)
  have hback := hadd.snoc .retIrq
  have hclear := hback.snoc (.loop .clear)
  have hnext := hclear.snoc (.loop .next)
  have hadvance := hnext.snoc (.loop .advance)
  refine ⟨_, _, hadvance.snoc (.loop .wild), List.mem_append_right _ (List.mem_singleton_self _), ?_, ?_, rfl,
    by decide⟩
  · simp only [added_snoc, hadded]
    decide
  · simp only [called_snoc, hcalled]
    decide

theorem timers_kept_nested : ∃ (ls : List (TimerAct (Fin 3))) (ps : List Nat),
    added ls = [0, 1] ∧ called ls = [0, 1] ∧ TimerAct.null ∉ ls ∧ ps.Nodup ∧
    (∀ p, p ∈ ps ↔ p < timeRequests ∧ ((second 2).countDown.countDown.expired.timer p).fn ≠ none) ∧
    (called ls ++ ps.filterMap fun p => ((second 2).countDown.countDown.expired.timer p).fn).Perm (added ls) := by
  obtain ⟨ls, hrun, hadded, hcalled⟩ := run_nested
  obtain ⟨hnull, -, hkept⟩ := timers_kept hrun
  obtain ⟨ps, -, hnodup, hmem, hperm, -⟩ := hkept fun fr hfr => by
    cases List.mem_singleton.mp hfr
    rfl
  exact ⟨ls, ps, hadded, hcalled, hnull, hnodup, hmem, hperm⟩

end TimerState

end Linux011.Kernel
