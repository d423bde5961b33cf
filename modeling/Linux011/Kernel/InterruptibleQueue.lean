import Linux011.Kernel.WaitQueue

/-!
# Wait queues of sleepers that signals wake

`interruptible_sleep_on` of `kernel/sched.c`, with `wake_up`, on one queue variable, while no signal is
pending. A task that returns from `schedule` and finds somebody else at the head of the queue wakes that
one, and goes back to sleep without putting itself on the queue again.

As long as this does not happen, the queue is one of `sleep_on` in which the sleepers are taken for
uninterruptible ones, and keeps everybody.
-/

namespace Linux011.Kernel

/-- An interruptible sleep taken for an uninterruptible one. -/
def TaskState.deep : TaskState → TaskState
  | .interruptible => .uninterruptible
  | st => st

theorem TaskState.deep_running {st : TaskState} : st.deep = .running ↔ st = .running := by
  cases st <;> simp [deep]

namespace WaitQueue

variable {T : Type _}

def deep (s : WaitQueue T) : WaitQueue T := { s with state := fun t => (s.state t).deep }

/-- `t` is inside `interruptible_sleep_on` and not yet made running. -/
def Asleep (s : WaitQueue T) (t : T) : Prop := s.tmp t ≠ none ∧ s.state t = .interruptible

/-- Each sleeper can be reached: from the head of the queue, or from a running task that is still in the
call, over what the tasks in the call have saved. -/
def Kept (s : WaitQueue T) : Prop :=
  ∀ t, s.Asleep t → ∃ u, Relation.ReflTransGen (fun a b => s.Saves b a) t u ∧ s.Front u

/-- In this step a task that returns from `schedule` finds another one at the head. -/
def Repeats (s : WaitQueue T) (e : Event T) : Prop :=
  ∃ current t, e = .wakened current ∧ s.q = some t ∧ t ≠ current

variable [DecidableEq T]

/-- `interruptible_sleep_on` up to the call of `schedule`. -/
def interruptibleSleepOn (initTask current : T) (s : WaitQueue T) : Except String (WaitQueue T) :=
  if current = initTask then .error "task[0] trying to sleep"
  else
    .ok { s with
      q := some current
      state := Function.update s.state current .interruptible
      tmp := Function.update s.tmp current (some s.q) }

/-- The end of `interruptible_sleep_on`: `*p=NULL; if (tmp) tmp->state=0;` -/
def leave (current : T) (tmp : Option T) (s : WaitQueue T) : WaitQueue T :=
  let s := { s with q := none }.run tmp
  { s with tmp := Function.update s.tmp current none }

/-- `interruptible_sleep_on` after `schedule` has returned to it, up to the next call of `schedule` or to
the end. -/
def roused (current : T) (tmp : Option T) (s : WaitQueue T) : WaitQueue T :=
  match s.q with
  | none => s.leave current tmp
  | some t =>
    if t ≠ current then (s.setState t .running).setState current .interruptible
    else s.leave current tmp

namespace Interruptible

/-- The steps, as for `sleep_on`. -/
inductive Step (initTask : T) : WaitQueue T → Event T → WaitQueue T → Prop
  | sleepOn {s s' : WaitQueue T} {current : T} (hout : s.tmp current = none)
      (hrun : s.state current = .running) (h : s.interruptibleSleepOn initTask current = .ok s') :
      Step initTask s (.sleepOn current) s'
  | wakened {s : WaitQueue T} {current : T} {tmp : Option T} (hin : s.tmp current = some tmp)
      (hrun : s.state current = .running) : Step initTask s (.wakened current) (s.roused current tmp)
  | wakeUp {s : WaitQueue T} : Step initTask s .wakeUp s.wakeUp
  | other {s : WaitQueue T} {t : T} (st : TaskState) (hout : s.tmp t = none) :
      Step initTask s (.other t) (s.setState t st)

/-- A step with the state in which it is taken. -/
def Goes (initTask : T) (s : WaitQueue T) (l : WaitQueue T × Event T) (s' : WaitQueue T) : Prop :=
  l.1 = s ∧ Step initTask s l.2 s'

end Interruptible

/-! ## The queue as one of `sleep_on` -/

section

variable {s s' : WaitQueue T} {t u current initTask : T} {e : Event T} {tmp : Option T}

theorem deep_setState (t : T) (st : TaskState) : (s.setState t st).deep = s.deep.setState t st.deep := by
  have hstate : (fun u => (Function.update s.state t st u).deep) =
      Function.update (fun u => (s.state u).deep) t st.deep := by
    funext u
    by_cases hu : u = t
    · rw [hu, Function.update_self, Function.update_self]
    · rw [Function.update_of_ne hu, Function.update_of_ne hu]
  unfold deep setState
  rw [hstate]

theorem deep_run (tmp : Option T) : (s.run tmp).deep = s.deep.run tmp := by
  cases tmp with
  | none => rfl
  | some t => exact deep_setState t .running

theorem deep_wakeUp : s.wakeUp.deep = s.deep.wakeUp := by
  unfold wakeUp
  cases hq : s.q with
  | none =>
    have hdeep : s.deep.q = none := hq
    rw [hdeep]
  | some t =>
    have hdeep : s.deep.q = some t := hq
    rw [hdeep]
    show { (s.setState t .running).deep with q := none } = _
    rw [deep_setState]
    rfl

/-- Nobody is at the head when a task returns that finds no other one there. -/
theorem Linked.head_running (h : s.deep.Linked) (hrun : s.state current = .running)
    (hrep : ¬ s.Repeats (.wakened current)) : s.q = none := by
  obtain ⟨at_, now, h⟩ := h
  cases hq : s.q with
  | none => rfl
  | some t =>
    by_cases ht : t = current
    · subst ht
      have hblk : (s.state t).deep = .uninterruptible := (h.head t hq).1.2
      rw [hrun] at hblk
      cases hblk
    · exact absurd ⟨current, t, rfl, hq, ht⟩ hrep

/-- A step in which no task goes back to sleep is a step of a queue of `sleep_on`. -/
theorem Linked.rouse (h : s.deep.Linked) (hst : Interruptible.Step initTask s e s')
    (hrep : ¬ s.Repeats e) : s'.deep.Linked := by
  cases hst with
  | sleepOn hout hrun hs =>
    rename_i current
    simp only [interruptibleSleepOn] at hs
    split at hs
    · cases hs
    · next hne =>
      cases hs
      have hdeep : s.deep.sleepOn initTask current = .ok (deep { s with
          q := some current
          state := Function.update s.state current .interruptible
          tmp := Function.update s.tmp current (some s.q) }) := by
        have hstate := congrArg WaitQueue.state (deep_setState (s := s) current .interruptible)
        rw [WaitQueue.sleepOn, if_neg hne]
        exact congrArg (fun f => Except.ok (⟨some current, f, _⟩ : WaitQueue T)) hstate.symm
      have hrun' : s.deep.state current = .running := TaskState.deep_running.mpr hrun
      exact h.step (.sleepOn hout hrun' hdeep)
  | wakened hin hrun =>
    rename_i current tmp
    have hnone := h.head_running hrun hrep
    have hrun' : s.deep.state current = .running := TaskState.deep_running.mpr hrun
    have hsame : (s.roused current tmp).deep = s.deep.wakened current tmp := by
      have hq : { s with q := none } = s := by rw [← hnone]
      have hroused : s.roused current tmp = s.leave current tmp := by
        unfold roused
        rw [hnone]
      rw [hroused]
      unfold leave WaitQueue.wakened
      rw [hq, ← deep_run]
      rfl
    rw [hsame]
    exact h.step (Step.wakened hin hrun' : Step initTask s.deep _ _)
  | wakeUp =>
    rw [deep_wakeUp]
    exact h.step (Step.wakeUp : Step initTask s.deep _ _)
  | other st hout =>
    rename_i t
    rw [deep_setState]
    exact h.step (Step.other st.deep hout : Step initTask s.deep _ _)

omit [DecidableEq T] in
theorem Linked.kept (h : s.deep.Linked) : s.Kept := by
  intro t ht
  have hblk : s.deep.Blocked t := by
    refine ⟨ht.1, ?_⟩
    show (s.state t).deep = _
    rw [ht.2]
    rfl
  obtain ⟨u, hpath, hfront⟩ := h.front hblk
  refine ⟨u, hpath, hfront.imp id fun hout => ?_⟩
  exact ⟨hout.1, TaskState.deep_running.mp hout.2⟩

/-- A task that goes back to sleep is on the queue no more. -/
theorem Linked.dropped (h : s.deep.Linked) (hst : Interruptible.Step initTask s e s')
    (hrep : s.Repeats e) : ¬ s'.Kept := by
  obtain ⟨current, t, rfl, hq, ht⟩ := hrep
  cases hst with
  | wakened hin hrun =>
    rename_i tmp
    have hnext : s.roused current tmp = (s.setState t .running).setState current .interruptible := by
      unfold roused
      rw [hq]
      exact if_pos ht
    have hstate : (s.roused current tmp).state current = .interruptible := by
      rw [hnext]
      exact Function.update_self ..
    have htmp : (s.roused current tmp).tmp = s.tmp := by
      rw [hnext]
      rfl
    intro hkept
    have hin' : (s.roused current tmp).tmp current ≠ none := by
      rw [htmp, hin]
      exact Option.some_ne_none _
    obtain ⟨u, hpath, hfront⟩ := hkept current ⟨hin', hstate⟩
    rcases Relation.ReflTransGen.cases_head hpath with rfl | ⟨v, hsave, -⟩
    · rcases hfront with hhead | hout
      · rw [hnext] at hhead
        have heq : some t = some current := hq.symm.trans hhead
        exact ht (Option.some.inj heq)
      · rw [hstate] at hout
        cases hout.2
    · -- whom somebody has saved is blocked
      obtain ⟨at_, now, h⟩ := h
      have hsave' : s.deep.Saves v current := by
        rw [Saves, htmp] at hsave
        exact hsave
      have hblk : (s.state current).deep = .uninterruptible := (h.saved v current hsave').1.2
      rw [hrun] at hblk
      cases hblk

/-- Every sleeper is kept, in every state of a run from an empty queue, if and only if no task that
returns from `schedule` finds another one at the head. -/
theorem sleepers_kept {ls : List (WaitQueue T × Event T)} (h0 : s.Empty)
    (hrun : Lib.Run (Interruptible.Goes initTask) s ls s') :
    ((∀ l ∈ ls, l.1.Kept) ∧ s'.Kept) ↔ ∀ l ∈ ls, ¬ l.1.Repeats l.2 := by
  have hlinked : ∀ {ls s'}, Lib.Run (Interruptible.Goes initTask) s ls s' →
      (∀ l ∈ ls, ¬ l.1.Repeats l.2) → s'.deep.Linked := by
    intro ls s' hrun
    induction hrun with
    | nil =>
      have hempty : s.deep.Empty := h0
      exact fun _ => ⟨fun _ => 0, 0, hempty.chained _⟩
    | @snoc ls s₁ s₂ l _ hst ih =>
      intro hrep
      obtain ⟨rfl, hst⟩ := hst
      exact (ih fun l' hl' => hrep l' (List.mem_append_left _ hl')).rouse hst
        (hrep l (List.mem_append_right _ (List.mem_singleton_self l)))
  induction hrun with
  | nil => exact ⟨fun _ l hl => absurd hl List.not_mem_nil, fun h => ⟨fun l hl => absurd hl List.not_mem_nil,
      (hlinked .nil h).kept⟩⟩
  | @snoc ls s₁ s₂ l hrun hst ih =>
    have hpre : l.1 = s₁ := hst.1
    constructor
    · rintro ⟨hkept, hlast⟩ l' hl'
      have hbefore := ih.mp ⟨fun l hl => hkept l (List.mem_append_left _ hl),
        hpre ▸ hkept l (List.mem_append_right _ (List.mem_singleton_self l))⟩
      rcases List.mem_append.mp hl' with hold | hnew
      · exact hbefore l' hold
      · obtain rfl := List.mem_singleton.mp hnew
        intro hrep
        rw [hpre] at hrep
        exact (hlinked hrun hbefore).dropped hst.2 hrep hlast
    · intro hrep
      have hbefore := ih.mpr fun l' hl' => hrep l' (List.mem_append_left _ hl')
      refine ⟨fun l' hl' => ?_, (hlinked (.snoc hrun hst) hrep).kept⟩
      rcases List.mem_append.mp hl' with hold | hnew
      · exact hbefore.1 l' hold
      · obtain rfl := List.mem_singleton.mp hnew
        rw [hpre]
        exact hbefore.2

end

/-- The only task in the call, 1, is asleep. -/
def oneSleeper : WaitQueue Nat where
  q := some 1
  state := Function.update (fun _ => .running) 1 .interruptible
  tmp := Function.update (fun _ => none) 1 (some none)

/-- It was woken, and before it returned task 2 went to sleep. -/
def newSleeper : WaitQueue Nat where
  q := some 2
  state := Function.update oneSleeper.wakeUp.state 2 .interruptible
  tmp := Function.update oneSleeper.wakeUp.tmp 2 (some none)

def noSleeper : WaitQueue Nat := ⟨none, fun _ => .running, fun _ => none⟩

theorem goes_oneSleeper : Interruptible.Goes 0 noSleeper (noSleeper, .sleepOn 1) oneSleeper :=
  ⟨rfl, .sleepOn rfl rfl rfl⟩

theorem goes_wakeUp : Interruptible.Goes 0 oneSleeper (oneSleeper, .wakeUp) oneSleeper.wakeUp :=
  ⟨rfl, .wakeUp⟩

/-- Task 1 wakes task 2 and sleeps on; task 2 empties the queue, and no `wake_up` finds task 1. -/
theorem sleeper_dropped :
    ∃ ls s', Lib.Run (Interruptible.Goes 0) noSleeper ls s' ∧
      s'.Asleep 1 ∧ ¬ s'.Kept ∧ s'.wakeUp = s' ∧ ∀ u, u ≠ 1 → s'.tmp u = none := by
  have h₃ : Interruptible.Goes 0 oneSleeper.wakeUp (_, .sleepOn 2) newSleeper :=
    ⟨rfl, .sleepOn rfl rfl rfl⟩
  have h₄ : Interruptible.Goes 0 newSleeper (_, .wakened 1) (newSleeper.roused 1 none) :=
    ⟨rfl, .wakened rfl rfl⟩
  have h₅ : Interruptible.Goes 0 (newSleeper.roused 1 none) (_, .wakened 2)
      ((newSleeper.roused 1 none).roused 2 none) := ⟨rfl, .wakened rfl rfl⟩
  have hrun := Lib.Run.snoc (.snoc (.snoc (.snoc (.snoc .nil goes_oneSleeper) goes_wakeUp) h₃) h₄) h₅
  have hothers : ∀ u, u ≠ 1 → ((newSleeper.roused 1 none).roused 2 none).tmp u = none := by
    intro u hu
    show Function.update (Function.update (Function.update (fun _ : Nat => (none : Option (Option Nat)))
      1 (some none)) 2 (some none)) 2 none u = none
    grind
  refine ⟨_, _, hrun, ⟨by decide, rfl⟩, fun hkept => ?_, rfl, hothers⟩
  obtain ⟨u, hpath, hfront⟩ := hkept 1 ⟨by decide, rfl⟩
  rcases Relation.ReflTransGen.cases_head hpath with rfl | ⟨v, hsave, -⟩
  · rcases hfront with hhead | hout
    · cases hhead
    · exact absurd hout.2 (by decide)
  · by_cases hv : v = 1
    · subst hv
      cases hsave
    · rw [Saves, hothers v hv] at hsave
      cases hsave

/-- Task 2 goes to sleep behind task 1. -/
def sleeperBehind : WaitQueue Nat where
  q := some 2
  state := Function.update oneSleeper.state 2 .interruptible
  tmp := Function.update oneSleeper.tmp 2 (some (some 1))

/-- Task 2 is woken, and passes it on to task 1 when it returns. -/
theorem sleepers_kept_two : ∃ ls s', Lib.Run (Interruptible.Goes 0) noSleeper ls s' ∧
    s'.state 1 = .running ∧ s'.state 2 = .running ∧ s'.tmp 1 = none ∧ s'.tmp 2 = none ∧
    (((∀ l ∈ ls, l.1.Kept) ∧ s'.Kept) ↔ ∀ l ∈ ls, ¬ l.1.Repeats l.2) := by
  have h₂ : Interruptible.Goes 0 oneSleeper (oneSleeper, .sleepOn 2) sleeperBehind := ⟨rfl, .sleepOn rfl rfl rfl⟩
  have h₃ : Interruptible.Goes 0 sleeperBehind (sleeperBehind, .wakeUp) sleeperBehind.wakeUp := ⟨rfl, .wakeUp⟩
  have h₄ : Interruptible.Goes 0 sleeperBehind.wakeUp (_, .wakened 2) (sleeperBehind.wakeUp.roused 2 (some 1)) :=
    ⟨rfl, .wakened rfl rfl⟩
  have h₅ : Interruptible.Goes 0 (sleeperBehind.wakeUp.roused 2 (some 1)) (_, .wakened 1)
      ((sleeperBehind.wakeUp.roused 2 (some 1)).roused 1 none) := ⟨rfl, .wakened rfl rfl⟩
  have hrun := Lib.Run.snoc (.snoc (.snoc (.snoc (.snoc .nil goes_oneSleeper) h₂) h₃) h₄) h₅
  exact ⟨_, _, hrun, rfl, rfl, rfl, rfl, sleepers_kept ⟨rfl, fun _ => rfl⟩ hrun⟩

end WaitQueue

end Linux011.Kernel
