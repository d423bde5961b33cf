import Linux011.Kernel.Process

/-!
# The scheduler

`schedule`, `do_timer` and `sys_nice` of `kernel/sched.c`, and what `copy_process` does to the fields they
use. `counter` and `priority` are signed 32-bit numbers and wrap. `fuel` bounds the turns of the loop of
`schedule`.
-/

namespace Linux011.Kernel

def sigalrm : Nat := 14
def sigstop : Nat := 19

/-- `_BLOCKABLE` -/
def blockable : BitVec 32 := ~~~(sigmask sigkill ||| sigmask sigstop)

/-- The alarm of a task runs out: the pending signals, and the new alarm. -/
def checkAlarm (jiffies alarm : Int) (signal : BitVec 32) : BitVec 32 × Int :=
  if alarm ≠ 0 ∧ alarm < jiffies then (signal ||| sigmask sigalrm, 0) else (signal, alarm)

/-- `(*p)->signal & ~(_BLOCKABLE & (*p)->blocked)` -/
def ready (signal blocked : BitVec 32) : Bool := signal &&& ~~~(blockable &&& blocked) != 0

/-- A task that has got a signal is woken. -/
def rouse (signal blocked : BitVec 32) (st : TaskState) : TaskState :=
  if ready signal blocked ∧ st = .interruptible then .running else st

/-- The fields of `task_struct` that the scheduler uses. -/
structure Turn where
  state : TaskState
  counter : BitVec 32
  priority : BitVec 32
  signal : BitVec 32
  blocked : BitVec 32
  alarm : Int
deriving DecidableEq

structure Sched where
  task : Nat → Option Turn
  current : Nat
  jiffies : Int

namespace Turn

/-- One turn of the first loop of `schedule`. -/
def wake (jiffies : Int) (T : Turn) : Turn :=
  let r := checkAlarm jiffies T.alarm T.signal
  { T with signal := r.1, alarm := r.2, state := rouse r.1 T.blocked T.state }

/-- `(*p)->counter = ((*p)->counter >> 1) + (*p)->priority;` -/
def refill (T : Turn) : Turn := { T with counter := T.counter.sshiftRight 1 + T.priority }

end Turn

namespace Sched

def setTask (s : Sched) (t : Nat) (T : Turn) : Sched := { s with task := Function.update s.task t (some T) }

/-- A loop over all tasks but task 0. -/
def eachTask (s : Sched) (f : Turn → Turn) : Sched :=
  { s with task := fun i => if 0 < i ∧ i < nrTasks then (s.task i).map f else s.task i }

/-- The search for the task with the largest counter, from slot `i` down to 1. -/
def pick (s : Sched) : (i : Nat) → (c : BitVec 32) → (next : Nat) → BitVec 32 × Nat
  | 0, c, next => (c, next)
  | i + 1, c, next =>
    match s.task (i + 1) with
    | none => s.pick i c next
    | some T =>
      if T.state = .running ∧ c.toInt < T.counter.toInt then s.pick i T.counter (i + 1)
      else s.pick i c next

/-- `while (1)` -/
def choose : (fuel : Nat) → Sched → Option Sched
  | 0, _ => none
  | fuel + 1, s =>
    let r := s.pick (nrTasks - 1) (-1) 0
    if r.1 ≠ 0 then some { s with current := r.2 } else choose fuel (s.eachTask Turn.refill)

/-- The first loop of `schedule`. -/
def wakeAll (s : Sched) : Sched := s.eachTask (Turn.wake s.jiffies)

def schedule (fuel : Nat) (s : Sched) : Option Sched := choose fuel s.wakeAll

/-- `sys_nice`, of the task `T` -/
def sysNice (s : Sched) (T : Turn) (increment : BitVec 32) : Sched :=
  if 0 < (T.priority - increment).toInt then s.setTask s.current { T with priority := T.priority - increment }
  else s

/-- `do_timer`, in the task `T`. The times, the beeper, the timers and the floppy are left out. -/
def doTimer (fuel : Nat) (s : Sched) (T : Turn) (cpl : Bool) : Option Sched :=
  let counter := T.counter - 1
  if 0 < counter.toInt then some (s.setTask s.current { T with counter })
  else
    let s := s.setTask s.current { T with counter := 0 }
    if cpl then s.schedule fuel else some s

/-- `copy_process` of the task `T`. -/
def fork (s : Sched) (nr : Nat) (T : Turn) : Sched :=
  s.setTask nr { T with state := .running, counter := T.priority, signal := 0, alarm := 0 }

end Sched

/-- Who moves. `other` is what the rest of the kernel does to a task: it sleeps, is woken, stops or ends,
gets signals, blocks them, and sets its alarm. -/
inductive SchedEvent where
  | fork (nr : Nat)
  | nice (increment : BitVec 32)
  | tick (cpl : Bool)
  | schedule
  | release (t : Nat)
  | other (t : Nat)

namespace Sched

inductive Step : Sched → SchedEvent → Sched → Prop
  | fork {s : Sched} {nr : Nat} {T : Turn} (hT : s.task s.current = some T) (hnr : 0 < nr ∧ nr < nrTasks)
      (hfree : s.task nr = none) : Step s (.fork nr) (s.fork nr T)
  | nice {s : Sched} {T : Turn} {increment : BitVec 32} (hT : s.task s.current = some T) :
      Step s (.nice increment) (s.sysNice T increment)
  | tick {s s' : Sched} {T : Turn} {cpl : Bool} {fuel : Nat} (hT : s.task s.current = some T)
      (h : doTimer fuel { s with jiffies := s.jiffies + 1 } T cpl = some s') : Step s (.tick cpl) s'
  | schedule {s s' : Sched} {fuel : Nat} (h : s.schedule fuel = some s') : Step s .schedule s'
  | release {s : Sched} {t : Nat} (ht : t ≠ 0) :
      Step s (.release t) { s with task := Function.update s.task t none }
  | other {s : Sched} {t : Nat} {T T' : Turn} (hT : s.task t = some T)
      (hsame : T'.counter = T.counter ∧ T'.priority = T.priority) : Step s (.other t) (s.setTask t T')

/-- A step with the state in which it is taken. -/
def Goes (s : Sched) (l : Sched × SchedEvent) (s' : Sched) : Prop := l.1 = s ∧ Step s l.2 s'

/-- `INIT_TASK`, and no other task. -/
def boot : Sched where
  task := Function.update (fun _ => none) 0 (some ⟨.running, 15, 15, 0, 0, 0⟩)
  current := 0
  jiffies := 0

/-- There is a running task in slot `i`, other than task 0. -/
def Runs (s : Sched) (i : Nat) (T : Turn) : Prop :=
  0 < i ∧ i < nrTasks ∧ s.task i = some T ∧ T.state = .running

/-- If there is a running task other than task 0, one with the largest counter is the current task. -/
def Proper (s : Sched) : Prop :=
  (∃ i T, s.Runs i T) →
    ∃ T, s.Runs s.current T ∧ ∀ j U, s.Runs j U → U.counter.toInt ≤ T.counter.toInt

def All (s : Sched) (P : Turn → Prop) : Prop := ∀ i T, s.task i = some T → P T

/-- What all steps keep. -/
def Inv (s : Sched) : Prop := s.All fun T => 0 < T.priority.toInt

variable {s s' : Sched} {T : Turn}

/-! ## The choice -/

/-- The search gives the largest counter of the running tasks, if it is larger than `c`. -/
theorem pick_spec (n : Nat) : ∀ c next,
    (∀ i T, s.Runs i T → i ≤ n → T.counter.toInt ≤ (s.pick n c next).1.toInt) ∧
    c.toInt ≤ (s.pick n c next).1.toInt ∧
    (s.pick n c next = (c, next) ∨ ∃ T, s.task (s.pick n c next).2 = some T ∧
      T.state = .running ∧ 0 < (s.pick n c next).2 ∧ (s.pick n c next).2 ≤ n ∧
      T.counter = (s.pick n c next).1 ∧ c.toInt < T.counter.toInt) := by
  induction n with
  | zero => exact fun c next => ⟨fun i T hT hi => absurd hT.1 (by omega), le_rfl, .inl rfl⟩
  | succ n ih =>
    intro c next
    unfold pick
    cases hT : s.task (n + 1) with
    | none =>
      obtain ⟨hmax, hle, hsel⟩ := ih c next
      refine ⟨fun i T hi hin => hmax i T hi ?_, hle, hsel.imp id ?_⟩
      · have hne : i ≠ n + 1 := by
          rintro rfl
          have hsome := hi.2.2.1
          rw [hT] at hsome
          cases hsome
        omega
      · rintro ⟨T, h, hrun, h0, hn, hc⟩
        exact ⟨T, h, hrun, h0, Nat.le_succ_of_le hn, hc⟩
    | some T =>
      simp only
      split
      · next hbetter =>
        obtain ⟨hmax, hle, hsel⟩ := ih T.counter (n + 1)
        refine ⟨fun i U hU hi => ?_, by omega, .inr ?_⟩
        · rcases Nat.lt_or_eq_of_le hi with hlt | rfl
          · exact hmax i U hU (by omega)
          · cases hT.symm.trans hU.2.2.1
            exact hle
        · rcases hsel with heq | ⟨U, h, hrun, h0, hn, hc, hlt⟩
          · rw [heq]
            exact ⟨T, hT, hbetter.1, Nat.succ_pos n, le_rfl, rfl, hbetter.2⟩
          · exact ⟨U, h, hrun, h0, by omega, hc, by omega⟩
      · next hworse =>
        obtain ⟨hmax, hle, hsel⟩ := ih c next
        refine ⟨fun i U hU hi => ?_, hle, hsel.imp id ?_⟩
        · rcases Nat.lt_or_eq_of_le hi with hlt | rfl
          · exact hmax i U hU (by omega)
          · cases hT.symm.trans hU.2.2.1
            have hno : ¬ c.toInt < T.counter.toInt := fun hlt => hworse ⟨hU.2.2.2, hlt⟩
            omega
        · rintro ⟨U, h, hrun, h0, hn, hc⟩
          exact ⟨U, h, hrun, h0, by omega, hc⟩

/-! ## `schedule` -/

theorem eachTask_some {f : Turn → Turn} {i : Nat} {U : Turn} (hi : 0 < i) (hn : i < nrTasks) :
    (s.eachTask f).task i = some U ↔ ∃ T, s.task i = some T ∧ U = f T := by
  show (if 0 < i ∧ i < nrTasks then (s.task i).map f else s.task i) = _ ↔ _
  rw [if_pos ⟨hi, hn⟩, Option.map_eq_some_iff]
  simp only [eq_comm]

theorem runs_refill {i : Nat} {U : Turn} :
    (s.eachTask Turn.refill).Runs i U ↔ ∃ T, s.Runs i T ∧ U = T.refill := by
  constructor
  · rintro ⟨hi, hn, hU, hrun⟩
    obtain ⟨T, hT, rfl⟩ := (eachTask_some hi hn).mp hU
    exact ⟨T, ⟨hi, hn, hT, hrun⟩, rfl⟩
  · rintro ⟨T, ⟨hi, hn, hT, hrun⟩, rfl⟩
    exact ⟨hi, hn, (eachTask_some hi hn).mpr ⟨T, hT, rfl⟩, hrun⟩

/-- What the search leaves, if it finds a task. -/
theorem proper_of_pick {c : BitVec 32} {next : Nat} (h : s.pick (nrTasks - 1) (-1) 0 = (c, next))
    (hc : 0 ≤ c.toInt) : Proper { s with current := next } := by
  obtain ⟨hmax, -, hsel⟩ := s.pick_spec (nrTasks - 1) (-1) 0
  rw [h] at hmax hsel
  rcases hsel with heq | ⟨T, hT, hrun, h0, hn, rfl, -⟩
  · cases heq
    exact absurd hc (by decide)
  · refine fun _ => ⟨T, ⟨h0, Nat.lt_of_le_pred (by decide) hn, hT, hrun⟩, fun j U hU => ?_⟩
    exact hmax j U hU (Nat.le_pred_of_lt hU.2.1)

/-- Some running task has a time slice that is not negative, if there is a running task at all. -/
def Served (s : Sched) : Prop :=
  (∃ i T, s.Runs i T) → ∃ i T, s.Runs i T ∧ 0 ≤ T.counter.toInt

/-- A running task whose slice is used up gets a new one. -/
theorem pick_refill (h : s.Inv) {i : Nat} {T : Turn} (hT : s.Runs i T) (hzero : T.counter = 0) :
    0 < ((s.eachTask Turn.refill).pick (nrTasks - 1) (-1) 0).1.toInt := by
  have hmax := ((s.eachTask Turn.refill).pick_spec (nrTasks - 1) (-1) 0).1 i T.refill
    (runs_refill.mpr ⟨T, hT, rfl⟩) (Nat.le_pred_of_lt hT.2.1)
  have hslice : T.refill.counter = T.priority := by
    unfold Turn.refill
    rw [hzero]
    simp
  have hpos := h i T hT.2.2.1
  rw [hslice] at hmax
  omega

/-- The loop ends in its second turn at the latest, and chooses well if and only if some running task has
a slice that is not negative. -/
theorem choose_spec (h : s.Inv) :
    ∃ s', (∀ fuel, 2 ≤ fuel → choose fuel s = some s') ∧ (s'.Proper ↔ s.Served) := by
  obtain ⟨hmax, -, hsel⟩ := s.pick_spec (nrTasks - 1) (-1) 0
  cases hpick : s.pick (nrTasks - 1) (-1) 0 with
  | mk c next =>
    rw [hpick] at hmax hsel
    by_cases hc : c = 0
    · -- all slices are used up
      obtain ⟨T, hT, hrun, h0, hn, hcount, -⟩ : ∃ T, s.task next = some T ∧ T.state = .running ∧
          0 < next ∧ next ≤ nrTasks - 1 ∧ T.counter = c ∧ (-1 : BitVec 32).toInt < T.counter.toInt := by
        rcases hsel with heq | hfound
        · cases heq
          exact absurd hc (by decide)
        · exact hfound
      have hT : s.Runs next T := ⟨h0, Nat.lt_of_le_pred (by decide) hn, hT, hrun⟩
      have hpos := pick_refill h hT (hcount.trans hc)
      have hsecond : ((s.eachTask Turn.refill).pick (nrTasks - 1) (-1) 0).1 ≠ 0 := by
        intro hzero
        rw [hzero] at hpos
        exact absurd hpos (by decide)
      refine ⟨{ s.eachTask Turn.refill with
        current := ((s.eachTask Turn.refill).pick (nrTasks - 1) (-1) 0).2 }, fun fuel hfuel => ?_, ?_⟩
      · obtain ⟨fuel, rfl⟩ := Nat.exists_eq_add_of_le' hfuel
        rw [choose, hpick]
        simp only
        rw [if_neg (not_not.mpr hc), choose]
        exact if_pos hsecond
      · have hproper := proper_of_pick (s := s.eachTask Turn.refill) rfl hpos.le
        have hserved : s.Served := by
          refine fun _ => ⟨next, T, hT, ?_⟩
          rw [hcount, hc]
          decide
        exact ⟨fun _ => hserved, fun _ => hproper⟩
    · refine ⟨{ s with current := next }, fun fuel hfuel => ?_, ?_⟩
      · obtain ⟨fuel, rfl⟩ := Nat.exists_eq_add_of_le' hfuel
        rw [choose, hpick]
        exact if_pos hc
      · rcases hsel with heq | ⟨T, hT, hrun, h0, hn, rfl, hlt⟩
        · -- nobody was found: all slices are negative
          cases heq
          constructor
          · rintro hproper hsome
            obtain ⟨T, ⟨hpos, -⟩, -⟩ := hproper hsome
            exact absurd hpos (Nat.lt_irrefl 0)
          · rintro hserved ⟨i, T, hT⟩
            obtain ⟨j, U, hU, hnonneg⟩ := hserved ⟨i, T, hT⟩
            have hle : U.counter.toInt ≤ (-1 : BitVec 32).toInt := hmax j U hU (Nat.le_pred_of_lt hU.2.1)
            have hneg : (-1 : BitVec 32).toInt < 0 := by decide
            omega
        · have hminus : (-1 : BitVec 32).toInt = -1 := by decide
          have hnonneg : 0 ≤ T.counter.toInt := by omega
          exact ⟨fun _ _ => ⟨next, T, ⟨h0, Nat.lt_of_le_pred (by decide) hn, hT, hrun⟩, hnonneg⟩,
            fun _ => proper_of_pick hpick hnonneg⟩

/-! ## Runs -/

/-- What holds of a task and depends on its slice and its priority only, is kept by the scheduler, by the
clock and by `fork`. -/
structure Keeps (P : Turn → Prop) : Prop where
  same : ∀ T T' : Turn, T'.counter = T.counter → T'.priority = T.priority → P T → P T'
  refill : ∀ T : Turn, P T → P T.refill
  down : ∀ T : Turn, P T → 0 < (T.counter - 1).toInt → P { T with counter := T.counter - 1 }
  zero : ∀ T : Turn, P T → P { T with counter := 0 }
  fork : ∀ T : Turn, P T → P { T with counter := T.priority }

section

variable {P : Turn → Prop}

theorem All.setTask (h : s.All P) {t : Nat} (hT : P T) : (s.setTask t T).All P := by
  intro i U hU
  by_cases hi : i = t
  · subst hi
    cases (Function.update_self i _ s.task).symm.trans hU
    exact hT
  · exact h i U ((Function.update_of_ne hi _ s.task).symm.trans hU)

theorem All.eachTask {f : Turn → Turn} (h : s.All P) (hf : ∀ T, P T → P (f T)) : (s.eachTask f).All P := by
  intro i U hU
  change (if 0 < i ∧ i < nrTasks then (s.task i).map f else s.task i) = some U at hU
  split at hU
  · obtain ⟨T, hT, rfl⟩ := Option.map_eq_some_iff.mp hU
    exact hf T (h i T hT)
  · exact h i U hU

theorem All.schedule (hP : Keeps P) (h : s.All P) {fuel : Nat} (hs : s.schedule fuel = some s') : s'.All P := by
  have hchoose : ∀ fuel (s : Sched), s.All P → choose fuel s = some s' → s'.All P := by
    intro fuel
    induction fuel with
    | zero =>
      intro s _ hs
      cases hs
    | succ fuel ih =>
      intro s h hs
      rw [choose] at hs
      split at hs
      · cases hs
        exact h
      · exact ih _ (h.eachTask hP.refill) hs
  have hwoken : s.wakeAll.All P := h.eachTask fun T hT => hP.same T (T.wake s.jiffies) rfl rfl hT
  exact hchoose fuel _ hwoken hs

/-- Only `sys_nice` can break it. -/
theorem All.step {e : SchedEvent} (hP : Keeps P) (h : s.All P) (hst : Step s e s')
    (hnice : ∀ increment T, e = .nice increment → s.task s.current = some T → P T →
      0 < (T.priority - increment).toInt → P { T with priority := T.priority - increment }) : s'.All P := by
  cases hst with
  | fork hT hnr hfree =>
    rename_i T
    have hchild := hP.fork T (h _ _ hT)
    exact h.setTask (hP.same { T with counter := T.priority } _ rfl rfl hchild)
  | nice hT =>
    unfold sysNice
    split
    · next hpos => exact h.setTask (hnice _ _ rfl hT (h _ _ hT) hpos)
    · exact h
  | tick hT hs =>
    rename_i T cpl fuel
    have h : ({ s with jiffies := s.jiffies + 1 } : Sched).All P := h
    unfold doTimer at hs
    simp only at hs
    split at hs
    · next hpos =>
      cases hs
      exact h.setTask (hP.down _ (h _ _ hT) hpos)
    · have hzero := h.setTask (t := s.current) (hP.zero _ (h _ _ hT))
      split at hs
      · exact hzero.schedule hP hs
      · cases hs
        exact hzero
  | schedule hs => exact h.schedule hP hs
  | release ht =>
    rename_i t
    intro i T hT
    by_cases hi : i = t
    · subst hi
      cases (Function.update_self _ _ s.task).symm.trans hT
    · exact h i T ((Function.update_of_ne hi _ s.task).symm.trans hT)
  | other hT hsame => exact h.setTask (hP.same _ _ hsame.1 hsame.2 (h _ _ hT))

end

theorem keeps_priority : Keeps fun T => 0 < T.priority.toInt where
  same T T' _ hsame hT := by
    rw [hsame]
    exact hT
  refill T hT := hT
  down T hT _ := hT
  zero T hT := hT
  fork T hT := hT

theorem Inv.step {e : SchedEvent} (h : s.Inv) (hst : Step s e s') : s'.Inv :=
  All.step keeps_priority h hst fun _ _ _ _ _ hpos => hpos

theorem boot_all {P : Turn → Prop} (h : P ⟨.running, 15, 15, 0, 0, 0⟩) : boot.All P := by
  intro i T hT
  by_cases hi : i = 0
  · subst hi
    cases hT
    exact h
  · have hnone : boot.task i = none := by
      show Function.update (fun _ => (none : Option Turn)) 0 _ i = none
      rw [Function.update_of_ne hi]
    rw [hnone] at hT
    cases hT

/-! ### Moderate priorities -/

/-- Neither the sum in the loop of `schedule` nor `sys_nice` overflows. -/
def Slice (T : Turn) : Prop := 0 < T.priority.toInt ∧ T.priority.toInt ≤ 2 ^ 30 ∧ 0 ≤ T.counter.toInt

theorem keeps_slice : Keeps Slice where
  same T T' hcounter hpriority hT := by
    unfold Slice
    rw [hcounter, hpriority]
    exact hT
  refill T hT := by
    obtain ⟨hpos, hle, hcount⟩ := hT
    refine ⟨hpos, hle, ?_⟩
    have hlt : T.counter.toInt < 2 ^ 31 := BitVec.toInt_lt (x := T.counter)
    have hhalf : (T.counter.sshiftRight 1).toInt = T.counter.toInt / 2 := by
      rw [BitVec.toInt_sshiftRight, Int.shiftRight_eq_div_pow]
      rfl
    show 0 ≤ (T.counter.sshiftRight 1 + T.priority).toInt
    rw [BitVec.toInt_add, hhalf, Int.bmod_eq_of_le_mul_two]
    · omega
    · omega
    · omega
  down T hT hpos := ⟨hT.1, hT.2.1, hpos.le⟩
  zero T hT := ⟨hT.1, hT.2.1, le_rfl⟩
  fork T hT := ⟨hT.1, hT.2.1, hT.1.le⟩

/-- The step does not make the priority of a task larger than `2 ^ 30`. -/
def Moderate (s : Sched) : SchedEvent → Prop
  | .nice increment => ∀ T, s.task s.current = some T → (T.priority - increment).toInt ≤ 2 ^ 30
  | _ => True

/-- In every state that is reached `schedule` returns, and it chooses a running task with the largest
counter if and only if not all running tasks have negative counters. That does not happen as long as
`sys_nice` makes no priority larger than `2 ^ 30`. -/
theorem schedule_proper {ls : List (Sched × SchedEvent)} (hrun : Lib.Run Goes boot ls s) :
    ∃ s', (∀ fuel, 2 ≤ fuel → s.schedule fuel = some s') ∧ (s'.Proper ↔ s.wakeAll.Served) ∧
      ((∀ l ∈ ls, l.1.Moderate l.2) → s'.Proper) := by
  have hinv : s.Inv := by
    refine hrun.inv (I := Inv) ?_ (boot_all (P := fun T => 0 < T.priority.toInt) (by decide))
    rintro s₁ l s₂ h ⟨-, hst⟩
    exact h.step hst
  have hslice : (∀ l ∈ ls, l.1.Moderate l.2) → s.All Slice := by
    induction hrun with
    | nil => exact fun _ => boot_all ⟨by decide, by decide, by decide⟩
    | snoc hrun hst ih =>
      intro hmod
      obtain ⟨rfl, hst⟩ := hst
      have hbefore := ih (hrun.inv (I := Inv) (fun _ _ _ h hst => h.step hst.2)
        (boot_all (P := fun T => 0 < T.priority.toInt) (by decide)))
        fun l hl => hmod l (List.mem_append_left _ hl)
      refine hbefore.step keeps_slice hst ?_
      rintro increment T heq hT ⟨-, -, hcount⟩ hpos
      have hlast := hmod _ (List.mem_append_right _ (List.mem_singleton_self _))
      rw [heq] at hlast
      exact ⟨hpos, hlast T hT, hcount⟩
  have hwoken : s.wakeAll.Inv := All.eachTask hinv fun T hT => hT
  obtain ⟨s', hs', hiff⟩ := choose_spec hwoken
  refine ⟨s', hs', hiff, fun hmod => hiff.mpr fun ⟨i, T, hT⟩ => ⟨i, T, hT, ?_⟩⟩
  have hall : s.wakeAll.All Slice :=
    (hslice hmod).eachTask fun T hT => keeps_slice.same T (T.wake s.jiffies) rfl rfl hT
  exact (hall i T hT.2.2.1).2.2

/-! ## A large priority -/

/-- The state that `schedule` leaves. -/
def chosen (s : Sched) : Sched := (s.schedule 2).getD s

theorem schedule_chosen (h : (s.schedule 2).isSome = true) : s.schedule 2 = some s.chosen := by
  obtain ⟨s', hs'⟩ := Option.isSome_iff_exists.mp h
  rw [chosen, hs']
  rfl

def forked : Sched := boot.fork 1 ⟨.running, 15, 15, 0, 0, 0⟩

/-- Task 1 takes the smallest priority, and forks task 2 with it. -/
def two : Sched := (forked.chosen.sysNice ⟨.running, 15, 15, 0, 0, 0⟩ 14).fork 2 ⟨.running, 15, 1, 0, 0, 0⟩

/-- Task 1 takes the largest priority. -/
def raised : Sched := two.sysNice ⟨.running, 15, 1, 0, 0, 0⟩ (-0x7FFFFFFE)

/-- It sleeps. -/
def greedy : Sched := raised.setTask 1 ⟨.uninterruptible, 15, 0x7FFFFFFF, 0, 0, 0⟩

/-- Task 2 uses up its slice. -/
def ticked : Sched :=
  (doTimer 2 { greedy.chosen with jiffies := 1 } ⟨.running, 1, 1, 0, 0, 0⟩ true).getD greedy

/-- Task 1 is woken, and task 2 sleeps. -/
def both : Sched := ticked.setTask 1 ⟨.running, 0x80000006, 0x7FFFFFFF, 0, 0, 0⟩

def woken : Sched := both.setTask 2 ⟨.uninterruptible, 1, 1, 0, 0, 0⟩

theorem run_two : ∃ ls, Lib.Run Goes boot ls two := by
  have h₁ : Goes boot (boot, .fork 1) forked := ⟨rfl, .fork rfl (by decide) rfl⟩
  have h₂ : Goes forked (forked, .schedule) forked.chosen :=
    ⟨rfl, .schedule (schedule_chosen (by decide +kernel))⟩
  have h₃ : Goes forked.chosen (_, .nice 14) (forked.chosen.sysNice ⟨.running, 15, 15, 0, 0, 0⟩ 14) :=
    ⟨rfl, .nice (by decide +kernel)⟩
  have h₄ : Goes (forked.chosen.sysNice ⟨.running, 15, 15, 0, 0, 0⟩ 14) (_, .fork 2) two :=
    ⟨rfl, .fork (by decide +kernel) (by decide) (by decide +kernel)⟩
  exact ⟨_, .snoc (.snoc (.snoc (.snoc .nil h₁) h₂) h₃) h₄⟩

theorem run_woken : ∃ ls, Lib.Run Goes boot ls woken := by
  obtain ⟨ls, hrun⟩ := run_two
  have h₁ : Goes two (two, .nice (-0x7FFFFFFE)) raised := ⟨rfl, .nice (by decide +kernel)⟩
  have h₂ : Goes raised (raised, .other 1) greedy :=
    ⟨rfl, .other (T := ⟨.running, 15, 0x7FFFFFFF, 0, 0, 0⟩) (by decide +kernel) ⟨rfl, rfl⟩⟩
  have h₃ : Goes greedy (greedy, .schedule) greedy.chosen :=
    ⟨rfl, .schedule (schedule_chosen (by decide +kernel))⟩
  have hsome : (doTimer 2 { greedy.chosen with jiffies := 1 } ⟨.running, 1, 1, 0, 0, 0⟩ true).isSome = true := by
    decide +kernel
  have htick : doTimer 2 { greedy.chosen with jiffies := 1 } ⟨.running, 1, 1, 0, 0, 0⟩ true = some ticked := by
    obtain ⟨s', hs'⟩ := Option.isSome_iff_exists.mp hsome
    rw [ticked, hs']
    rfl
  have h₄ : Goes greedy.chosen (greedy.chosen, .tick true) ticked :=
    ⟨rfl, .tick (T := ⟨.running, 1, 1, 0, 0, 0⟩) (by decide +kernel) htick⟩
  have h₅ : Goes ticked (ticked, .other 1) both :=
    ⟨rfl, .other (T := ⟨.uninterruptible, 0x80000006, 0x7FFFFFFF, 0, 0, 0⟩) (by decide +kernel) ⟨rfl, rfl⟩⟩
  have h₆ : Goes both (both, .other 2) woken :=
    ⟨rfl, .other (T := ⟨.running, 1, 1, 0, 0, 0⟩) (by decide +kernel) ⟨rfl, rfl⟩⟩
  exact ⟨_, .snoc (.snoc (.snoc (.snoc (.snoc (.snoc hrun h₁) h₂) h₃) h₄) h₅) h₆⟩

/-- Task 1 is the only running task, its counter has overflowed, and task 0 is chosen. -/
theorem schedule_idles : ∃ ls, Lib.Run Goes boot ls woken ∧
    (∃ T, woken.Runs 1 T ∧ T.counter.toInt < 0) ∧ woken.schedule 2 = some woken.chosen ∧
    woken.chosen.current = 0 ∧ ¬ woken.chosen.Proper := by
  obtain ⟨ls, hrun⟩ := run_woken
  have hidle : woken.chosen.current = 0 := by decide +kernel
  have hT : woken.chosen.task 1 = some ⟨.running, 0x80000006, 0x7FFFFFFF, 0, 0, 0⟩ := by decide +kernel
  refine ⟨ls, hrun, ⟨⟨.running, 0x80000006, 0x7FFFFFFF, 0, 0, 0⟩, ⟨by decide, by decide, by decide +kernel, rfl⟩,
    by decide⟩, schedule_chosen (by decide +kernel), hidle, fun hproper => ?_⟩
  obtain ⟨T, hruns, -⟩ := hproper ⟨1, _, by decide, by decide, hT, rfl⟩
  rw [hidle] at hruns
  exact absurd hruns.1 (Nat.lt_irrefl 0)

theorem schedule_proper_two : ∃ ls s', Lib.Run Goes boot ls two ∧
    (∀ fuel, 2 ≤ fuel → two.schedule fuel = some s') ∧ (s'.Proper ↔ two.wakeAll.Served) ∧
    ((∀ l ∈ ls, l.1.Moderate l.2) → s'.Proper) := by
  obtain ⟨ls, hrun⟩ := run_two
  obtain ⟨s', hs'⟩ := schedule_proper hrun
  exact ⟨ls, s', hrun, hs'⟩

end Sched

end Linux011.Kernel
