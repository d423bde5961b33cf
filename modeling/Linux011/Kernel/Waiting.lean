import Mathlib.Algebra.BigOperators.Group.Finset.Basic
import Mathlib.Algebra.Order.BigOperators.Group.Finset
import Linux011.Lib.Potential
import Linux011.Kernel.Schedule

/-!
# Waiting for the processor

A task that can run is chosen after a number of clock ticks that depends on the slices of the other tasks:
on what is left of them and, if its own slice is used up, on their next slices. Only `fork` and `nice` put
it off further.
-/

namespace Linux011.Kernel

open Lib (Run total)

namespace Sched

/-- What is left of the slice of a task. -/
def slice : Option Turn → ℕ
  | some T => T.counter.toInt.toNat
  | none => 0

/-- The slice that the task gets if all are filled now. -/
def nextSlice : Option Turn → ℕ
  | some T => T.refill.counter.toInt.toNat
  | none => 0

def others (s : Sched) (t : Nat) (f : Option Turn → ℕ) : ℕ :=
  ∑ i ∈ (Finset.range nrTasks).erase t, f (s.task i)

/-- What the other tasks can use up before task `t` is chosen. -/
def ahead (s : Sched) (t : Nat) : ℕ :=
  s.others t slice + if slice (s.task t) = 0 then s.others t nextSlice else 0

/-- The bound on the ticks. A tick that finds the slice of the current task used up uses up nothing. -/
def wait (s : Sched) (t : Nat) : ℕ := s.ahead t + if slice (s.task s.current) = 0 then 1 else 0

/-- A clock tick in user mode. -/
def userTick : Sched × SchedEvent → ℕ
  | (_, .tick true) => 1
  | _ => 0

/-- What a child adds, with its next slice, and what a higher priority can add. -/
def grant : Sched × SchedEvent → ℕ
  | (s, .fork nr) =>
    match s.task s.current with
    | some T => slice ((s.fork nr T).task nr) + nextSlice ((s.fork nr T).task nr)
    | none => 0
  | (s, .nice increment) =>
    match s.task s.current with
    | some T => (T.priority - increment).toInt.toNat
    | none => 0
  | _ => 0

variable {s s' : Sched} {t i : Nat} {T V : Turn} {f : Option Turn → ℕ}

/-! ## Slices -/

theorem Slice.refill_counter (h : Slice T) :
    T.refill.counter.toInt = T.counter.toInt / 2 + T.priority.toInt := by
  obtain ⟨hpos, hle, hcount⟩ := h
  have hlt : T.counter.toInt < 2 ^ 31 := BitVec.toInt_lt (x := T.counter)
  have hhalf : (T.counter.sshiftRight 1).toInt = T.counter.toInt / 2 := by
    rw [BitVec.toInt_sshiftRight, Int.shiftRight_eq_div_pow]
    rfl
  show (T.counter.sshiftRight 1 + T.priority).toInt = _
  rw [BitVec.toInt_add, hhalf, Int.bmod_eq_of_le_mul_two]
  · omega
  · omega

theorem nextSlice_some (h : Slice T) :
    nextSlice (some T) = slice (some T) / 2 + T.priority.toInt.toNat := by
  have hcount := h.refill_counter
  obtain ⟨hpos, -, hnonneg⟩ := h
  show T.refill.counter.toInt.toNat = T.counter.toInt.toNat / 2 + _
  omega

theorem others_le {g : Option Turn → ℕ} (h : ∀ i, i ≠ t → f (s'.task i) ≤ g (s.task i)) :
    s'.others t f ≤ s.others t g :=
  Finset.sum_le_sum fun i hi => h i (Finset.ne_of_mem_erase hi)

/-- The task in one slot changes. -/
theorem others_update {o : Option Turn} (hi : i < nrTasks) (hne : i ≠ t)
    (hs' : s'.task = Function.update s.task i o) :
    s'.others t f + f (s.task i) = s.others t f + f o := by
  have hmem : i ∈ (Finset.range nrTasks).erase t := Finset.mem_erase.mpr ⟨hne, Finset.mem_range.mpr hi⟩
  have hrest : ∑ j ∈ ((Finset.range nrTasks).erase t).erase i, f (s'.task j) =
      ∑ j ∈ ((Finset.range nrTasks).erase t).erase i, f (s.task j) := by
    refine Finset.sum_congr rfl fun j hj => ?_
    rw [hs', Function.update_of_ne (Finset.ne_of_mem_erase hj)]
  have hnew := Finset.add_sum_erase _ (fun j => f (s'.task j)) hmem
  have hold := Finset.add_sum_erase _ (fun j => f (s.task j)) hmem
  have hself : s'.task i = o := by rw [hs', Function.update_self]
  simp only [hself, hrest] at hnew
  unfold others
  omega

theorem others_setTask (hi : i < nrTasks) (hne : i ≠ t) (hT : s.task i = some T) :
    (s.setTask i V).others t f + f (some T) = s.others t f + f (some V) := by
  rw [← hT]
  exact others_update hi hne rfl

theorem setTask_self : (s.setTask i T).task i = some T := Function.update_self i _ s.task

theorem setTask_ne {j : Nat} (hne : j ≠ i) : (s.setTask i T).task j = s.task j :=
  Function.update_of_ne hne _ s.task

/-! ## `schedule` -/

/-- The chosen task has something left of its slice. Either nothing was filled, or the slice of `t` was
used up, and all were filled. -/
structure Serves (s s' : Sched) (t : Nat) : Prop where
  left : 0 < slice (s'.task s'.current)
  slices : s'.task = s.task ∨ slice (s.task t) = 0 ∧ 0 < slice (s'.task t) ∧
    s'.task = (s.eachTask Turn.refill).task

/-- The search, when there is a running task whose slice is not negative. -/
theorem pick_left (hT : s.Runs t T) (hnonneg : 0 ≤ T.counter.toInt)
    (hc : (s.pick (nrTasks - 1) (-1) 0).1 ≠ 0) : 0 < slice (s.task (s.pick (nrTasks - 1) (-1) 0).2) := by
  obtain ⟨hmax, -, hsel⟩ := s.pick_spec (nrTasks - 1) (-1) 0
  have hle := hmax t T hT (Nat.le_pred_of_lt hT.2.1)
  rcases hsel with heq | ⟨U, hU, -, -, -, hcount, -⟩
  · have hle : T.counter.toInt ≤ (-1 : BitVec 32).toInt := by rwa [heq] at hle
    have hminus : (-1 : BitVec 32).toInt = -1 := by decide
    omega
  · have hne : (s.pick (nrTasks - 1) (-1) 0).1.toInt ≠ 0 := fun hzero => hc (BitVec.eq_of_toInt_eq hzero)
    rw [hU]
    show 0 < U.counter.toInt.toNat
    rw [hcount]
    omega

theorem choose_serves {fuel : Nat} (h : s.All Slice) (hT : s.Runs t T) (hs : choose fuel s = some s') :
    Serves s s' t := by
  have hslice := h t T hT.2.2.1
  cases fuel with
  | zero => cases hs
  | succ fuel =>
    rw [choose] at hs
    split at hs
    · next hc =>
      obtain rfl := Option.some.inj hs
      have hleft := pick_left hT hslice.2.2 hc
      exact ⟨hleft, .inl rfl⟩
    · next hc =>
      -- the slices of all running tasks are used up
      have hspent : T.counter = 0 := by
        have hle := (s.pick_spec (nrTasks - 1) (-1) 0).1 t T hT (Nat.le_pred_of_lt hT.2.1)
        rw [not_not.mp hc] at hle
        have hnonneg := hslice.2.2
        have hzero : (0 : BitVec 32).toInt = 0 := rfl
        exact BitVec.eq_of_toInt_eq (by omega)
      have hnew : T.refill.counter = T.priority := by
        unfold Turn.refill
        rw [hspent]
        simp
      have hruns : (s.eachTask Turn.refill).Runs t T.refill := runs_refill.mpr ⟨T, hT, rfl⟩
      have hpos := pick_refill (fun i T hT => (h i T hT).1) hT hspent
      have hne : ((s.eachTask Turn.refill).pick (nrTasks - 1) (-1) 0).1 ≠ 0 := by
        intro hzero
        rw [hzero] at hpos
        exact absurd hpos (by decide)
      cases fuel with
      | zero => cases hs
      | succ fuel =>
        rw [choose, if_pos hne] at hs
        obtain rfl := Option.some.inj hs
        have hleft := pick_left hruns (keeps_slice.refill T hslice).2.2 hne
        refine ⟨hleft, .inr ⟨?_, ?_, rfl⟩⟩
        · rw [hT.2.2.1]
          show T.counter.toInt.toNat = 0
          rw [hspent]
          rfl
        · show 0 < slice ((s.eachTask Turn.refill).task t)
          rw [hruns.2.2.1]
          show 0 < T.refill.counter.toInt.toNat
          rw [hnew]
          have hpriority := hslice.1
          omega

/-- The first loop changes no slice. -/
theorem wakeAll_task (hf : ∀ T : Turn, f (some (T.wake s.jiffies)) = f (some T)) (i : Nat) :
    f (s.wakeAll.task i) = f (s.task i) := by
  show f (if 0 < i ∧ i < nrTasks then (s.task i).map _ else s.task i) = _
  split
  · cases s.task i with
    | none => rfl
    | some T => exact hf T
  · rfl

theorem Runs.wakeAll (hT : s.Runs t T) : s.wakeAll.Runs t (T.wake s.jiffies) := by
  refine ⟨hT.1, hT.2.1, (eachTask_some hT.1 hT.2.1).mpr ⟨T, hT.2.2.1, rfl⟩, ?_⟩
  show rouse _ _ T.state = .running
  rw [hT.2.2.2]
  unfold rouse
  split <;> rfl

/-- A slice is filled up by its next one at most. -/
theorem slice_refill_le (i : Nat) :
    slice ((s.eachTask Turn.refill).task i) ≤ slice (s.task i) + nextSlice (s.task i) := by
  show slice (if 0 < i ∧ i < nrTasks then (s.task i).map _ else s.task i) ≤ _
  split
  · cases hi : s.task i with
    | none => exact Nat.zero_le _
    | some T => exact Nat.le_add_left _ _
  · exact Nat.le_add_right _ _

theorem schedule_ahead {fuel : Nat} (h : s.All Slice) (hT : s.Runs t T) (hs : s.schedule fuel = some s') :
    s'.wait t ≤ s.ahead t := by
  have hwoken : s.wakeAll.All Slice := h.eachTask fun T hT => keeps_slice.same T (T.wake s.jiffies) rfl rfl hT
  obtain ⟨hleft, hslices⟩ := choose_serves hwoken hT.wakeAll hs
  have hslice := wakeAll_task (s := s) (f := slice) fun T => rfl
  have hnext := wakeAll_task (s := s) (f := nextSlice) fun T => rfl
  have hsame : s.wakeAll.ahead t = s.ahead t := by
    unfold ahead others
    simp only [hslice, hnext]
  unfold wait
  rw [if_neg (by omega), ← hsame]
  rcases hslices with heq | ⟨hspent, hfilled, heq⟩
  · unfold ahead others
    rw [heq, Nat.add_zero]
  · unfold ahead
    rw [if_neg (by omega), if_pos hspent]
    have hle : s'.others t slice ≤ s.wakeAll.others t fun o => slice o + nextSlice o :=
      others_le fun i _ => heq ▸ slice_refill_le i
    have hadd : (s.wakeAll.others t fun o => slice o + nextSlice o) =
        s.wakeAll.others t slice + s.wakeAll.others t nextSlice := Finset.sum_add_distrib
    omega

/-! ## The steps -/

theorem sub_one_toInt {c : BitVec 32} (hc : 0 ≤ c.toInt) : (c - 1).toInt = c.toInt - 1 := by
  have hlt : c.toInt < 2 ^ 31 := BitVec.toInt_lt (x := c)
  have hone : (1 : BitVec 32).toInt = 1 := by decide
  rw [BitVec.toInt_sub, hone, Int.bmod_eq_of_le_mul_two]
  · omega
  · omega

/-- A task other than `t` changes, and keeps a slice that is not larger. -/
theorem ahead_setTask (hi : i < nrTasks) (hne : i ≠ t) (hT : s.task i = some T)
    (hnext : nextSlice (some V) ≤ nextSlice (some T)) :
    (s.setTask i V).ahead t + slice (some T) ≤ s.ahead t + slice (some V) := by
  have hslice := others_setTask (f := slice) (V := V) hi hne hT
  have hnexts := others_setTask (f := nextSlice) (V := V) hi hne hT
  unfold ahead
  rw [setTask_ne hne.symm]
  split <;> omega

theorem userTick_le (l : Sched × SchedEvent) : userTick l ≤ 1 := by
  unfold userTick
  split <;> decide

theorem tick_wait {fuel : Nat} {cpl : Bool} {U : Turn} (h : s.All Slice) (hcur : s.current < nrTasks)
    (hne : s.current ≠ t) (hT : s.task s.current = some T) (hU : s.Runs t U)
    (hs : doTimer fuel s T cpl = some s') : userTick (s, .tick cpl) + s'.wait t ≤ s.wait t := by
  have hslice := h _ _ hT
  have hdown := sub_one_toInt hslice.2.2
  have hnow : s.wait t = s.ahead t + if T.counter.toInt.toNat = 0 then 1 else 0 := by
    unfold wait
    rw [hT]
    rfl
  rw [hnow]
  have htick := userTick_le (s, .tick cpl)
  unfold doTimer at hs
  simp only at hs
  split at hs
  · next hpos =>
    obtain rfl := Option.some.inj hs
    have hnext : nextSlice (some { T with counter := T.counter - 1 }) ≤ nextSlice (some T) := by
      rw [nextSlice_some hslice, nextSlice_some (keeps_slice.down T hslice hpos)]
      show (T.counter - 1).toInt.toNat / 2 + T.priority.toInt.toNat ≤
        T.counter.toInt.toNat / 2 + T.priority.toInt.toNat
      omega
    have hahead := ahead_setTask (V := { T with counter := T.counter - 1 }) hcur hne hT hnext
    have hleft : slice ((s.setTask s.current { T with counter := T.counter - 1 }).task s.current) =
        (T.counter - 1).toInt.toNat := by rw [setTask_self]; rfl
    change _ + T.counter.toInt.toNat ≤ _ + (T.counter - 1).toInt.toNat at hahead
    show _ + (ahead _ t + if slice (Sched.task _ s.current) = 0 then 1 else 0) ≤ _
    rw [if_neg (by omega), if_neg (by omega)]
    omega
  · next hlast =>
    have hzero := keeps_slice.zero T hslice
    have hnext : nextSlice (some { T with counter := 0 }) ≤ nextSlice (some T) := by
      rw [nextSlice_some hslice, nextSlice_some hzero]
      exact Nat.add_le_add_right (Nat.div_le_div_right (Nat.zero_le _)) _
    have hahead := ahead_setTask (V := { T with counter := 0 }) hcur hne hT hnext
    change _ + T.counter.toInt.toNat ≤ _ + 0 at hahead
    cases cpl with
    | true =>
      have hall := h.setTask (t := s.current) hzero
      have hruns : (s.setTask s.current { T with counter := 0 }).Runs t U :=
        ⟨hU.1, hU.2.1, (setTask_ne hne.symm).trans hU.2.2.1, hU.2.2.2⟩
      have hserved := schedule_ahead hall hruns hs
      split <;> omega
    | false =>
      obtain rfl := Option.some.inj hs
      have hnone : userTick (s, .tick false) = 0 := rfl
      have hleft : slice ((s.setTask s.current { T with counter := 0 }).task s.current) = 0 := by
        rw [setTask_self]
        rfl
      show _ + (ahead _ t + if slice (Sched.task _ s.current) = 0 then 1 else 0) ≤ _
      rw [if_pos hleft]
      split <;> omega

theorem fork_wait {nr : Nat} {U : Turn} (hT : s.task s.current = some T) (hnr : nr < nrTasks)
    (hfree : s.task nr = none) (hU : s.Runs t U) : (s.fork nr T).wait t ≤ s.wait t + grant (s, .fork nr) := by
  have hne : nr ≠ t := by
    rintro rfl
    cases hfree.symm.trans hU.2.2.1
  have hcur : s.current ≠ nr := by
    rintro rfl
    cases hfree.symm.trans hT
  have hslice : (s.fork nr T).others t slice + slice (s.task nr) = s.others t slice + _ :=
    others_update hnr hne rfl
  have hnext : (s.fork nr T).others t nextSlice + nextSlice (s.task nr) = s.others t nextSlice + _ :=
    others_update hnr hne rfl
  rw [hfree] at hslice hnext
  change _ + 0 = _ at hslice hnext
  have hgrant : grant (s, .fork nr) = slice ((s.fork nr T).task nr) + nextSlice ((s.fork nr T).task nr) := by
    show (match s.task s.current with | some T => _ | none => _) = _
    rw [hT]
  rw [hgrant]
  unfold wait ahead
  show _ + (if slice ((s.fork nr T).task s.current) = 0 then 1 else 0) ≤ _
  unfold fork at hslice hnext ⊢
  rw [setTask_self, setTask_ne hcur, setTask_ne hne.symm]
  split <;> omega

theorem nice_wait {increment : BitVec 32} (h : s.All Slice) (hcur : s.current < nrTasks)
    (hne : s.current ≠ t) (hT : s.task s.current = some T) (hmod : s.Moderate (.nice increment)) :
    (s.sysNice T increment).wait t ≤ s.wait t + grant (s, .nice increment) := by
  unfold sysNice
  split
  · next hpos =>
    have hslice := h _ _ hT
    have hnew : Slice { T with priority := T.priority - increment } := ⟨hpos, hmod T hT, hslice.2.2⟩
    have hslices := others_setTask (f := slice) (V := { T with priority := T.priority - increment }) hcur hne hT
    have hnexts := others_setTask (f := nextSlice) (V := { T with priority := T.priority - increment }) hcur hne hT
    rw [nextSlice_some hslice, nextSlice_some hnew] at hnexts
    change _ + _ = _ + (slice (some T) / 2 + (T.priority - increment).toInt.toNat) at hnexts
    have hsame : slice (some { T with priority := T.priority - increment }) = slice (some T) := rfl
    have hgrant : grant (s, .nice increment) = (T.priority - increment).toInt.toNat := by
      show (match s.task s.current with | some T => _ | none => _) = _
      rw [hT]
    rw [hgrant]
    unfold wait ahead
    show _ + (if slice (Sched.task _ s.current) = 0 then 1 else 0) ≤ _
    rw [setTask_self, setTask_ne hne.symm, hsame, hT]
    split <;> omega
  · exact Nat.le_add_right _ _

theorem release_wait (hcur : s.current < nrTasks) (hne : i ≠ t)
    (htask : s'.task = Function.update s.task i none) (hsame : s'.current = s.current) :
    s'.wait t ≤ s.wait t := by
  have hless : ∀ f : Option Turn → ℕ, f none = 0 → s'.others t f ≤ s.others t f := by
    intro f hf
    refine others_le fun j _ => ?_
    rw [htask]
    by_cases hj : j = i
    · rw [hj, Function.update_self, hf]
      exact Nat.zero_le _
    · rw [Function.update_of_ne hj]
  have hslice := hless slice rfl
  have hnext := hless nextSlice rfl
  have ht : s'.task t = s.task t := by rw [htask, Function.update_of_ne hne.symm]
  unfold wait ahead
  rw [ht, hsame]
  by_cases hc : s.current = i
  · -- the tick that finds nothing to use up is paid for by what the task leaves
    have hgone := others_update (f := slice) (hc ▸ hcur) hne htask
    change _ = _ + 0 at hgone
    rw [hc]
    split <;> split <;> split <;> omega
  · rw [show s'.task s.current = s.task s.current by rw [htask, Function.update_of_ne hc]]
    split <;> omega

theorem other_wait (hT : s.task i = some T) (hcounter : V.counter = T.counter)
    (hpriority : V.priority = T.priority) : (s.setTask i V).wait t = s.wait t := by
  have hslice : slice (some V) = slice (some T) := by
    show V.counter.toInt.toNat = _
    rw [hcounter]
    rfl
  have hnext : nextSlice (some V) = nextSlice (some T) := by
    show (V.counter.sshiftRight 1 + V.priority).toInt.toNat = _
    rw [hcounter, hpriority]
    rfl
  have hsame : ∀ f : Option Turn → ℕ, f (some V) = f (some T) →
      ∀ j, f ((s.setTask i V).task j) = f (s.task j) := by
    intro f hf j
    by_cases hj : j = i
    · rw [hj, setTask_self, hf, hT]
    · rw [setTask_ne hj]
  unfold wait ahead others
  simp only [hsame slice hslice, hsame nextSlice hnext]
  rfl

theorem step_wait {e : SchedEvent} {U U' : Turn} (h : s.All Slice) (hcur : s.current < nrTasks)
    (hne : s.current ≠ t) (hU : s.Runs t U) (hU' : s'.Runs t U') (hmod : s.Moderate e) (hst : Step s e s') :
    userTick (s, e) + s'.wait t ≤ s.wait t + grant (s, e) := by
  cases hst with
  | fork hT hnr hfree => exact Nat.zero_add _ ▸ fork_wait hT hnr.2 hfree hU
  | nice hT => exact Nat.zero_add _ ▸ nice_wait h hcur hne hT hmod
  | tick hT hs =>
    rename_i T cpl fuel
    have htick := tick_wait (s := { s with jiffies := s.jiffies + 1 }) h hcur hne hT hU hs
    cases cpl with
    | true => exact htick
    | false => exact htick
  | schedule hs =>
    have hserved := schedule_ahead h hU hs
    show 0 + s'.wait t ≤ s.ahead t + _ + 0
    omega
  | release ht =>
    rename_i i
    have hi : i ≠ t := by
      rintro rfl
      exact absurd ((Function.update_self i none s.task).symm.trans hU'.2.2.1) (Option.some_ne_none U').symm
    exact Nat.zero_add _ ▸ release_wait hcur hi rfl rfl
  | other hT hsame => exact Nat.zero_add _ ▸ (other_wait hT hsame.1 hsame.2).le

/-! ## Runs -/

theorem choose_current {fuel : Nat} (hs : choose fuel s = some s') : s'.current < nrTasks := by
  induction fuel generalizing s with
  | zero => cases hs
  | succ fuel ih =>
    rw [choose] at hs
    split at hs
    · obtain rfl := Option.some.inj hs
      rcases (s.pick_spec (nrTasks - 1) (-1) 0).2.2 with heq | ⟨_, _, _, _, hle, _⟩
      · show (s.pick (nrTasks - 1) (-1) 0).2 < _
        rw [heq]
        decide
      · exact Nat.lt_of_le_pred (by decide) hle
    · exact ih hs

/-- What holds in all states that are reached as long as the priorities are moderate. -/
structure Sound (s : Sched) : Prop where
  slices : s.All Slice
  current : s.current < nrTasks

theorem Sound.step {e : SchedEvent} (h : s.Sound) (hmod : s.Moderate e) (hst : Step s e s') : s'.Sound := by
  have hslices : s'.All Slice := by
    refine h.slices.step keeps_slice hst ?_
    rintro increment T rfl hT ⟨-, -, hcount⟩ hpos
    exact ⟨hpos, hmod T hT, hcount⟩
  refine ⟨hslices, ?_⟩
  cases hst with
  | fork hT hnr hfree => exact h.current
  | nice hT =>
    unfold sysNice
    split <;> exact h.current
  | tick hT hs =>
    unfold doTimer at hs
    simp only at hs
    split at hs
    · obtain rfl := Option.some.inj hs
      exact h.current
    · split at hs
      · exact choose_current hs
      · obtain rfl := Option.some.inj hs
        exact h.current
  | schedule hs => exact choose_current hs
  | release ht => exact h.current
  | other hT hsame => exact h.current

theorem boot_sound : boot.Sound := ⟨boot_all ⟨by decide, by decide, by decide⟩, by decide⟩

/-- A task that is not the current one has to wait. -/
theorem wait_pos (hcur : s.current < nrTasks) (hne : s.current ≠ t) : 0 < s.wait t := by
  have hmem : s.current ∈ (Finset.range nrTasks).erase t := Finset.mem_erase.mpr ⟨hne, Finset.mem_range.mpr hcur⟩
  have hle : slice (s.task s.current) ≤ s.others t slice :=
    Finset.single_le_sum (fun i _ => Nat.zero_le (slice (s.task i))) hmem
  unfold wait ahead
  split <;> split <;> omega

/-- A task that can run, and goes on to be able to, is chosen by the time the clock has ticked as often in
user mode as its bound says, and as the slices and priorities allow that `fork` and `nice` add. -/
theorem running_chosen {ls ws : List (Sched × SchedEvent)} {t : Nat} (hreach : Run Goes boot ls s)
    (hbefore : ∀ l ∈ ls, l.1.Moderate l.2) (hrun : Run Goes s ws s') (hmod : ∀ l ∈ ws, l.1.Moderate l.2)
    (hready : (∀ l ∈ ws, ∃ T, l.1.Runs t T) ∧ ∃ T, s'.Runs t T)
    (hlong : s.wait t + total grant ws ≤ total userTick ws) :
    (∃ l ∈ ws, l.1.current = t) ∨ s'.current = t := by
  by_contra hnever
  obtain ⟨hnever, hend⟩ := not_or.mp hnever
  have hstep : ∀ (s : Sched) (l : Sched × SchedEvent) (s' : Sched), l.1.Moderate l.2 → s.Sound →
      Goes s l s' → s'.Sound := by
    rintro s l s' hmod h ⟨rfl, hst⟩
    exact h.step hmod hst
  have hsound : s.Sound := hreach.inv_of hstep hbefore boot_sound
  have hle : total userTick ws + s'.wait t ≤ s.wait t + total grant ws := by
    refine Run.cost_le (I := Sound) (Φ := fun s => s.wait t) (P := fun s => ∃ T, s.Runs t T)
      (Q := fun l => l.1.Moderate l.2 ∧ (∃ T, l.1.Runs t T) ∧ l.1.current ≠ t) ?_ ?_ ?_ hrun ?_ hsound hready.2
    · rintro s l s' ⟨-, hU, -⟩ ⟨rfl, -⟩
      exact hU
    · exact fun s l s' hl h hst => hstep s l s' hl.1 h hst
    · rintro s ⟨_, e⟩ s' ⟨hmod, ⟨U, hU⟩, hne⟩ h ⟨U', hU'⟩ ⟨rfl, hst⟩
      exact step_wait h.slices h.current hne hU hU' hmod hst
    · exact fun l hl => ⟨hmod l hl, hready.1 l hl, fun heq => hnever ⟨l, hl, heq⟩⟩
  have hpos := wait_pos (hrun.inv_of hstep hmod hsound).current hend
  omega

/-! ### An example -/

/-- Task 0 takes the smallest priority, and forks tasks 1 and 2. -/
def niced : Sched := boot.sysNice ⟨.running, 15, 15, 0, 0, 0⟩ 14

def three : Sched := (niced.fork 1 ⟨.running, 15, 1, 0, 0, 0⟩).fork 2 ⟨.running, 15, 1, 0, 0, 0⟩

theorem run_three : ∃ ls, Run Goes boot ls three ∧ ∀ l ∈ ls, l.1.Moderate l.2 := by
  have h₁ : Goes boot (boot, .nice 14) niced := ⟨rfl, .nice rfl⟩
  have h₂ : Goes niced (niced, .fork 1) (niced.fork 1 ⟨.running, 15, 1, 0, 0, 0⟩) :=
    ⟨rfl, .fork rfl (by decide) rfl⟩
  have h₃ : Goes (niced.fork 1 ⟨.running, 15, 1, 0, 0, 0⟩) (_, .fork 2) three := ⟨rfl, .fork rfl (by decide) rfl⟩
  refine ⟨_, .snoc (.snoc (.snoc .nil h₁) h₂) h₃, ?_⟩
  intro l hl
  simp only [List.nil_append, List.cons_append, List.mem_cons, List.not_mem_nil, or_false] at hl
  rcases hl with rfl | rfl | rfl
  · rintro T hT
    cases hT
    decide
  · trivial
  · trivial

def small : Turn := ⟨.running, 1, 1, 0, 0, 0⟩

/-- Task 0 has used `n` ticks of its slice. -/
def idle (n : Nat) : Sched :=
  { three with task := Function.update three.task 0 (some ⟨.running, 15 - BitVec.ofNat 32 n, 1, 0, 0, 0⟩), jiffies := n }

theorem run_idle {n : Nat} (hn : n < 15) : ∃ ls, Run Goes three ls (idle n) ∧ total userTick ls = n ∧
    ∀ l ∈ ls, l.1.task 1 = three.task 1 ∧ ∃ cpl, l.2 = .tick cpl := by
  induction n with
  | zero =>
    have hsame : Function.update three.task 0 (some ⟨.running, 15 - BitVec.ofNat 32 0, 1, 0, 0, 0⟩) = three.task :=
      Function.update_eq_self_iff.mpr rfl
    have hzero : idle 0 = three := by
      unfold idle
      rw [hsame]
      rfl
    exact ⟨[], hzero ▸ .nil, rfl, fun l hl => absurd hl List.not_mem_nil⟩
  | succ n ih =>
    obtain ⟨ls, hrun, htotal, hls⟩ := ih (by omega)
    have hcount : ∀ n < 14, 0 < (15 - BitVec.ofNat 32 n - 1).toInt ∧
        15 - BitVec.ofNat 32 n - 1 = 15 - BitVec.ofNat 32 (n + 1) := by decide
    obtain ⟨hpos, heq⟩ := hcount n (by omega)
    have hT : (idle n).task (idle n).current = some ⟨.running, 15 - BitVec.ofNat 32 n, 1, 0, 0, 0⟩ := rfl
    have htick : doTimer 2 { idle n with jiffies := (idle n).jiffies + 1 }
        ⟨.running, 15 - BitVec.ofNat 32 n, 1, 0, 0, 0⟩ true = some (idle (n + 1)) := by
      unfold doTimer
      simp only
      rw [if_pos hpos, heq]
      unfold setTask
      rw [show (idle n).current = 0 from rfl]
      unfold idle
      simp only [Function.update_idem, Int.natCast_succ]
      rfl
    refine ⟨ls ++ [(idle n, .tick true)], .snoc hrun ⟨rfl, .tick hT htick⟩, ?_, ?_⟩
    · rw [Lib.total_snoc, htotal]
      rfl
    · intro l hl
      rcases List.mem_append.mp hl with h | h
      · exact hls l h
      · obtain rfl := List.mem_singleton.mp h
        exact ⟨rfl, true, rfl⟩

/-- The state that a tick leaves. -/
def tick (s : Sched) (T : Turn) : Sched := (doTimer 2 { s with jiffies := s.jiffies + 1 } T true).getD s

theorem goes_tick (hT : s.task s.current = some T)
    (h : (doTimer 2 { s with jiffies := s.jiffies + 1 } T true).isSome = true) :
    Goes s (s, .tick true) (s.tick T) := by
  obtain ⟨s', hs'⟩ := Option.isSome_iff_exists.mp h
  have hgo : s.tick T = s' := by
    unfold tick
    rw [hs']
    rfl
  exact ⟨rfl, .tick hT (hgo ▸ hs')⟩

/-- The last ticks before task 1 is chosen. -/
def fifteen : Sched := (idle 14).tick small

def sixteen : Sched := fifteen.tick small

theorem running_chosen_three : ∃ ls ws, Run Goes boot ls three ∧ Run Goes three ws sixteen ∧
    ((∃ l ∈ ws, l.1.current = 1) ∨ sixteen.current = 1) := by
  obtain ⟨ls, hreach, hbefore⟩ := run_three
  obtain ⟨ws, hrun, htotal, hws⟩ := run_idle (n := 14) (by decide)
  have h₁ : Goes (idle 14) (idle 14, .tick true) fifteen := goes_tick (by decide +kernel) (by decide +kernel)
  have h₂ : Goes fifteen (fifteen, .tick true) sixteen := goes_tick (by decide +kernel) (by decide +kernel)
  have hready : ∀ s : Sched, s.task 1 = some small → ∃ T, s.Runs 1 T :=
    fun s hs => ⟨small, by decide, by decide, hs, rfl⟩
  have hticks : ∀ l ∈ ws ++ [(idle 14, .tick true)] ++ [(fifteen, .tick true)],
      l.1.task 1 = some small ∧ ∃ cpl, l.2 = .tick cpl := by
    intro l hl
    simp only [List.append_assoc, List.mem_append, List.mem_singleton] at hl
    rcases hl with hl | rfl | rfl
    · obtain ⟨htask, htick⟩ := hws l hl
      exact ⟨htask.trans rfl, htick⟩
    · exact ⟨rfl, true, rfl⟩
    · exact ⟨by decide +kernel, true, rfl⟩
  have hfree : total grant (ws ++ [(idle 14, .tick true)] ++ [(fifteen, .tick true)]) = 0 := by
    refine Lib.total_eq_zero fun l hl => ?_
    obtain ⟨s, e⟩ := l
    obtain ⟨-, cpl, rfl⟩ := hticks _ hl
    rfl
  have hcost : total userTick (ws ++ [(idle 14, .tick true)] ++ [(fifteen, .tick true)]) = 16 := by
    rw [Lib.total_snoc, Lib.total_snoc, htotal]
    rfl
  have hwait : three.wait 1 = 16 := by decide +kernel
  have hall := Run.snoc (Run.snoc hrun h₁) h₂
  refine ⟨ls, _, hreach, hall, running_chosen hreach hbefore hall ?_ ⟨?_, hready _ (by decide +kernel)⟩ (by omega)⟩
  · rintro ⟨s, e⟩ hl
    obtain ⟨-, cpl, rfl⟩ := hticks _ hl
    trivial
  · exact fun l hl => hready _ (hticks l hl).1

end Sched

end Linux011.Kernel
