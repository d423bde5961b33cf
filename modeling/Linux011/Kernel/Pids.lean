import Linux011.Kernel.Reaping

/-!
# Process numbers

`last_pid` is the only thing that `find_empty_process` and `copy_process` share, and it comes round. Runs
begin with task 0 alone, which may fork as well, and any task may exit. All steps but a `fork` keep the
numbers of the tasks that stay (`Kept`).
-/

namespace Linux011.Kernel

namespace Procs

variable {s s' s'' : Procs} {i t : Nat} {T : Proc} {f : Proc → Proc}

/-- The tasks that are there were there before, with the same numbers. -/
structure Kept (s s' : Procs) : Prop where
  task : ∀ i T', s'.task i = some T' → ∃ T, s.task i = some T ∧ T'.pid = T.pid
  lastPid : s'.lastPid = s.lastPid

namespace Kept

theorem refl (s : Procs) : Kept s s := ⟨fun _ T hT => ⟨T, hT, rfl⟩, rfl⟩

theorem trans (h : Kept s s') (h' : Kept s' s'') : Kept s s'' := by
  refine ⟨fun i T'' hT'' => ?_, h'.lastPid.trans h.lastPid⟩
  obtain ⟨T', hT', hpid'⟩ := h'.task i T'' hT''
  obtain ⟨T, hT, hpid⟩ := h.task i T' hT'
  exact ⟨T, hT, hpid'.trans hpid⟩

theorem of_rest (hrest : s'.rest = s.rest) (hlast : s'.lastPid = s.lastPid) : Kept s s' := by
  refine ⟨fun i T' hT' => ?_, hlast⟩
  have hi := congrFun hrest i
  cases hT : s.task i with
  | none => simp [Procs.rest, hT, hT'] at hi
  | some T =>
    have hsame : T'.rest = T.rest := by simpa [Procs.rest, hT, hT'] using hi
    have hpid : T'.rest.pid = T.rest.pid := congrArg Proc.pid hsame
    exact ⟨T, rfl, hpid⟩

theorem alike (h : Alike s s') : Kept s s' := of_rest h.rest h.lastPid

theorem modify (t : Nat) (hf : ∀ T, s.task t = some T → (f T).pid = T.pid) : Kept s (s.modify t f) := by
  refine ⟨fun i T' hT' => ?_, rfl⟩
  by_cases hi : i = t
  · subst hi
    have hmap : (s.task i).map f = some T' := (Function.update_self i _ s.task).symm.trans hT'
    obtain ⟨T, hT, rfl⟩ := Option.map_eq_some_iff.mp hmap
    exact ⟨T, hT, hf T hT⟩
  · exact ⟨T', (Function.update_of_ne hi _ s.task).symm.trans hT', rfl⟩

theorem release (h : s.release i = .ok s') : Kept s s' := by
  unfold Procs.release at h
  split at h
  · cases h
  · cases h
    refine ⟨fun j T' hT' => ?_, rfl⟩
    by_cases hj : j = i
    · subst hj
      have hnone : none = some T' := (Function.update_self j _ s.task).symm.trans hT'
      cases hnone
    · exact ⟨T', (Function.update_of_ne hj _ s.task).symm.trans hT', rfl⟩

theorem exitStart (t : Nat) (T : Proc) (code : Int) : Kept s (s.exitStart t T code) := by
  obtain ⟨-, hrest, hlast⟩ := reparent_loop (s := s) T.pid nrTasks
  exact (of_rest hrest hlast).trans (modify t fun _ _ => rfl)

theorem exitEnd {code : Int} {o : Outcome} (h : s.exitEnd t T code = .ok (o, s')) : Kept s s' := by
  have hsession : Kept s (if T.leader then s.killSession T.session else s) := by
    split
    · exact alike alike_killSession
    · exact refl s
  unfold Procs.exitEnd at h
  dsimp only at h
  generalize (if T.leader then s.killSession T.session else s) = s₁ at h hsession
  have hzombie := hsession.trans (modify (f := fun T => { T with state := .zombie, exitCode := code }) t fun _ _ => rfl)
  unfold tellFather at h
  split at h
  · cases h
    exact hzombie.trans (alike (alike_sendSig ..))
  · -- a task whose father is not there frees its own slot
    cases hr : (s₁.modify t fun T => { T with state := .zombie, exitCode := code }).release t with
    | error e =>
      rw [hr] at h
      cases h
    | ok s₂ =>
      rw [hr] at h
      cases h
      exact hzombie.trans (release hr)

theorem waitScan {pid : Int} {options : BitVec 32} {o : Outcome} (h : s.waitScan t T pid options = .ok (o, s')) :
    Kept s s' := by
  rcases waitScan_cases s t T pid options with ⟨o', f, heq, -, hf⟩ | ⟨i, z, -, -, -, -, -, heq⟩
  · cases heq.symm.trans h
    rcases hf with rfl | rfl
    · exact modify t fun _ _ => rfl
    · exact modify t fun _ _ => rfl
  · rw [heq] at h
    cases hr : (s.modify t (Proc.reap z)).release i with
    | error e =>
      rw [hr] at h
      cases h
    | ok s₁ =>
      rw [hr] at h
      cases h
      refine trans ?_ (release hr)
      exact modify t fun _ _ => rfl

theorem waitWoken {pid : Int} {options : BitVec 32} {o : Outcome} (h : s.waitWoken t T pid options = .ok (o, s')) :
    Kept s s' := by
  unfold Procs.waitWoken at h
  dsimp only at h
  split at h
  · refine trans ?_ (waitScan h)
    exact modify t fun _ _ => rfl
  · cases h
    refine trans ?_ (modify t fun _ _ => rfl)
    exact modify t fun _ _ => rfl

end Kept

/-! ## Steps -/

/-- A step of a run, or a `fork` of task 0. -/
inductive Moves (s s' : Procs) : Prop
  | step {e : ProcEvent} {o : Outcome} (h : Step s e (.ok (o, s')))
  | idle {T : Proc} {memory : Bool} {o : Outcome} (hT : s.task 0 = some T) (h : s.sysFork T memory = some (o, s'))

/-- Either the numbers are kept, or somebody has forked. -/
theorem Moves.cases (h : Moves s s') : Kept s s' ∨ ∃ T memory o, s.sysFork T memory = some (o, s') := by
  cases h with
  | idle hT h => exact .inr ⟨_, _, _, h⟩
  | @step e o h =>
    generalize hr : (Except.ok (o, s') : Except String (Outcome × Procs)) = r at h
    cases h with
    | @fork t T memory r ht hT hrun hp hf =>
      cases hr
      exact .inr ⟨_, _, _, hf⟩
    | exit ht hT hrun hp =>
      cases hr
      exact .inl (Kept.exitStart ..)
    | exitEnd hT hrun hp => exact .inl (Kept.exitEnd hr.symm)
    | waitpid ht hT hrun hp => exact .inl (Kept.waitScan hr.symm)
    | woken hT hrun hp => exact .inl (Kept.waitWoken hr.symm)
    | stored hT hrun hp =>
      cases hr
      exact .inl (Kept.modify _ fun _ _ => rfl)
    | other hT hzombie hsame =>
      cases hr
      refine .inl (Kept.modify _ fun T hT' => ?_)
      cases hT.symm.trans hT'
      exact hsame.1

/-! ## Runs -/

/-- The numbers of the tasks, zombies included, are different, and only task 0 has none. -/
structure Numbered (s : Procs) : Prop where
  bound : ∀ i T, s.task i = some T → i < nrTasks
  unique : ∀ i j T U, s.task i = some T → s.task j = some U → T.pid = U.pid → i = j
  positive : ∀ i T, s.task i = some T → i ≠ 0 → 0 < T.pid
  lastPid : 0 ≤ s.lastPid ∧ s.lastPid < 2 ^ 31

theorem Numbered.kept (h : s.Numbered) (hs : Kept s s') : s'.Numbered := by
  refine ⟨fun i T' hT' => ?_, fun i j T' U' hT' hU' heq => ?_, fun i T' hT' hi => ?_, hs.lastPid ▸ h.lastPid⟩
  · obtain ⟨T, hT, -⟩ := hs.task i T' hT'
    exact h.bound i T hT
  · obtain ⟨T, hT, hTpid⟩ := hs.task i T' hT'
    obtain ⟨U, hU, hUpid⟩ := hs.task j U' hU'
    exact h.unique i j T U hT hU (hTpid.symm.trans (heq.trans hUpid))
  · obtain ⟨T, hT, hpid⟩ := hs.task i T' hT'
    exact hpid ▸ h.positive i T hT hi

theorem Numbered.fork (h : s.Numbered) {memory : Bool} {o : Outcome} (hr : s.sysFork T memory = some (o, s')) :
    s'.Numbered := by
  obtain ⟨pid, hpos, hfresh, heq | ⟨nr, hnr, -, heq⟩⟩ := sysFork_cases h.lastPid.1 hr
  · cases heq
    exact ⟨h.bound, h.unique, h.positive, le_of_lt hpos.1, hpos.2⟩
  · cases heq
    have hnew : ∀ j U, s.task j = some U → U.pid ≠ pid := by
      intro j U hU hpid
      rw [inUse_iff.mpr ⟨j, U, h.bound j U hU, hU, hpid⟩] at hfresh
      cases hfresh
    have hcases : ∀ {i U}, Function.update s.task nr (some (child T pid)) i = some U →
        i = nr ∧ U.pid = pid ∨ s.task i = some U := by
      intro i U hU
      by_cases hi : i = nr
      · subst hi
        rw [Function.update_self] at hU
        cases hU
        exact .inl ⟨rfl, rfl⟩
      · exact .inr ((Function.update_of_ne hi _ s.task).symm.trans hU)
    refine ⟨fun i U hU => ?_, fun i j U V hU hV hpid => ?_, fun i U hU hi => ?_, le_of_lt hpos.1, hpos.2⟩
    · rcases hcases hU with ⟨rfl, -⟩ | hold
      · exact hnr
      · exact h.bound i U hold
    · rcases hcases hU with ⟨rfl, hUpid⟩ | hold
      · rcases hcases hV with ⟨rfl, -⟩ | hold'
        · rfl
        · exact absurd (hpid.symm.trans hUpid) (hnew j V hold')
      · rcases hcases hV with ⟨rfl, hVpid⟩ | hold'
        · exact absurd (hpid.trans hVpid) (hnew i U hold)
        · exact h.unique i j U V hold hold' hpid
    · rcases hcases hU with ⟨-, hUpid⟩ | hold
      · rw [hUpid]
        exact hpos.1
      · exact h.positive i U hold hi

/-- `sched_init` and `INIT_TASK`: task 0 alone. -/
structure Boot (s : Procs) : Prop where
  idle : ∃ T, s.task 0 = some T ∧ T.pid = 0
  others : ∀ i, i ≠ 0 → s.task i = none
  lastPid : s.lastPid = 0

theorem Boot.numbered (h : s.Boot) : s.Numbered := by
  have hzero : ∀ i T, s.task i = some T → i = 0 := by
    intro i T hT
    by_contra hi
    rw [h.others i hi] at hT
    cases hT
  refine ⟨fun i T hT => ?_, fun i j T U hT hU _ => (hzero i T hT).trans (hzero j U hU).symm,
    fun i T hT hi => absurd (hzero i T hT) hi, by rw [h.lastPid]; decide⟩
  rw [hzero i T hT]
  decide

/-- In every state that a run reaches all pids are different, those of all tasks but task 0 are positive, and
the search of `find_empty_process` ends within `NR_TASKS + 1` attempts. -/
theorem pids_distinct (hboot : s.Boot) (hrun : Relation.ReflTransGen Moves s s') :
    (∀ i j T U, s'.task i = some T → s'.task j = some U → i ≠ j → T.pid ≠ U.pid) ∧
      (∀ i T, s'.task i = some T → i ≠ 0 → 0 < T.pid) ∧
      ∃ pid, s'.freshPid (nrTasks + 1) s'.lastPid = some pid := by
  have h : s'.Numbered := Lib.invariant_of_run (fun _ _ h hstep => hstep.cases.elim h.kept fun ⟨_, _, _, hr⟩ => h.fork hr)
    hboot.numbered hrun
  refine ⟨fun i j T U hT hU hne hpid => hne (h.unique i j T U hT hU hpid), h.positive, ?_⟩
  have hfound := findEmptyProcess_isSome h.lastPid.1 h.lastPid.2
  unfold findEmptyProcess at hfound
  rw [Option.isSome_map] at hfound
  exact Option.isSome_iff_exists.mp hfound

/-- Task 0. -/
def idleTask : Proc := ⟨.running, 0, 0, 0, -1, 0, 0, false, 0, 0, 0, 0, .user⟩

def oneTask : Procs := ⟨fun i => if i = 0 then some idleTask else none, 0⟩

/-- Task 0 forks twice. -/
theorem pids_distinct_boot : ∃ s T U, oneTask.freshPid 65 0 = some 1 ∧ Relation.ReflTransGen Moves oneTask s ∧
    s.task 1 = some T ∧ s.task 2 = some U ∧ T.pid ≠ U.pid := by
  have hboot : oneTask.Boot := ⟨⟨_, rfl, rfl⟩, fun i hi => if_neg hi, rfl⟩
  obtain ⟨s₁, o₁, h₁, h₀, s₂, o₂, h₂, T, hT, U, hU⟩ : ∃ s₁ : Procs, ∃ o₁,
      oneTask.sysFork idleTask true = some (o₁, s₁) ∧ s₁.task 0 = some idleTask ∧
      ∃ s₂ : Procs, ∃ o₂, s₁.sysFork idleTask true = some (o₂, s₂) ∧
        ∃ T, s₂.task 1 = some T ∧ ∃ U, s₂.task 2 = some U :=
    ⟨_, _, rfl, rfl, _, _, rfl, _, rfl, _, rfl⟩
  have hrun : Relation.ReflTransGen Moves oneTask s₂ := .tail (.single (.idle rfl h₁)) (.idle h₀ h₂)
  exact ⟨s₂, T, U, rfl, hrun, hT, hU, (pids_distinct hboot hrun).1 1 2 T U hT hU (by decide)⟩

end Procs

end Linux011.Kernel
