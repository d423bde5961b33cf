import Linux011.Kernel.Reaping
import Linux011.Kernel.Schedule

/-!
# Who wakes a father

`sys_waitpid`, `do_exit`, `sys_ssetmask` and the first loop of `schedule` together. A task that sleeps in
`sys_waitpid` is woken for a zombie child by its pending `SIGCHLD` only, and `schedule` looks at the mask
of the sleeper.
-/

namespace Linux011.Kernel

/-- The tasks, with the fields of `task_struct` that `schedule` looks at besides, and the slot to which
`do_exit` has sent `SIGCHLD` for the zombie in a slot. -/
structure Waits where
  procs : Procs
  blocked : Nat → BitVec 32
  alarm : Nat → Int
  jiffies : Int
  told : Nat → Option Nat

/-- The bit of `SIGCHLD` is set. -/
def Proc.Told (T : Proc) : Prop := T.signal.getLsbD (sigchld - 1) = true

namespace Procs

/-- The search of `tell_father`. -/
def fatherSlot (s : Procs) (pid : Int) : Option Nat :=
  if pid ≠ 0 then (List.range nrTasks).find? fun i => (s.task i).any fun T => T.pid == pid else none

/-- `z` is a zombie child of the task `T` in slot `t`, and one of those that it waits for. -/
structure Awaited (s : Procs) (t : Nat) (T : Proc) (pid : Int) (i : Nat) (z : Proc) : Prop where
  slot : 0 < i ∧ i < nrTasks ∧ i ≠ t
  there : s.task i = some z
  father : z.father = T.pid
  wants : wants T z pid = true
  zombie : z.state = .zombie

end Procs

namespace Waits

/-- The zombie in slot `i` gets task 1 as its father. -/
def orphaned (s : Procs) (pid : Int) (i : Nat) : Bool :=
  decide (i < nrTasks) && (s.task i).any fun z => decide (z.father = pid) && decide (z.state = .zombie)

/-- Who is told in a step of the task `T`. -/
def tell (w : Waits) (T : Proc) : ProcEvent → Nat → Option Nat
  | .exit _ _ => fun i => if orphaned w.procs T.pid i then some 1 else w.told i
  | .exitEnd t => Function.update w.told t (w.procs.fatherSlot T.father)
  | _ => w.told

/-- The copies that `fork` makes of the fields of the task in slot `t`. -/
def inherit (w : Waits) (t : Nat) : Outcome → Waits
  | .forked _ (some nr) =>
    { w with blocked := Function.update w.blocked nr (w.blocked t), alarm := Function.update w.alarm nr 0 }
  | _ => w

/-- After a call of the task `T`. -/
def after (w : Waits) (T : Proc) (e : ProcEvent) (o : Outcome) (s : Procs) : Waits :=
  { w.inherit e.task o with procs := s, told := w.tell T e }

/-- `sys_ssetmask` of the task in slot `t` -/
def sysSsetmask (w : Waits) (t : Nat) (newmask : BitVec 32) : Waits :=
  { w with blocked := Function.update w.blocked t (newmask &&& ~~~(sigmask sigkill)) }

/-- One turn of the first loop of `schedule`, for the task in slot `i`. -/
def wake (w : Waits) (i : Nat) (T : Proc) : Proc :=
  let r := checkAlarm w.jiffies (w.alarm i) T.signal
  { T with signal := r.1, state := rouse r.1 (w.blocked i) T.state }

/-- The first loop of `schedule`. -/
def schedule (w : Waits) : Waits :=
  { w with
    procs := { w.procs with task := fun i =>
      if 0 < i ∧ i < nrTasks then (w.procs.task i).map (w.wake i) else w.procs.task i }
    alarm := fun i =>
      if 0 < i ∧ i < nrTasks then
        match w.procs.task i with
        | some T => (checkAlarm w.jiffies (w.alarm i) T.signal).2
        | none => w.alarm i
      else w.alarm i }

/-- The steps. `other` is what the rest of the kernel does to a task that does not sleep in `sys_waitpid`,
and the clock. -/
inductive Step : Waits → Waits → Prop
  | call {w : Waits} {T : Proc} {e : ProcEvent} {o : Outcome} {s : Procs} (he : ∀ t, e ≠ .other t)
      (hT : w.procs.task e.task = some T) (h : Procs.Step w.procs e (.ok (o, s))) :
      Step w (w.after T e o s)
  | ssetmask {w : Waits} {t : Nat} {T : Proc} {newmask : BitVec 32} (hT : w.procs.task t = some T)
      (hrun : T.state = .running) (hp : T.phase = .user) : Step w (w.sysSsetmask t newmask)
  | schedule {w : Waits} : Step w w.schedule
  | kill {w : Waits} {t sig : Nat} : Step w { w with procs := w.procs.sendSig t sig }
  | other {w : Waits} {t : Nat} {T T' : Proc} {mask : BitVec 32} {alarm jiffies : Int}
      (hT : w.procs.task t = some T) (hp : ∀ pid options, T.phase ≠ .waiting pid options)
      (hzombie : T'.state = .zombie ↔ T.state = .zombie)
      (hsame : T'.pid = T.pid ∧ T'.father = T.father ∧ T'.pgrp = T.pgrp ∧ T'.exitCode = T.exitCode ∧
        T'.phase = T.phase) :
      Step w { w with
        procs := w.procs.modify t fun _ => T'
        blocked := Function.update w.blocked t mask
        alarm := Function.update w.alarm t alarm
        jiffies }

/-- Nobody is in `sys_waitpid`. -/
def Start (w : Waits) : Prop :=
  ∀ t T, w.procs.task t = some T → ∀ pid options, T.phase ≠ .waiting pid options

/-- A zombie child that has sent its signal has left the bit of `SIGCHLD` set in the task that waits for
it. -/
def Kept (w : Waits) : Prop :=
  ∀ t T pid options i z, w.procs.task t = some T → T.phase = .waiting pid options →
    w.procs.Awaited t T pid i z → w.told i = some t → T.Told

end Waits

/-! ## What a step leaves of the other tasks -/

/-- `T'` is the task `T`, after it has got signals. -/
structure Proc.Later (T T' : Proc) : Prop where
  pid : T'.pid = T.pid
  pgrp : T'.pgrp = T.pgrp
  phase : T'.phase = T.phase
  zombie : T'.state = .zombie ↔ T.state = .zombie
  told : ∀ pid options, T.phase = .waiting pid options → T.Told → T'.Told

namespace Procs

variable {s s' s'' : Procs} {t i : Nat} {T T' z z' : Proc} {pid : Int} {f : Proc → Proc}

theorem later_refl : T.Later T := ⟨rfl, rfl, rfl, Iff.rfl, fun _ _ _ h => h⟩

theorem later_trans {T'' : Proc} (h : T.Later T') (h' : T'.Later T'') : T.Later T'' := by
  refine ⟨h'.pid.trans h.pid, h'.pgrp.trans h.pgrp, h'.phase.trans h.phase, h'.zombie.trans h.zombie, ?_⟩
  intro pid options hp htold
  exact h'.told pid options (h.phase.trans hp) (h.told pid options hp htold)

theorem later_of_rest (hrest : T'.rest = T.rest) (htold : T.Told → T'.Told) : T.Later T' := by
  have hpid : T'.rest.pid = T.rest.pid := congrArg Proc.pid hrest
  have hpgrp : T'.rest.pgrp = T.rest.pgrp := congrArg Proc.pgrp hrest
  have hphase : T'.rest.phase = T.rest.phase := congrArg Proc.phase hrest
  have hstate : T'.rest.state = T.rest.state := congrArg Proc.state hrest
  exact ⟨hpid, hpgrp, hphase, iff_of_eq (congrArg (· = TaskState.zombie) hstate), fun _ _ _ h => htold h⟩

/-- All tasks of `s'` are tasks of `s`, after they have got signals. -/
def Since (s s' : Procs) : Prop :=
  ∀ i T', s'.task i = some T' → ∃ T, s.task i = some T ∧ T.Later T'

theorem Since.refl : Since s s := fun _ T hT => ⟨T, hT, later_refl⟩

theorem Since.trans (h : Since s s') (h' : Since s' s'') : Since s s'' := by
  intro i T'' hT''
  obtain ⟨T', hT', hlater'⟩ := h' i T'' hT''
  obtain ⟨T, hT, hlater⟩ := h i T' hT'
  exact ⟨T, hT, later_trans hlater hlater'⟩

theorem since_modify (hf : ∀ T : Proc, T.Later (f T)) : Since s (s.modify t f) := by
  intro i T' hT'
  by_cases hi : i = t
  · subst hi
    have hmap : (s.task i).map f = some T' := (Function.update_self i _ s.task).symm.trans hT'
    obtain ⟨T, hT, rfl⟩ := Option.map_eq_some_iff.mp hmap
    exact ⟨T, hT, hf T⟩
  · exact ⟨T', (Function.update_of_ne hi _ s.task).symm.trans hT', later_refl⟩

theorem since_sendSig (sig : Nat) : Since s (s.sendSig t sig) := by
  apply since_modify
  intro T
  refine later_of_rest rfl fun htold => ?_
  show (T.signal ||| _).getLsbD (sigchld - 1) = true
  rw [BitVec.getLsbD_or, show T.signal.getLsbD (sigchld - 1) = true from htold, Bool.true_or]

theorem since_foldl {g : Procs → Nat → Procs} (hg : ∀ s i, Since s (g s i)) (is : List Nat) :
    Since s (is.foldl g s) := by
  induction is generalizing s with
  | nil => exact .refl
  | cons i is ih => exact (hg s i).trans ih

theorem since_reparent : Since s (reparent pid s i) := by
  unfold reparent
  cases s.task i with
  | none => exact .refl
  | some T =>
    have hmove : Since s (s.modify i fun T => { T with father := 1 }) :=
      since_modify fun T => later_of_rest rfl id
    dsimp only
    split
    · split
      · exact hmove.trans (since_sendSig sigchld)
      · exact hmove
    · exact .refl

theorem since_killSession {session : Int} : Since s (s.killSession session) := by
  unfold killSession
  apply since_foldl
  intro s i
  split
  · exact since_sendSig sighup
  · exact .refl

theorem told_sendSig (hT' : (s.sendSig t sigchld).task t = some T') : T'.Told := by
  have hmap := (Function.update_self t _ s.task).symm.trans hT'
  obtain ⟨T, -, rfl⟩ := Option.map_eq_some_iff.mp hmap
  show (T.signal ||| 1#32 <<< (sigchld - 1)).getLsbD (sigchld - 1) = true
  rw [BitVec.getLsbD_or]
  simp [sigchld]

theorem Awaited.back {t : Nat} (h : s'.Awaited t T' pid i z') (hz : s.task i = some z) (hT : T.Later T')
    (hlater : z.Later z') (hfather : z'.father = z.father) : s.Awaited t T pid i z := by
  refine ⟨h.slot, hz, ?_, ?_, hlater.zombie.mp h.zombie⟩
  · rw [← hfather, h.father, hT.pid]
  · have hwants := h.wants
    unfold Procs.wants at hwants ⊢
    rwa [hlater.pid, hlater.pgrp, hT.pgrp] at hwants

/-! ## The calls -/

theorem fatherSlot_congr (h : ∀ i, (s'.task i).map Proc.pid = (s.task i).map Proc.pid) :
    s'.fatherSlot pid = s.fatherSlot pid := by
  unfold fatherSlot
  have hany : ∀ i, ((s'.task i).any fun T => T.pid == pid) = (s.task i).any fun T => T.pid == pid := by
    intro i
    have hi := congrArg (Option.any (· == pid)) (h i)
    rwa [Option.any_map, Option.any_map] at hi
  simp only [hany]

/-- After the first loop of `do_exit`, task 1 has been told of the zombies that it has got. -/
theorem told_orphan {is : List Nat} (hi : i ∈ is) (hz : s.task i = some z) (hfather : z.father = pid)
    (hzombie : z.state = .zombie) (hT' : (is.foldl (reparent pid) s).task 1 = some T')
    {options : BitVec 32} {p : Int} (hp : T'.phase = .waiting p options) : T'.Told := by
  induction is generalizing s z with
  | nil => cases hi
  | cons a is ih =>
    rw [List.foldl_cons] at hT'
    by_cases ha : a = i
    · subst ha
      have hstep : reparent pid s a = (s.modify a fun T => { T with father := 1 }).sendSig 1 sigchld := by
        unfold reparent
        rw [hz]
        dsimp only
        rw [if_pos hfather, if_pos hzombie]
      obtain ⟨U, hU, hlater⟩ := since_foldl (fun s i => since_reparent) is 1 T' hT'
      rw [hstep] at hU
      exact hlater.told p options (hlater.phase.symm.trans hp) (told_sendSig hU)
    · have hfam : (reparent pid s a).family i = s.family i := by
        rw [reparent_family, Function.update_of_ne (Ne.symm ha)]
      obtain ⟨z', hz', hrest⟩ := task_of_rest (@reparent_rest s a pid).1 hz
      have hmember : z'.member = z.member := by
        rw [family_eq hz', family_eq hz] at hfam
        exact Option.some.inj hfam
      have hfather' : z'.father = z.father := congrArg Member.father hmember
      have hstate : z'.rest.state = z.rest.state := congrArg Proc.state hrest
      have hin : i ∈ is := (List.mem_cons.mp hi).resolve_left fun h => ha h.symm
      exact ih hin hz' (hfather'.trans hfather) (hstate.trans hzombie) hT'

/-- `do_exit` up to where it closes the files: a task that it leaves waiting was waiting before; it has
been told of what it has got, and the zombies that were not moved are where they were. -/
theorem exitStart_back {code : Int} (hrun : T.state = .running) (hT : s.task t = some T) :
    ∀ i U', (s.exitStart t T code).task i = some U' →
      (i = t ∧ U'.state ≠ .zombie ∧ U'.phase = .exiting code) ∨
      i ≠ t ∧ ∃ U, s.task i = some U ∧ U.Later U' ∧
        (i < nrTasks → U'.father = if U.father = T.pid then 1 else U.father) := by
  obtain ⟨hfam, hrest, -⟩ := reparent_loop (s := s) T.pid nrTasks
  have hsince : Since s ((List.range nrTasks).foldl (reparent T.pid) s) :=
    since_foldl (fun s i => since_reparent) _
  intro i U' hU'
  by_cases hi : i = t
  · subst hi
    have hmap := (Function.update_self i _ ((List.range nrTasks).foldl (reparent T.pid) s).task).symm.trans hU'
    obtain ⟨V, hV, rfl⟩ := Option.map_eq_some_iff.mp hmap
    obtain ⟨U, hU, hrestV⟩ := task_of_rest hrest.symm hV
    cases hT.symm.trans hU
    have hstate : T.rest.state = V.rest.state := congrArg Proc.state hrestV
    have hstate : T.state = V.state := hstate
    refine .inl ⟨rfl, ?_, rfl⟩
    show V.state ≠ .zombie
    rw [← hstate, hrun]
    decide
  · have hU' : ((List.range nrTasks).foldl (reparent T.pid) s).task i = some U' :=
      (Function.update_of_ne hi ..).symm.trans hU'
    obtain ⟨U, hU, hlater⟩ := hsince i U' hU'
    refine .inr ⟨hi, U, hU, hlater, fun hlt => ?_⟩
    have hmember := congrFun hfam i
    simp only [if_pos hlt, family_eq hU', family_eq hU, Option.map_some] at hmember
    exact congrArg Member.father (Option.some.inj hmember)

theorem tellFather_eq_fatherSlot : s.tellFather t pid =
    match s.fatherSlot pid with
    | some i => .ok (.silent, s.sendSig i sigchld)
    | none => (s.release t).map fun s => (.noFather, s) :=
  rfl

/-- The task as `do_exit` leaves it. -/
def zombie (s : Procs) (t : Nat) (code : Int) : Procs :=
  s.modify t fun T => { T with state := .zombie, exitCode := code }

theorem fatherSlot_zombie {code : Int} (h : s'.family = s.family) (hT' : s'.task t = some T') :
    (s'.zombie t code).fatherSlot pid = s.fatherSlot pid := by
  apply fatherSlot_congr
  intro i
  have hi := congrArg (Option.map Member.pid) (congrFun h i)
  rw [family, family, Option.map_map, Option.map_map] at hi
  refine Eq.trans ?_ hi
  rw [zombie, modify_task hT']
  by_cases hit : i = t
  · subst hit
    rw [Function.update_self, hT']
    rfl
  · rw [Function.update_of_ne hit]
    rfl

/-- What a task is now, against what it was before the end of `do_exit` in slot `t`. -/
def Ended (s : Procs) (t : Nat) (T : Proc) (i : Nat) (U' : Proc) : Prop :=
  (i = t ∧ U'.phase = T.phase) ∨ i ≠ t ∧ ∃ U, s.task i = some U ∧ U.Later U' ∧ U'.father = U.father

theorem zombie_back {code : Int} {U' : Proc} (hT : s.task t = some T) (halike : Alike s s') (hsince : Since s s')
    (hU' : (s'.zombie t code).task i = some U') : Ended s t T i U' := by
  obtain ⟨T', hT', hrest⟩ := task_of_rest halike.rest hT
  rw [zombie, modify_task hT'] at hU'
  by_cases hit : i = t
  · subst hit
    cases (Function.update_self i _ s'.task).symm.trans hU'
    have hphase : T'.rest.phase = T.rest.phase := congrArg Proc.phase hrest
    exact .inl ⟨rfl, hphase⟩
  · rw [Function.update_of_ne hit] at hU'
    obtain ⟨U, hU, hlater⟩ := hsince i U' hU'
    have hmember := congrFun halike.family i
    rw [family_eq hU, family_eq hU'] at hmember
    exact .inr ⟨hit, U, hU, hlater, congrArg Member.father (Option.some.inj hmember)⟩

theorem Ended.sendSig {j sig : Nat} {U' : Proc} (h : ∀ U, s'.task i = some U → Ended s t T i U)
    (hU' : (s'.sendSig j sig).task i = some U') : Ended s t T i U' := by
  obtain ⟨U₂, hU₂, hlater₂⟩ := since_sendSig sig i U' hU'
  have hmember := congrFun (alike_sendSig (s := s') j sig).family i
  rw [family_eq hU₂, family_eq hU'] at hmember
  have hfather : U'.father = U₂.father := congrArg Member.father (Option.some.inj hmember)
  rcases h U₂ hU₂ with ⟨hit, hp⟩ | ⟨hit, U, hU, hlater, hfatherU⟩
  · exact .inl ⟨hit, hlater₂.phase.trans hp⟩
  · exact .inr ⟨hit, U, hU, later_trans hlater hlater₂, hfather.trans hfatherU⟩

theorem release_task {U : Proc} (h : s.release t = .ok s') (hU : s'.task i = some U) : s.task i = some U := by
  unfold release at h
  split at h
  · cases h
  · cases h
    by_cases hit : i = t
    · subst hit
      cases (Function.update_self i _ s.task).symm.trans hU
    · exact (Function.update_of_ne hit _ s.task).symm.trans hU

/-- The rest of `do_exit`: the father that it finds is told. -/
theorem exitEnd_back {code : Int} {o : Outcome} (hT : s.task t = some T)
    (h : s.exitEnd t T code = .ok (o, s')) :
    (∀ i U', s'.task i = some U' → Ended s t T i U') ∧
    ∀ j U', s.fatherSlot T.father = some j → s'.task j = some U' → U'.Told := by
  obtain ⟨s₁, hs₁, halike, hsince⟩ : ∃ s₁, s₁ = (if T.leader then s.killSession T.session else s) ∧
      Alike s s₁ ∧ Since s s₁ := by
    refine ⟨_, rfl, ?_⟩
    split
    · exact ⟨alike_killSession, since_killSession⟩
    · exact ⟨.refl, .refl⟩
  obtain ⟨T₁, hT₁, -⟩ := task_of_rest halike.rest hT
  have hend : s.exitEnd t T code = (s₁.zombie t code).tellFather t T.father := by
    rw [hs₁]
    rfl
  have hback : ∀ i U', (s₁.zombie t code).task i = some U' → Ended s t T i U' := fun i U' =>
    zombie_back hT halike hsince
  rw [hend, tellFather_eq_fatherSlot, fatherSlot_zombie halike.family hT₁] at h
  cases hslot : s.fatherSlot T.father with
  | none =>
    -- nobody is told, and the slot is free
    rw [hslot] at h
    cases hr : (s₁.zombie t code).release t with
    | error msg =>
      rw [hr] at h
      cases h
    | ok s₂ =>
      rw [hr] at h
      cases h
      exact ⟨fun i U' hU' => hback i U' (release_task hr hU'), fun j U' hj => nomatch hj⟩
  | some j =>
    rw [hslot] at h
    cases h
    refine ⟨fun i U' hU' => Ended.sendSig (hback i) hU', fun k U' hk hU' => ?_⟩
    cases hk
    exact told_sendSig hU'

/-! ### `sys_waitpid` -/

/-- If the loop finds nothing, no zombie is waited for. -/
theorem scan_none {options : BitVec 32} {n : Nat} {flag flag' : Bool}
    (h : s.scan t T pid options n flag = .none flag') (hi : i ≤ n) : ¬ s.Awaited t T pid i z := by
  intro haw
  induction n generalizing flag with
  | zero => exact absurd haw.slot.1 (by omega)
  | succ n ih =>
    rw [scan] at h
    by_cases hn : i = n + 1
    · subst hn
      rw [haw.there] at h
      dsimp only at h
      rw [if_neg haw.slot.2.2, if_neg (not_not.mpr haw.father), haw.wants, haw.zombie] at h
      cases h
    · have hle : i ≤ n := by omega
      split at h
      · exact ih h hle
      · split at h
        · exact ih h hle
        · split at h
          · exact ih h hle
          · split at h
            · exact ih h hle
            · split at h
              · split at h
                · exact ih h hle
                · cases h
              · cases h
              · exact ih h hle

/-- Only the task in slot `t` changes, and others may go. It is no zombie, and if it sleeps in
`sys_waitpid`, there is no zombie that it waits for. -/
structure Alone (s : Procs) (t : Nat) (s' : Procs) : Prop where
  others : ∀ i, i ≠ t → ∀ U, s'.task i = some U → s.task i = some U
  zombie : ∀ U, s'.task t = some U → U.state ≠ .zombie
  sleeps : ∀ U pid options, s'.task t = some U → U.phase = .waiting pid options →
    ∀ i z, ¬ s'.Awaited t U pid i z

/-- The task in slot `t` goes on, or returns. -/
theorem alone_modify (hT : s.task t = some T) (hzombie : (f T).state ≠ .zombie)
    (hp : ∀ pid options, (f T).phase ≠ .waiting pid options) : Alone s t (s.modify t f) := by
  have hself : (s.modify t f).task t = some (f T) := by
    rw [modify_task hT, Function.update_self]
  refine ⟨fun i hi U hU => (Function.update_of_ne hi _ s.task).symm.trans hU, fun U hU => ?_,
    fun U pid options hU hphase => ?_⟩
  · cases hself.symm.trans hU
    exact hzombie
  · cases hself.symm.trans hU
    exact absurd hphase (hp pid options)

/-- A slot that is freed is nobody's. -/
theorem Alone.release (h : Alone s t s') (hrelease : s'.release i = .ok s'') : Alone s t s'' := by
  refine ⟨fun j hj U hU => h.others j hj U (release_task hrelease hU),
    fun U hU => h.zombie U (release_task hrelease hU), fun U pid options hU hphase j z haw => ?_⟩
  exact h.sleeps U pid options (release_task hrelease hU) hphase j z
    ⟨haw.slot, release_task hrelease haw.there, haw.father, haw.wants, haw.zombie⟩

theorem alone_waitScan {T₁ : Proc} {options : BitVec 32} {o : Outcome} (hT : s.task t = some T₁)
    (hrun : T₁.state = .running) (hsame : T₁.pid = T.pid ∧ T₁.pgrp = T.pgrp)
    (h : s.waitScan t T pid options = .ok (o, s')) : Alone s t s' := by
  have hzombie : T₁.state ≠ .zombie := by
    rw [hrun]
    decide
  have hback : Alone s t (s.modify t fun T => { T with phase := .user }) :=
    alone_modify hT hzombie fun _ _ => ProcPhase.noConfusion
  unfold waitScan at h
  cases hscan : s.scan t T pid options (nrTasks - 1) false with
  | stopped ret =>
    rw [hscan] at h
    cases h
    exact hback
  | zombie i z =>
    rw [hscan] at h
    change ((s.modify t (Proc.reap z)).release i).map _ = _ at h
    obtain ⟨s₁, hrelease, heq⟩ := Lib.map_eq_ok.mp h
    cases heq
    have hreaped : Alone s t (s.modify t (Proc.reap z)) :=
      alone_modify hT hzombie fun _ _ => ProcPhase.noConfusion
    exact hreaped.release hrelease
  | none flag =>
    rw [hscan] at h
    cases flag with
    | false =>
      cases h
      exact hback
    | true =>
      dsimp only at h
      split at h
      · cases h
        exact hback
      · -- it goes to sleep, and the loop has found nothing
        cases h
        refine ⟨fun i hi U hU => (Function.update_of_ne hi _ s.task).symm.trans hU, fun U hU => ?_,
          fun U p opts hU hphase i z haw => ?_⟩
        · rw [modify_task hT, Function.update_self] at hU
          cases hU
          exact TaskState.noConfusion
        · rw [modify_task hT, Function.update_self] at hU
          cases hU
          cases hphase
          have hslot := haw.slot
          have hthere := (Function.update_of_ne hslot.2.2 _ s.task).symm.trans haw.there
          refine scan_none hscan (Nat.le_pred_of_lt hslot.2.1) ⟨hslot, hthere, ?_, ?_, haw.zombie⟩
          · exact haw.father.trans hsame.1
          · have hwants := haw.wants
            unfold Procs.wants at hwants ⊢
            rwa [← hsame.2]

theorem alone_waitWoken {options : BitVec 32} {o : Outcome} (hT : s.task t = some T) (hrun : T.state = .running)
    (h : s.waitWoken t T pid options = .ok (o, s')) : Alone s t s' := by
  unfold waitWoken at h
  dsimp only at h
  generalize T.signal &&& ~~~(1#32 <<< (sigchld - 1)) = signal at h
  have hT₁ : (s.modify t fun T => { T with signal }).task t = some { T with signal } := by
    rw [modify_task hT, Function.update_self]
  have hothers : ∀ i, i ≠ t → ∀ U, (s.modify t fun T => { T with signal }).task i = some U →
      s.task i = some U := fun i hi U hU => (Function.update_of_ne hi _ s.task).symm.trans hU
  obtain ⟨hback, hzombie, hsleeps⟩ : Alone (s.modify t fun T => { T with signal }) t s' := by
    split at h
    · exact alone_waitScan hT₁ hrun ⟨rfl, rfl⟩ h
    · cases h
      refine alone_modify hT₁ ?_ fun _ _ => ProcPhase.noConfusion
      show T.state ≠ .zombie
      rw [hrun]
      decide
  exact ⟨fun i hi U hU => hothers i hi U (hback i hi U hU), hzombie, hsleeps⟩

theorem alone_sysFork {memory : Bool} {o : Outcome} (hT : s.task t = some T) (hrun : T.state = .running)
    (hp : T.phase = .user) (h : s.sysFork T memory = some (o, s')) : ∃ nr, Alone s nr s' := by
  have hsame : ∀ lastPid, Alone s t { s with lastPid } := by
    refine fun lastPid => ⟨fun _ _ _ hU => hU, fun U hU => ?_, fun U p opts hU hphase => ?_⟩
    · cases hT.symm.trans hU
      rw [hrun]
      decide
    · cases hT.symm.trans hU
      rw [hp] at hphase
      cases hphase
  obtain ⟨⟨slot, s₁⟩, hfind, hr⟩ := Option.map_eq_some_iff.mp h
  obtain ⟨pid, -, heq⟩ := Option.map_eq_some_iff.mp hfind
  obtain ⟨rfl, rfl⟩ := Prod.mk.inj heq
  cases hslot : (List.range nrTasks).find? fun i => 1 ≤ i && (s.task i).isNone with
  | none =>
    rw [hslot] at hr
    cases hr
    exact ⟨t, hsame pid⟩
  | some nr =>
    rw [hslot] at hr
    cases memory with
    | false =>
      cases hr
      exact ⟨t, hsame pid⟩
    | true =>
      cases hr
      refine ⟨nr, fun i hi U hU => (Function.update_of_ne hi _ s.task).symm.trans hU, fun U hU => ?_,
        fun U p opts hU hphase => ?_⟩
      · cases (Function.update_self nr _ s.task).symm.trans hU
        exact TaskState.noConfusion
      · cases (Function.update_self nr _ s.task).symm.trans hU
        cases hphase

end Procs

namespace Waits

variable {w w' : Waits}

/-! ## Steps -/

theorem Kept.since (h : w.Kept) (htold : w'.told = w.told)
    (hback : ∀ i T', w'.procs.task i = some T' → ∃ T, w.procs.task i = some T ∧ T.Later T' ∧
      T'.father = T.father) : w'.Kept := by
  intro t T' pid options i z' hT' hp haw ht
  obtain ⟨T, hT, hlater, -⟩ := hback t T' hT'
  obtain ⟨z, hz, hlaterz, hfather⟩ := hback i z' haw.there
  have hp : T.phase = .waiting pid options := hlater.phase.symm.trans hp
  rw [htold] at ht
  exact hlater.told pid options hp
    (h t T pid options i z hT hp (haw.back hz hlater hlaterz hfather) ht)

theorem Kept.alone {t₀ : Nat} (h : w.Kept) (htold : w'.told = w.told)
    (halone : Procs.Alone w.procs t₀ w'.procs) : w'.Kept := by
  intro t T pid options i z hT hp haw ht
  by_cases ht₀ : t = t₀
  · subst ht₀
    exact absurd haw (halone.sleeps T pid options hT hp i z)
  · have hi : i ≠ t₀ := by
      rintro rfl
      exact halone.zombie z haw.there haw.zombie
    have hz := halone.others i hi z haw.there
    rw [htold] at ht
    exact h t T pid options i z (halone.others t ht₀ T hT) hp
      ⟨haw.slot, hz, haw.father, haw.wants, haw.zombie⟩ ht

/-- A zombie that moves tells task 1. -/
theorem Kept.exit {t₀ : Nat} {T₀ : Proc} {code : Int} {o : Outcome} (h : w.Kept) (hT₀ : w.procs.task t₀ = some T₀)
    (hrun : T₀.state = .running) :
    (w.after T₀ (.exit t₀ code) o (w.procs.exitStart t₀ T₀ code)).Kept := by
  have hback := @Procs.exitStart_back w.procs t₀ T₀ code hrun hT₀
  intro t T' pid options i z' hT' hp haw ht
  rcases hback t T' hT' with ⟨-, -, hexit⟩ | ⟨hne, T, hT, hlater, -⟩
  · rw [hexit] at hp
    cases hp
  rcases hback i z' haw.there with ⟨-, hzombie, -⟩ | ⟨-, z, hz, hlaterz, hfather⟩
  · exact absurd haw.zombie hzombie
  have hfather := hfather haw.slot.2.1
  have hp : T.phase = .waiting pid options := hlater.phase.symm.trans hp
  have hzombie := hlaterz.zombie.mp haw.zombie
  change (if orphaned w.procs T₀.pid i = true then some 1 else w.told i) = some t at ht
  by_cases hmoved : z.father = T₀.pid
  · have horphan : orphaned w.procs T₀.pid i = true := by
      simp [orphaned, hz, hmoved, hzombie, haw.slot.2.1]
    rw [if_pos horphan] at ht
    cases ht
    have hfold : ((List.range nrTasks).foldl (Procs.reparent T₀.pid) w.procs).task 1 = some T' :=
      (Function.update_of_ne hne ..).symm.trans hT'
    exact Procs.told_orphan (List.mem_range.mpr haw.slot.2.1) hz hmoved hzombie hfold
      (hlater.phase.trans hp)
  · have horphan : ¬ orphaned w.procs T₀.pid i = true := by
      simp [orphaned, hz, hmoved]
    rw [if_neg horphan] at ht
    rw [if_neg hmoved] at hfather
    exact hlater.told pid options hp
      (h t T pid options i z hT hp (haw.back hz hlater hlaterz hfather) ht)

/-- The father of the new zombie is told. -/
theorem Kept.exitEnd {t₀ : Nat} {T₀ : Proc} {code : Int} {o : Outcome} {s : Procs} (h : w.Kept)
    (hT₀ : w.procs.task t₀ = some T₀) (hp₀ : T₀.phase = .exiting code)
    (hs : w.procs.exitEnd t₀ T₀ code = .ok (o, s)) : (w.after T₀ (.exitEnd t₀) o s).Kept := by
  obtain ⟨hback, htell⟩ := Procs.exitEnd_back hT₀ hs
  intro t T' pid options i z' hT' hp haw ht
  change Function.update w.told t₀ (w.procs.fatherSlot T₀.father) i = some t at ht
  by_cases hi : i = t₀
  · subst hi
    rw [Function.update_self] at ht
    exact htell t T' ht hT'
  · rw [Function.update_of_ne hi] at ht
    rcases hback t T' hT' with ⟨-, hsame⟩ | ⟨-, T, hT, hlater, -⟩
    · rw [hsame, hp₀] at hp
      cases hp
    rcases hback i z' haw.there with ⟨heq, -⟩ | ⟨-, z, hz, hlaterz, hfather⟩
    · exact absurd heq hi
    have hp : T.phase = .waiting pid options := hlater.phase.symm.trans hp
    exact hlater.told pid options hp
      (h t T pid options i z hT hp (haw.back hz hlater hlaterz hfather) ht)

theorem rouse_zombie {signal blocked : BitVec 32} {st : TaskState} :
    rouse signal blocked st = .zombie ↔ st = .zombie := by
  unfold rouse
  split
  · next h =>
    rw [h.2]
    simp
  · rfl

theorem checkAlarm_told {jiffies alarm : Int} {signal : BitVec 32} {b : Nat} (h : signal.getLsbD b = true) :
    (checkAlarm jiffies alarm signal).1.getLsbD b = true := by
  unfold checkAlarm
  split
  · rw [BitVec.getLsbD_or, h, Bool.true_or]
  · exact h

theorem later_wake {i : Nat} {T : Proc} : T.Later (w.wake i T) :=
  ⟨rfl, rfl, rfl, rouse_zombie, fun _ _ _ h => checkAlarm_told h⟩

theorem Kept.call {T : Proc} {e : ProcEvent} {o : Outcome} {s : Procs} (h : w.Kept) (he : ∀ t, e ≠ .other t)
    (hT : w.procs.task e.task = some T) (hst : Procs.Step w.procs e (.ok (o, s))) : (w.after T e o s).Kept := by
  generalize hr : (Except.ok (o, s) : Except String (Outcome × Procs)) = r at hst
  cases hst with
  | fork ht hT' hrun hp hfork =>
    cases hr
    obtain ⟨nr, halone⟩ := Procs.alone_sysFork hT' hrun hp hfork
    exact h.alone rfl halone
  | exit ht hT' hrun hp =>
    cases hr
    cases hT.symm.trans hT'
    exact h.exit hT hrun
  | exitEnd hT' hrun hp =>
    cases hT.symm.trans hT'
    exact h.exitEnd hT hp hr.symm
  | waitpid ht hT' hrun hp => exact h.alone rfl (Procs.alone_waitScan hT' hrun ⟨rfl, rfl⟩ hr.symm)
  | woken hT' hrun hp => exact h.alone rfl (Procs.alone_waitWoken hT' hrun hr.symm)
  | stored hT' hrun hp =>
    cases hr
    refine h.alone rfl (Procs.alone_modify hT' ?_ fun _ _ => ProcPhase.noConfusion)
    show Proc.state _ ≠ .zombie
    rw [hrun]
    exact TaskState.noConfusion
  | other => exact absurd rfl (he _)

theorem schedule_task {i : Nat} {T' : Proc} (hT' : w.schedule.procs.task i = some T') :
    ∃ T, w.procs.task i = some T ∧ T.Later T' ∧ T'.father = T.father := by
  change (if 0 < i ∧ i < nrTasks then (w.procs.task i).map (w.wake i) else w.procs.task i) = some T' at hT'
  split at hT'
  · obtain ⟨T, hT, rfl⟩ := Option.map_eq_some_iff.mp hT'
    exact ⟨T, hT, later_wake, rfl⟩
  · exact ⟨T', hT', Procs.later_refl, rfl⟩

theorem Kept.step (h : w.Kept) (hst : Step w w') : w'.Kept := by
  cases hst with
  | call he hT hst => exact h.call he hT hst
  | ssetmask hT hrun hp => exact h
  | schedule => exact h.since rfl fun i T' => schedule_task
  | kill =>
    rename_i t sig
    refine h.since rfl fun i T' hT' => ?_
    obtain ⟨T, hT, hlater⟩ := Procs.since_sendSig sig i T' hT'
    have hmember := congrFun (Procs.alike_sendSig (s := w.procs) t sig).family i
    rw [Procs.family_eq hT, Procs.family_eq hT'] at hmember
    exact ⟨T, hT, hlater, congrArg Member.father (Option.some.inj hmember)⟩
  | other hT hp hzombie hsame =>
    rename_i t T T' mask alarm jiffies
    obtain ⟨hpid, hfather, hpgrp, -, hphase⟩ := hsame
    refine h.since rfl fun i U' hU' => ?_
    have htask : (w.procs.modify t fun _ => T').task = Function.update w.procs.task t (some T') :=
      Procs.modify_task hT
    change (w.procs.modify t fun _ => T').task i = some U' at hU'
    rw [htask] at hU'
    by_cases hi : i = t
    · subst hi
      cases (Function.update_self i _ w.procs.task).symm.trans hU'
      exact ⟨T, hT, ⟨hpid, hpgrp, hphase, hzombie, fun pid options hw => absurd hw (hp pid options)⟩, hfather⟩
    · rw [Function.update_of_ne hi] at hU'
      exact ⟨U', hU', Procs.later_refl, rfl⟩

theorem Kept.reached (hstart : w.Start) (hrun : Relation.ReflTransGen Step w w') : w'.Kept := by
  refine Lib.invariant_of_run (I := Kept) (fun _ _ h hst => h.step hst) ?_ hrun
  intro t T pid options i z hT hp
  exact absurd hp (hstart t T hT pid options)

/-! ## Who is woken -/

/-- The mask lets the signal with bit `b` through. -/
def Passes (signal blocked : BitVec 32) (b : Nat) : Prop :=
  signal.getLsbD b = true ∧ (blockable &&& blocked).getLsbD b = false

theorem ready_iff {signal blocked : BitVec 32} : ready signal blocked = true ↔ ∃ b, Passes signal blocked b := by
  unfold ready Passes
  rw [bne_iff_ne]
  constructor
  · intro hne
    by_contra hnone
    push Not at hnone
    apply hne
    ext b hb
    have hb' := hnone b
    grind
  · rintro ⟨b, hbit, hpass⟩ hzero
    have hb : b < 32 := BitVec.lt_of_getLsbD hbit
    have hbits : (signal &&& ~~~(blockable &&& blocked)).getLsbD b = false := by rw [hzero]; simp
    rw [BitVec.getLsbD_and, BitVec.getLsbD_not, hbit, hpass] at hbits
    simp [hb] at hbits

/-- In every run that starts with nobody in `sys_waitpid`: if a task sleeps there, and a zombie child that it
waits for has sent its signal, `schedule` makes it running if and only if its mask does not block `SIGCHLD`,
or lets another signal through. -/
theorem schedule_wakes_father {t i : Nat} {T z : Proc} {pid : Int} {options : BitVec 32} (hstart : w.Start)
    (hrun : Relation.ReflTransGen Step w w') (ht : 0 < t ∧ t < nrTasks) (hT : w'.procs.task t = some T)
    (hstate : T.state = .interruptible) (hp : T.phase = .waiting pid options)
    (haw : w'.procs.Awaited t T pid i z) (htold : w'.told i = some t) :
    ∃ T', w'.schedule.procs.task t = some T' ∧ (T'.state = .running ↔
      (w'.blocked t).getLsbD (sigchld - 1) = false ∨ ∃ b, b ≠ sigchld - 1 ∧
        Passes (checkAlarm w'.jiffies (w'.alarm t) T.signal).1 (w'.blocked t) b) := by
  have hbit : (checkAlarm w'.jiffies (w'.alarm t) T.signal).1.getLsbD (sigchld - 1) = true :=
    checkAlarm_told (Kept.reached hstart hrun t T pid options i z hT hp haw htold)
  refine ⟨w'.wake t T, ?_, ?_⟩
  · show (if 0 < t ∧ t < nrTasks then (w'.procs.task t).map (w'.wake t) else _) = _
    rw [if_pos ht, hT]
    rfl
  · have hwoken : (w'.wake t T).state = .running ↔
        ready (checkAlarm w'.jiffies (w'.alarm t) T.signal).1 (w'.blocked t) = true := by
      show rouse _ _ T.state = .running ↔ _
      unfold rouse
      rw [hstate]
      split
      · next h => exact iff_of_true rfl h.1
      · next h => exact iff_of_false TaskState.noConfusion fun hready => h ⟨hready, rfl⟩
    rw [hwoken, ready_iff]
    -- `SIGCHLD` can be blocked
    have hblockable : blockable.getLsbD (sigchld - 1) = true := by decide
    have hpasses : Passes (checkAlarm w'.jiffies (w'.alarm t) T.signal).1 (w'.blocked t) (sigchld - 1) ↔
        (w'.blocked t).getLsbD (sigchld - 1) = false := by
      unfold Passes
      rw [hbit, BitVec.getLsbD_and, hblockable, Bool.true_and]
      exact and_iff_right rfl
    constructor
    · rintro ⟨b, hb⟩
      by_cases hsame : b = sigchld - 1
      · subst hsame
        exact .inl (hpasses.mp hb)
      · exact .inr ⟨b, hsame, hb⟩
    · rintro (hfree | ⟨b, -, hb⟩)
      · exact ⟨_, hpasses.mpr hfree⟩
      · exact ⟨b, hb⟩

/-! ### A father that blocks `SIGCHLD` -/

/-- Tasks 0 and 1. -/
def twoTasks : Waits := ⟨Procs.twoTasks, fun _ => 0, fun _ => 0, 0, fun _ => none⟩

theorem twoTasks_start : twoTasks.Start := by
  intro t T hT pid options
  change (if t = 0 then some _ else if t = 1 then some _ else none) = some T at hT
  split at hT
  · cases hT
    exact ProcPhase.noConfusion
  · split at hT
    · cases hT
      exact ProcPhase.noConfusion
    · cases hT

def parent : Proc := ⟨.running, 0, 0, 1, 0, 0, 0, false, 0, 0, 0, 0, .user⟩

def forked : Procs where
  task := Function.update Procs.twoTasks.task 2 (some (Procs.child parent 2))
  lastPid := 2

def asleep : Procs := forked.modify 1 fun T => { T with state := .interruptible, phase := .waiting (-1) 0 }

def exiting : Procs := asleep.exitStart 2 (Procs.child parent 2) 0

def leaving : Proc := { Procs.child parent 2 with phase := .exiting 0 }

def gone : Procs := (exiting.modify 2 fun T => { T with state := .zombie, exitCode := 0 }).sendSig 1 sigchld

def afterFork : Waits := twoTasks.after parent (.fork 1 true) (.forked 2 (some 2)) forked

def afterWait (newmask : BitVec 32) : Waits :=
  (afterFork.sysSsetmask 1 newmask).after parent (.waitpid 1 (-1) 0) .silent asleep

def afterExit (newmask : BitVec 32) : Waits :=
  ((afterWait newmask).after (Procs.child parent 2) (.exit 2 0) .silent exiting).after leaving (.exitEnd 2)
    .silent gone

theorem exiting_task : exiting.task 2 = some leaving := rfl

theorem gone_task : gone.task 1 = some { parent with
    state := .interruptible, signal := sigmask sigchld, phase := .waiting (-1) 0 } ∧
    gone.task 2 = some { leaving with state := .zombie } :=
  ⟨rfl, rfl⟩

/-- Task 1 forks, sets its mask and waits, and its child exits. -/
theorem run_child (newmask : BitVec 32) : Relation.ReflTransGen Step twoTasks (afterExit newmask) := by
  have h₁ : Step twoTasks afterFork :=
    .call (fun _ => ProcEvent.noConfusion) rfl (.fork (by decide) rfl rfl rfl rfl)
  have h₂ : Step afterFork (afterFork.sysSsetmask 1 newmask) := .ssetmask rfl rfl rfl
  have hwait : forked.waitScan 1 parent (-1) 0 = .ok (.silent, asleep) := rfl
  have h₃ : Step (afterFork.sysSsetmask 1 newmask) (afterWait newmask) :=
    .call (fun _ => ProcEvent.noConfusion) rfl (.cast (.waitpid (by decide) rfl rfl rfl) hwait)
  have h₄ : Step (afterWait newmask)
      ((afterWait newmask).after (Procs.child parent 2) (.exit 2 0) .silent exiting) :=
    .call (fun _ => ProcEvent.noConfusion) rfl (.exit (by decide) rfl rfl (.inl rfl))
  have hend : exiting.exitEnd 2 leaving 0 = .ok (.silent, gone) := rfl
  have h₅ : Step ((afterWait newmask).after (Procs.child parent 2) (.exit 2 0) .silent exiting)
      (afterExit newmask) :=
    .call (fun _ => ProcEvent.noConfusion) exiting_task (.cast (.exitEnd exiting_task rfl rfl) hend)
  exact .tail (.tail (.tail (.tail (.tail .refl h₁) h₂) h₃) h₄) h₅

theorem awaited_child (newmask : BitVec 32) : ∃ T z, (afterExit newmask).procs.task 1 = some T ∧
    T.state = .interruptible ∧ T.phase = .waiting (-1) 0 ∧
    (afterExit newmask).procs.Awaited 1 T (-1) 2 z ∧ (afterExit newmask).told 2 = some 1 :=
  ⟨_, _, gone_task.1, rfl, rfl, ⟨by decide, gone_task.2, rfl, rfl, rfl⟩, rfl⟩

/-- If it blocks `SIGCHLD`, `schedule` leaves it asleep. -/
theorem schedule_leaves_father : ∃ w T z T', twoTasks.Start ∧ Relation.ReflTransGen Step twoTasks w ∧
    w.procs.task 1 = some T ∧ T.state = .interruptible ∧ T.phase = .waiting (-1) 0 ∧
    w.procs.Awaited 1 T (-1) 2 z ∧ w.told 2 = some 1 ∧
    w.schedule.procs.task 1 = some T' ∧ T'.state = .interruptible := by
  obtain ⟨T, z, hT, hstate, hp, haw, htold⟩ := awaited_child (sigmask sigchld)
  have hmap : (afterExit (sigmask sigchld)).schedule.procs.task 1 =
      some ((afterExit (sigmask sigchld)).wake 1 T) := congrArg (Option.map _) hT
  refine ⟨_, T, z, _, twoTasks_start, run_child _, hT, hstate, hp, haw, htold, hmap, ?_⟩
  cases gone_task.1.symm.trans hT
  decide

theorem schedule_wakes_father_unblocked : ∃ T', (afterExit 0).schedule.procs.task 1 = some T' ∧
    (T'.state = .running ↔ ((afterExit 0).blocked 1).getLsbD (sigchld - 1) = false ∨ ∃ b, b ≠ sigchld - 1 ∧
      Passes (checkAlarm 0 0 (sigmask sigchld)).1 ((afterExit 0).blocked 1) b) := by
  obtain ⟨T, z, hT, hstate, hp, haw, htold⟩ := awaited_child 0
  have hwoken := schedule_wakes_father twoTasks_start (run_child 0) (by decide) hT hstate hp haw htold
  cases gone_task.1.symm.trans hT
  exact hwoken

end Waits

end Linux011.Kernel
