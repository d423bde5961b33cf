import Linux011.Kernel.Process

/-!
# `sys_kill`

The four loops of `sys_kill` over the task table, and `send_sig`, in `kernel/exit.c`. They differ in the
test for a task, and in whether the permission is checked. The last slot comes first, and slot 0 is left
out.
-/

namespace Linux011.Kernel

def ePerm : Int := 1
def eInval : Int := 22

/-- The fields of `task_struct` that `sys_kill` uses. -/
structure Target where
  pid : BitVec 32
  pgrp : BitVec 32
  euid : BitVec 16
  signal : BitVec 32
deriving DecidableEq

abbrev Targets := Nat → Option Target

namespace Target

def suser (current : Target) : Bool := current.euid == 0

/-- `p->signal |= (1<<(sig-1))` -/
def send (sig : Int) (T : Target) : Target := { T with signal := T.signal ||| sigmask sig.toNat }

/-- A signal that is pending already leaves no trace. -/
theorem send_eq {sig : Int} {T : Target} (hsig : 1 ≤ sig ∧ sig ≤ 32) :
    T.send sig = T ↔ T.signal.getLsbD (sig.toNat - 1) = true := by
  have hlt : sig.toNat - 1 < 32 := by omega
  constructor
  · intro heq
    have hsignal : T.signal ||| sigmask sig.toNat = T.signal := congrArg Target.signal heq
    rw [← hsignal, BitVec.getLsbD_or, sigmask_bit]
    simp [hlt]
  · intro hbit
    have hsignal : T.signal ||| sigmask sig.toNat = T.signal := by
      apply BitVec.eq_of_getLsbD_eq
      intro i hi
      rw [BitVec.getLsbD_or, sigmask_bit]
      by_cases heq : i = sig.toNat - 1
      · rw [heq, hbit, Bool.true_or]
      · rw [decide_eq_false heq, Bool.and_false, Bool.or_false]
    unfold send
    rw [hsignal]

end Target

namespace Targets

def sendSig (current : Target) (sig : Int) (p : Option Target) (priv : Bool) : Int × Option Target :=
  match p with
  | none => (-eInval, none)
  | some T =>
    if sig < 1 ∨ 32 < sig then (-eInval, some T)
    else if priv || current.euid == T.euid || current.suser then (0, some (T.send sig))
    else (-ePerm, some T)

/-- A loop of `sys_kill` over the slots from `i` down to 1: the tasks that pass `test` get the signal. -/
def killLoop (current : Target) (sig : Int) (test : Option Target → Bool) (priv : Bool) :
    (i : Nat) → (retval : Int) → Targets → Int × Targets
  | 0, retval, s => (retval, s)
  | i + 1, retval, s =>
    if test (s (i + 1)) then
      let r := sendSig current sig (s (i + 1)) priv
      killLoop current sig test priv i (if r.1 ≠ 0 then r.1 else retval)
        (Function.update s (i + 1) r.2)
    else killLoop current sig test priv i retval s

/-- `sys_kill` -/
def sysKill (current : Target) (pid : BitVec 32) (sig : Int) (s : Targets) : Int × Targets :=
  if pid = 0 then
    killLoop current sig (fun p => p.any fun T => T.pgrp == current.pid) true (nrTasks - 1) 0 s
  else if BitVec.slt 0 pid then
    killLoop current sig (fun p => p.any fun T => T.pid == pid) false (nrTasks - 1) 0 s
  else if pid = -1 then killLoop current sig (fun _ => true) false (nrTasks - 1) 0 s
  else killLoop current sig (fun p => p.any fun T => T.pgrp == -pid) false (nrTasks - 1) 0 s

/-! ## What `kill` is for -/

/-- The task `T` is one that `pid` stands for. -/
def Meant (current : Target) (pid : BitVec 32) (T : Target) : Prop :=
  if pid = 0 then T.pgrp = current.pgrp
  else if BitVec.slt 0 pid then T.pid = pid
  else if pid = -1 then True
  else T.pgrp = -pid

instance (current : Target) (pid : BitVec 32) (T : Target) : Decidable (Meant current pid T) := by
  unfold Meant
  infer_instance

/-- The caller may send signals to its own group, to tasks of its user, and as super-user to all. -/
def May (current : Target) (pid : BitVec 32) (T : Target) : Prop :=
  pid = 0 ∨ current.euid = T.euid ∨ current.euid = 0

instance (current : Target) (pid : BitVec 32) (T : Target) : Decidable (May current pid T) :=
  inferInstanceAs (Decidable (_ ∨ _))

/-- There is a task in slot `i`, other than task 0. -/
def At (s : Targets) (i : Nat) (T : Target) : Prop := 0 < i ∧ i < nrTasks ∧ s i = some T

/-- The signal goes to the tasks that are meant and that the caller may signal, and to no other, and the
result is 0 if it went to all that are meant. -/
structure Delivers (current : Target) (pid : BitVec 32) (sig : Int) (s : Targets) : Prop where
  table : ∀ i, (sysKill current pid sig s).2 i = (s i).map fun T =>
    if 0 < i ∧ i < nrTasks ∧ Meant current pid T ∧ May current pid T then T.send sig else T
  result : (∀ i T, s.At i T → Meant current pid T → May current pid T) →
    (sysKill current pid sig s).1 = 0

/-! ## The loops -/

section

variable {current : Target} {sig : Int} {test : Option Target → Bool} {priv : Bool} {s : Targets}
  {pid : BitVec 32} {T : Target}

/-- One slot does not see what became of the others. -/
theorem killLoop_table (n : Nat) : ∀ (retval : Int) (s : Targets) (i : Nat),
    (killLoop current sig test priv n retval s).2 i =
      if 0 < i ∧ i ≤ n ∧ test (s i) = true then (sendSig current sig (s i) priv).2 else s i := by
  induction n with
  | zero =>
    intro retval s i
    rw [if_neg (by omega)]
    rfl
  | succ n ih =>
    intro retval s i
    unfold killLoop
    split
    · next htest =>
      rw [ih]
      by_cases hi : i = n + 1
      · subst hi
        rw [if_neg (by omega), if_pos ⟨by omega, le_rfl, htest⟩, Function.update_self]
      · rw [Function.update_of_ne hi]
        grind
    · next htest =>
      rw [ih]
      by_cases hi : i = n + 1
      · subst hi
        rw [if_neg (by omega), if_neg fun h => htest h.2.2]
      · grind

/-- The result is 0 if and only if no `send_sig` failed. -/
theorem killLoop_result (n : Nat) : ∀ (retval : Int) (s : Targets),
    (killLoop current sig test priv n retval s).1 = 0 ↔ retval = 0 ∧
      ∀ i, 0 < i → i ≤ n → test (s i) = true → (sendSig current sig (s i) priv).1 = 0 := by
  induction n with
  | zero =>
    intro retval s
    exact ⟨fun h => ⟨h, fun i h0 hn => absurd hn (by omega)⟩, fun h => h.1⟩
  | succ n ih =>
    intro retval s
    have hbelow : ∀ v i, i ≤ n → Function.update s (n + 1) v i = s i :=
      fun v i hi => Function.update_of_ne (by omega) _ _
    unfold killLoop
    split
    · next htest =>
      rw [ih]
      constructor
      · rintro ⟨hret, hall⟩
        have hhead : (sendSig current sig (s (n + 1)) priv).1 = 0 := by
          by_contra hne
          rw [if_pos hne] at hret
          exact hne hret
        rw [if_neg (not_not.mpr hhead)] at hret
        refine ⟨hret, fun i h0 hi ht => ?_⟩
        rcases Nat.lt_or_eq_of_le hi with hlt | rfl
        · have hone := hall i h0 (Nat.le_of_lt_succ hlt)
          rw [hbelow _ i (Nat.le_of_lt_succ hlt)] at hone
          exact hone ht
        · exact hhead
      · rintro ⟨hret, hall⟩
        refine ⟨?_, fun i h0 hi ht => ?_⟩
        · rw [if_neg (not_not.mpr (hall (n + 1) (by omega) le_rfl htest)), hret]
        · rw [hbelow _ i hi] at ht ⊢
          exact hall i h0 (by omega) ht
    · next htest =>
      rw [ih]
      refine and_congr_right fun _ => ⟨fun hall i h0 hi ht => ?_, fun hall i h0 hi => hall i h0 (by omega)⟩
      rcases Nat.lt_or_eq_of_le hi with hlt | rfl
      · exact hall i h0 (Nat.le_of_lt_succ hlt) ht
      · exact absurd ht htest

/-- The test of the loop that `pid` selects. -/
def tests (current : Target) (pid : BitVec 32) : Option Target → Bool
  | none => pid == -1
  | some T => if pid = 0 then T.pgrp == current.pid else decide (Meant current pid T)

theorem sysKill_eq (current : Target) (pid : BitVec 32) (sig : Int) (s : Targets) :
    sysKill current pid sig s =
      killLoop current sig (tests current pid) (pid == 0) (nrTasks - 1) 0 s := by
  unfold sysKill
  have hcongr : ∀ test : Option Target → Bool, ∀ priv : Bool, (∀ p, test p = tests current pid p) →
      (pid == 0) = priv → killLoop current sig test priv (nrTasks - 1) 0 s =
        killLoop current sig (tests current pid) (pid == 0) (nrTasks - 1) 0 s := by
    intro test priv htest hpriv
    rw [show test = tests current pid from funext htest, hpriv]
  split
  · next hzero =>
    refine hcongr _ _ (fun p => ?_) (by simp [hzero])
    cases p with
    | none => rw [hzero]; rfl
    | some T => simp [tests, hzero]
  · next hzero =>
    have hpriv : (pid == 0) = false := by simpa using hzero
    split
    · next hpos =>
      refine hcongr _ _ (fun p => ?_) hpriv
      cases p with
      | none =>
        have hne : pid ≠ -1 := by
          rintro rfl
          exact absurd hpos (by decide)
        simpa [tests] using hne
      | some T =>
        have hmeant : Meant current pid T ↔ T.pid = pid := by rw [Meant, if_neg hzero, if_pos hpos]
        show (T.pid == pid) = if pid = 0 then _ else _
        rw [if_neg hzero, beq_eq_decide]
        exact decide_eq_decide.mpr hmeant.symm
    · next hpos =>
      split
      · next hone =>
        refine hcongr _ _ (fun p => ?_) hpriv
        cases p with
        | none => simp [tests, hone]
        | some T => simp [tests, Meant, hone]
      · next hone =>
        refine hcongr _ _ (fun p => ?_) hpriv
        cases p with
        | none => simpa [tests] using hone
        | some T =>
          have hmeant : Meant current pid T ↔ T.pgrp = -pid := by
            rw [Meant, if_neg hzero, if_neg hpos, if_neg hone]
          show (T.pgrp == -pid) = if pid = 0 then _ else _
          rw [if_neg hzero, beq_eq_decide]
          exact decide_eq_decide.mpr hmeant.symm

theorem sendSig_some (hsig : 1 ≤ sig ∧ sig ≤ 32) :
    sendSig current sig (some T) (pid == 0) =
      if May current pid T then (0, some (T.send sig)) else (-ePerm, some T) := by
  have hrange : ¬ (sig < 1 ∨ 32 < sig) := by omega
  have hmay : ((pid == 0) || current.euid == T.euid || current.suser) = true ↔ May current pid T := by
    simp only [Bool.or_eq_true, beq_iff_eq, or_assoc, Target.suser]
    rfl
  unfold sendSig
  simp only
  rw [if_neg hrange]
  exact if_congr hmay rfl rfl

/-- When `pid` is not 0 the loop tests for the tasks that are meant. With `pid` 0 it takes the pid of the
caller for its group. -/
def Tested (current : Target) (pid : BitVec 32) (T : Target) : Prop :=
  if pid = 0 then T.pgrp = current.pid else Meant current pid T

theorem tests_some : tests current pid (some T) = true ↔ Tested current pid T := by
  unfold Tested
  show (if pid = 0 then T.pgrp == current.pid else decide (Meant current pid T)) = true ↔ _
  split
  · exact beq_iff_eq
  · exact decide_eq_true_iff

/-- What `sys_kill` does to a slot. -/
theorem sysKill_table (hsig : 1 ≤ sig ∧ sig ≤ 32) (i : Nat) :
    (sysKill current pid sig s).2 i = (s i).map fun T =>
      if 0 < i ∧ i < nrTasks ∧ tests current pid (some T) = true ∧ May current pid T then T.send sig
      else T := by
  rw [sysKill_eq, killLoop_table]
  cases hT : s i with
  | none =>
    split
    · rfl
    · rfl
  | some T =>
    rw [sendSig_some hsig, Option.map_some]
    have hlt : i ≤ nrTasks - 1 ↔ i < nrTasks := by
      unfold nrTasks
      omega
    grind

/-- The result is 0 if and only if each task that passes the test may be signalled, and no empty slot
passes it. -/
theorem sysKill_result (hsig : 1 ≤ sig ∧ sig ≤ 32) :
    (sysKill current pid sig s).1 = 0 ↔
      (∀ i T, s.At i T → Tested current pid T → May current pid T) ∧
      (pid = -1 → ∀ i, 0 < i → i < nrTasks → s i ≠ none) := by
  have hlt : ∀ i, i ≤ nrTasks - 1 ↔ i < nrTasks := by
    intro i
    unfold nrTasks
    omega
  rw [sysKill_eq, killLoop_result]
  constructor
  · rintro ⟨-, hall⟩
    refine ⟨fun i T hT htest => ?_, fun hone i h0 hi hnone => ?_⟩
    · have hok := hall i hT.1 ((hlt i).mpr hT.2.1) (by rw [hT.2.2]; exact tests_some.mpr htest)
      rw [hT.2.2, sendSig_some hsig] at hok
      by_contra hmay
      rw [if_neg hmay] at hok
      have hperm : -ePerm = 0 := hok
      exact absurd hperm (by decide)
    · have hok := hall i h0 ((hlt i).mpr hi) (by rw [hnone, hone]; rfl)
      rw [hnone] at hok
      have hinval : -eInval = 0 := hok
      exact absurd hinval (by decide)
  · rintro ⟨hmay, hfull⟩
    refine ⟨rfl, fun i h0 hi htest => ?_⟩
    cases hT : s i with
    | none =>
      rw [hT] at htest
      exact absurd hT (hfull (beq_iff_eq.mp htest) i h0 ((hlt i).mp hi))
    | some T =>
      rw [hT] at htest
      rw [sendSig_some hsig, if_pos (hmay i T ⟨h0, (hlt i).mp hi, hT⟩ (tests_some.mp htest))]

/-- `sys_kill` delivers as it should if and only if, for `pid` 0, the tasks whose group is the pid of the
caller are those of its own group (but for tasks that have the signal already), and, for `pid` -1, no slot
is empty unless some task may not be signalled. -/
theorem sysKill_delivers (hsig : 1 ≤ sig ∧ sig ≤ 32) :
    Delivers current pid sig s ↔
      (pid = 0 → ∀ i T, s.At i T → T.signal.getLsbD (sig.toNat - 1) = false →
        (T.pgrp = current.pid ↔ T.pgrp = current.pgrp)) ∧
      (pid = -1 → (∃ i, 0 < i ∧ i < nrTasks ∧ s i = none) →
        ∃ i T, s.At i T ∧ ¬ May current pid T) := by
  constructor
  · rintro ⟨htable, hresult⟩
    refine ⟨fun hzero i T hT hbit => ?_, fun hone hempty => ?_⟩
    · have hi := htable i
      have hnew : T.send sig ≠ T := fun heq => by
        rw [(Target.send_eq hsig).mp heq] at hbit
        cases hbit
      have hmay : May current pid T := .inl hzero
      rw [sysKill_table hsig, hT.2.2, Option.map_some, Option.map_some] at hi
      have htested : tests current pid (some T) = true ↔ Tested current pid T := tests_some
      rw [Tested, if_pos hzero] at htested
      have hmeant : Meant current pid T ↔ T.pgrp = current.pgrp := by rw [Meant, if_pos hzero]
      obtain ⟨h0, hn, -⟩ := hT
      grind
    · -- with an empty slot the call fails, although it may send to every task
      by_contra hnone
      push Not at hnone
      obtain ⟨i, h0, hi, hnull⟩ := hempty
      exact ((sysKill_result hsig).mp (hresult fun j T hT _ => hnone j T hT)).2 hone i h0 hi hnull
  · rintro ⟨hgroup, hfull⟩
    have hsame : ∀ i T, s.At i T → T.send sig ≠ T → (Tested current pid T ↔ Meant current pid T) := by
      intro i T hT hnew
      unfold Tested
      by_cases hzero : pid = 0
      · rw [if_pos hzero, Meant, if_pos hzero]
        refine hgroup hzero i T hT ?_
        rw [← Bool.not_eq_true]
        exact fun hbit => hnew ((Target.send_eq hsig).mpr hbit)
      · rw [if_neg hzero]
    refine ⟨fun i => ?_, fun hall => ?_⟩
    · rw [sysKill_table hsig]
      cases hT : s i with
      | none => rfl
      | some T =>
        rw [Option.map_some, Option.map_some]
        by_cases hnew : T.send sig = T
        · simp only [hnew, ite_self]
        · by_cases hi : 0 < i ∧ i < nrTasks
          · have hiff := hsame i T ⟨hi.1, hi.2, hT⟩ hnew
            have htested : tests current pid (some T) = true ↔ Tested current pid T := tests_some
            grind
          · grind
    · rw [sysKill_result hsig]
      constructor
      · intro i T hT htest
        by_cases hzero : pid = 0
        · exact .inl hzero
        · rw [Tested, if_neg hzero] at htest
          exact hall i T hT htest
      · intro hone i h0 hi hnull
        obtain ⟨j, T, hT, hnot⟩ := hfull hone ⟨i, h0, hi, hnull⟩
        refine hnot (hall j T hT ?_)
        rw [hone]
        exact trivial

end

/-- The caller is task 2 with pid 7 in group 5. Task 3 is in its group, and task 4 leads group 7. -/
def caller : Target := ⟨7, 5, 0, 0⟩

def groups : Targets := fun i =>
  if i = 2 then some caller else if i = 3 then some ⟨8, 5, 0, 0⟩ else if i = 4 then some ⟨9, 7, 0, 0⟩
  else none

/-- A signal to the own group goes to group 7, and one to all tasks fails because of the empty slots. -/
theorem sysKill_strays : ¬ Delivers caller 0 15 groups ∧ ¬ Delivers caller (-1) 15 groups ∧
    (∃ T, (sysKill caller 0 15 groups).2 3 = some T ∧ T.signal = 0) ∧
    (∃ T, (sysKill caller 0 15 groups).2 4 = some T ∧ T.signal = 0x4000) ∧
    (sysKill caller (-1) 15 groups).1 = -eInval := by
  refine ⟨fun h => ?_, fun h => ?_, ⟨⟨8, 5, 0, 0⟩, by decide +kernel⟩,
    ⟨⟨9, 7, 0, 0x4000⟩, by decide +kernel⟩, by decide +kernel⟩
  · have hgroup := h.table 3
    exact absurd hgroup (by decide +kernel)
  · have hzero := h.result fun i T hT hmeant => .inr (.inr rfl)
    exact absurd hzero (by decide +kernel)

theorem sysKill_delivers_pid : Delivers caller 8 15 groups :=
  (sysKill_delivers (by decide)).mpr
    ⟨fun h => absurd h (by decide), fun h => absurd h (by decide)⟩

end Targets

end Linux011.Kernel
