import Mathlib.Data.Finset.Card
import Mathlib.Data.List.Infix
import Linux011.Lib.Outcome

/-!
# Signals

The part of a task that `kernel/signal.c` and the return path of `kernel/system_call.s` work on: the
pending signals, the blocked ones and the table of actions. Signals are numbered from 1; signal `n`
is bit `n - 1` of a mask.

A call returns its value with the new task, or kills the task with an exit code. What the call reads
from user memory is an argument of the model, with `none` or `false` for memory that cannot be used:
the fault ends in `do_exit(11)`.

`ssetmask` keeps `SIGKILL` out of `blocked`. `sigaction` stores the mask of a handler as it is given,
and `do_signal` merges it into `blocked`. `sigkill_delivered` says that this merge is the only way in.
-/

namespace Linux011.Kernel

def sigkill : Nat := 9
def sigchld : Nat := 17
def saNomask : BitVec 32 := 0x40000000
def saOneshot : BitVec 32 := 0x80000000

/-- `struct sigaction`. -/
structure SigAction where
  saHandler : BitVec 32
  saMask : BitVec 32
  saFlags : BitVec 32
  saRestorer : BitVec 32
  deriving DecidableEq

/-- The signal fields of `task_struct`. -/
structure Task where
  signal : BitVec 32
  blocked : BitVec 32
  sigaction : Nat → SigAction

/-- The registers on the kernel stack of a system call. -/
structure Regs where
  eax : BitVec 32
  ecx : BitVec 32
  edx : BitVec 32
  eip : BitVec 32
  cs : BitVec 32
  eflags : BitVec 32
  esp : BitVec 32
  ss : BitVec 32
  deriving DecidableEq

/-- `1<<(signr-1)`. -/
def sigmask (signr : Nat) : BitVec 32 :=
  1#32 <<< (signr - 1)

@[simp] theorem sigmask_bit (signr i : Nat) :
    (sigmask signr).getLsbD i = (decide (i < 32) && decide (i = signr - 1)) := by
  simp only [sigmask, BitVec.getLsbD_shiftLeft, BitVec.getLsbD_one]
  by_cases hi : i < 32 <;> by_cases h : i = signr - 1 <;> simp [hi, h] <;> omega

namespace Task

/-! ## The system calls -/

def setAction (t : Task) (signum : Nat) (sa : SigAction) : Task :=
  { t with sigaction := Function.update t.sigaction (signum - 1) sa }

@[simp] theorem setAction_signal (t : Task) (n : Nat) (sa : SigAction) :
    (t.setAction n sa).signal = t.signal := rfl
@[simp] theorem setAction_blocked (t : Task) (n : Nat) (sa : SigAction) :
    (t.setAction n sa).blocked = t.blocked := rfl

/-- The check that `sys_signal` and `sys_sigaction` share. -/
def refused (signum : Int) : Prop :=
  signum < 1 ∨ 32 < signum ∨ signum = sigkill

instance (signum : Int) : Decidable (refused signum) :=
  inferInstanceAs (Decidable (_ ∨ _))

def sysSsetmask (t : Task) (newmask : BitVec 32) : BitVec 32 × Task :=
  (t.blocked, { t with blocked := newmask &&& ~~~(sigmask sigkill) })

def sysSignal (t : Task) (signum : Int) (handler restorer : BitVec 32) : BitVec 32 × Task :=
  if refused signum then (-1, t)
  else
    ((t.sigaction (signum.toNat - 1)).saHandler,
      t.setAction signum.toNat ⟨handler, 0, saOneshot ||| saNomask, restorer⟩)

/-- The last lines of `sys_sigaction`. -/
def fixMask (signum : Nat) (sa : SigAction) : SigAction :=
  if sa.saFlags &&& saNomask ≠ 0 then { sa with saMask := 0 }
  else { sa with saMask := sa.saMask ||| sigmask signum }

/-- `action` is what user memory holds there; `oldaction` is `none` for a NULL pointer, and else says
whether the old action can be stored. The result has the old action when it is stored. -/
def sysSigaction (t : Task) (signum : Int) (action : Option SigAction) (oldaction : Option Bool) :
    Except (BitVec 32) (BitVec 32 × Option SigAction × Task) :=
  if refused signum then .ok (-1, none, t)
  else
    match action, oldaction with
    | none, _ => .error 11
    | some _, some false => .error 11
    | some new, some true =>
      .ok (0, some (t.sigaction (signum.toNat - 1)), t.setAction signum.toNat (fixMask signum.toNat new))
    | some new, none => .ok (0, none, t.setAction signum.toNat (fixMask signum.toNat new))

/-- `send_sig`, once the permission is checked. -/
def sendSig (t : Task) (sig : Nat) : Task :=
  if sig < 1 ∨ 32 < sig then t else { t with signal := t.signal ||| sigmask sig }

/-! ## Delivery -/

/-- What delivery leaves: the task, the registers it returns to, and the longs stored upwards from
the new `esp`. -/
structure Delivery where
  task : Task
  regs : Regs
  stack : List (BitVec 32)

/-- `do_signal`; `stackOk` says whether the user stack takes the frame. -/
def doSignal (t : Task) (signr : Nat) (r : Regs) (stackOk : Bool) : Except (BitVec 32) Delivery :=
  let sa := t.sigaction (signr - 1)
  if sa.saHandler = 1 then .ok ⟨t, r, []⟩
  else if sa.saHandler = 0 then
    if signr = sigchld then .ok ⟨t, r, []⟩ else .error (sigmask signr)
  else if stackOk then
    let oneshot := sa.saFlags &&& saOneshot ≠ 0
    let nomask := sa.saFlags &&& saNomask ≠ 0
    let longs : BitVec 32 := if nomask then 7 else 8
    let t' := if oneshot then t.setAction signr { sa with saHandler := 0 } else t
    .ok ⟨{ t' with blocked := t.blocked ||| sa.saMask },
      { r with eip := sa.saHandler, esp := r.esp - 4 * longs },
      [sa.saRestorer, BitVec.ofNat 32 signr] ++ (if nomask then [] else [t.blocked]) ++
        [r.eax, r.ecx, r.edx, r.eflags, r.eip]⟩
  else .error 11

/-- The call comes from user mode: `cs` and `ss` are the user's. -/
def userMode (r : Regs) : Prop :=
  r.cs.setWidth 16 = 0x0f#16 ∧ r.ss.setWidth 16 = 0x17#16

instance (r : Regs) : Decidable (userMode r) :=
  inferInstanceAs (Decidable (_ ∧ _))

/-- The signal that `ret_from_sys_call` picks (`bsfl`: the lowest one); `first` says that `current` is
`task[0]`. -/
def pick (t : Task) (first : Bool) (r : Regs) : Option Nat :=
  let ready := t.signal &&& ~~~t.blocked
  if first || !decide (userMode r) || decide (ready = 0) then none
  else some (ready.ctz.toNat + 1)

def retFromSysCall (t : Task) (first : Bool) (r : Regs) (stackOk : Bool) :
    Except (BitVec 32) Delivery :=
  match t.pick first r with
  | none => .ok ⟨t, r, []⟩
  | some signr =>
    { t with signal := t.signal &&& ~~~(sigmask signr) }.doSignal signr r stackOk

/-! ## Runs -/

inductive Event where
  | ssetmask (newmask : BitVec 32)
  | signal (signum : Int) (handler restorer : BitVec 32)
  | sigaction (signum : Int) (action : Option SigAction) (oldaction : Option Bool)
  | send (sig : Nat)
  | ret (first : Bool) (r : Regs) (stackOk : Bool)

/-- One call of the task, or one signal sent to it. -/
def step (t : Task) : Event → Except (BitVec 32) Task
  | .ssetmask newmask => .ok (t.sysSsetmask newmask).2
  | .signal signum handler restorer => .ok (t.sysSignal signum handler restorer).2
  | .sigaction signum action oldaction =>
    (t.sysSigaction signum action oldaction).map fun r => r.2.2
  | .send sig => .ok (t.sendSig sig)
  | .ret first r stackOk => (t.retFromSysCall first r stackOk).map Delivery.task

/-- The task as it was created, by `INIT_TASK`, `fork` or `exec`: `SIGKILL` is neither blocked nor
handled. -/
structure Fresh (t : Task) : Prop where
  unblocked : t.blocked.getLsbD (sigkill - 1) = false
  default : (t.sigaction (sigkill - 1)).saHandler = 0

/-- `SIGKILL` is not blocked, and when it is pending the next return to user mode delivers it or a
signal with a lower number; in the second case it stays pending. -/
structure Killable (t : Task) : Prop where
  unblocked : t.blocked.getLsbD (sigkill - 1) = false
  delivered : t.signal.getLsbD (sigkill - 1) = true → ∀ r, userMode r → ∃ signr ≤ sigkill,
    t.pick false r = some signr ∧
    (signr = sigkill → ∀ stackOk, t.retFromSysCall false r stackOk = .error (sigmask sigkill)) ∧
    (signr < sigkill → ∀ stackOk d, t.retFromSysCall false r stackOk = .ok d →
      d.task.signal.getLsbD (sigkill - 1) = true)

/-- The step is no delivery to a handler whose mask contains `SIGKILL`. -/
def Spares (t : Task) : Event → Prop
  | .ret first r true => ∀ signr, t.pick first r = some signr →
      let sa := t.sigaction (signr - 1)
      sa.saHandler = 0 ∨ sa.saHandler = 1 ∨ sa.saMask.getLsbD (sigkill - 1) = false
  | _ => True

/-! ### One delivery -/

section Delivery

variable {t : Task} {signr : Nat} {r : Regs} {stackOk : Bool} {d : Delivery}

/-- A handler that is neither the default nor "ignore". -/
def Handled (t : Task) (signr : Nat) : Prop :=
  (t.sigaction (signr - 1)).saHandler ≠ 0 ∧ (t.sigaction (signr - 1)).saHandler ≠ 1

/-- All that a delivery does to the task. -/
theorem doSignal_ok (h : t.doSignal signr r stackOk = .ok d) :
    d.task.signal = t.signal ∧
    (∀ k, (d.task.sigaction k).saHandler = (t.sigaction k).saHandler ∨
      (d.task.sigaction k).saHandler = 0) ∧
    ((¬ t.Handled signr ∧ d.task.blocked = t.blocked) ∨
      (t.Handled signr ∧ stackOk = true ∧
        d.task.blocked = t.blocked ||| (t.sigaction (signr - 1)).saMask)) := by
  simp only [doSignal] at h
  split at h
  next hign =>
    cases h
    exact ⟨rfl, fun k => .inl rfl, .inl ⟨fun hh => hh.2 hign, rfl⟩⟩
  next hign =>
    split at h
    next hdfl =>
      split at h
      · cases h
        exact ⟨rfl, fun k => .inl rfl, .inl ⟨fun hh => hh.1 hdfl, rfl⟩⟩
      · cases h
    next hdfl =>
      split at h
      next hok =>
        cases h
        refine ⟨?_, fun k => ?_, .inr ⟨⟨hdfl, hign⟩, hok, rfl⟩⟩
        · -- only a one-shot action is written back
          split <;> rfl
        · split
          · by_cases hk : k = signr - 1
            · exact .inr (by simp [setAction, hk])
            · exact .inl (by simp [setAction, Function.update_of_ne hk])
          · exact .inl rfl
      next => cases h

/-- A handler whose frame fits on the stack is entered. -/
theorem doSignal_handled (h : t.Handled signr) : ∃ d, t.doSignal signr r true = .ok d := by
  simp only [doSignal, if_neg h.1, if_neg h.2, if_true]
  exact ⟨_, rfl⟩

theorem doSignal_default (hdfl : (t.sigaction (signr - 1)).saHandler = 0) (hc : signr ≠ sigchld) :
    t.doSignal signr r stackOk = .error (sigmask signr) := by
  simp [doSignal, hdfl, hc]

end Delivery

/-! ### The signal that is picked -/

section Pick

variable {t : Task} {first : Bool} {r : Regs} {signr : Nat}

/-- The picked signal is pending and not blocked, and no lower one is. -/
theorem pick_some (h : t.pick first r = some signr) :
    0 < signr ∧ t.signal.getLsbD (signr - 1) = true ∧ t.blocked.getLsbD (signr - 1) = false ∧
    ∀ i < signr - 1, (t.signal &&& ~~~t.blocked).getLsbD i = false := by
  simp only [pick] at h
  split at h
  next => cases h
  next hc =>
    have hn : t.signal &&& ~~~t.blocked ≠ 0 := by
      intro hz
      simp [hz] at hc
    obtain rfl : (t.signal &&& ~~~t.blocked).ctz.toNat + 1 = signr := by simpa using h
    have hbit := BitVec.getLsbD_true_ctz_of_ne_zero hn
    rw [BitVec.getLsbD_and, BitVec.getLsbD_not] at hbit
    simp only [Bool.and_eq_true, Bool.not_eq_true', decide_eq_true_eq] at hbit
    exact ⟨Nat.succ_pos _, hbit.1, hbit.2.2, fun i hi => BitVec.getLsbD_false_of_lt_ctz hi⟩

/-- In user mode a signal that is pending and not blocked makes the return pick one that is not
higher. -/
theorem pick_le {n : Nat} (hp : t.signal.getLsbD n = true) (hb : t.blocked.getLsbD n = false)
    (hr : userMode r) : ∃ signr ≤ n + 1, t.pick false r = some signr := by
  have hready : (t.signal &&& ~~~t.blocked).getLsbD n = true := by
    have hn : n < 32 := BitVec.lt_of_getLsbD hp
    rw [BitVec.getLsbD_and, BitVec.getLsbD_not, hp, hb]
    simp [hn]
  have hz : t.signal &&& ~~~t.blocked ≠ 0 := by
    intro hz
    simp [hz] at hready
  refine ⟨(t.signal &&& ~~~t.blocked).ctz.toNat + 1, ?_, by simpa [pick, hr] using hz⟩
  by_contra hlt
  rw [BitVec.getLsbD_false_of_lt_ctz (by omega)] at hready
  cases hready

/-- A return to user mode without a signal to deliver changes nothing; else it is one delivery. -/
theorem retFromSysCall_ok {stackOk : Bool} {d : Delivery}
    (h : t.retFromSysCall first r stackOk = .ok d) :
    (t.pick first r = none ∧ d.task = t) ∨
    ∃ signr, t.pick first r = some signr ∧
      d.task.signal = t.signal &&& ~~~(sigmask signr) ∧
      (∀ k, (d.task.sigaction k).saHandler = (t.sigaction k).saHandler ∨
        (d.task.sigaction k).saHandler = 0) ∧
      ((¬ t.Handled signr ∧ d.task.blocked = t.blocked) ∨
        (t.Handled signr ∧ stackOk = true ∧
          d.task.blocked = t.blocked ||| (t.sigaction (signr - 1)).saMask)) := by
  simp only [retFromSysCall] at h
  split at h
  next hp =>
    cases h
    exact .inl ⟨hp, rfl⟩
  next signr hp =>
    exact .inr ⟨signr, hp, doSignal_ok h⟩

end Pick

/-! ### One step -/

section Step

variable {t t' : Task} {e : Event}

theorem sysSignal_kept (t : Task) (signum : Int) (handler restorer : BitVec 32) :
    (t.sysSignal signum handler restorer).2.blocked = t.blocked ∧
    (t.sysSignal signum handler restorer).2.signal = t.signal ∧
    (t.sysSignal signum handler restorer).2.sigaction (sigkill - 1) = t.sigaction (sigkill - 1) := by
  by_cases hr : refused signum
  · simp [sysSignal, hr]
  · simp only [sysSignal, if_neg hr]
    refine ⟨rfl, rfl, Function.update_of_ne ?_ _ _⟩
    simp only [refused, sigkill] at hr ⊢
    omega

theorem sysSigaction_kept {signum : Int} {action : Option SigAction} {oldaction : Option Bool}
    {res : BitVec 32 × Option SigAction × Task}
    (h : t.sysSigaction signum action oldaction = .ok res) :
    res.2.2.blocked = t.blocked ∧ res.2.2.signal = t.signal ∧
    res.2.2.sigaction (sigkill - 1) = t.sigaction (sigkill - 1) := by
  by_cases hr : refused signum
  · simp only [sysSigaction, if_pos hr] at h
    cases h
    exact ⟨rfl, rfl, rfl⟩
  · have hne : sigkill - 1 ≠ signum.toNat - 1 := by
      simp only [refused, sigkill] at hr ⊢
      omega
    simp only [sysSigaction, if_neg hr] at h
    split at h <;> cases h <;> exact ⟨rfl, rfl, Function.update_of_ne hne _ _⟩

theorem sendSig_bit (t : Task) (sig i : Nat) :
    (t.sendSig sig).signal.getLsbD i =
      (t.signal.getLsbD i || decide (1 ≤ sig ∧ sig ≤ 32 ∧ i = sig - 1)) := by
  by_cases hs : sig < 1 ∨ 32 < sig
  · have hn : ¬ (1 ≤ sig ∧ sig ≤ 32 ∧ i = sig - 1) := by omega
    simp only [sendSig, if_pos hs, hn, decide_false, Bool.or_false]
  · simp only [sendSig, if_neg hs, BitVec.getLsbD_or, sigmask_bit]
    congr 1
    rw [← Bool.decide_and]
    exact decide_eq_decide.mpr (by omega)

theorem sendSig_kept (t : Task) (sig : Nat) :
    (t.sendSig sig).blocked = t.blocked ∧ (t.sendSig sig).sigaction = t.sigaction := by
  unfold sendSig
  split <;> exact ⟨rfl, rfl⟩

/-- No step handles `SIGKILL`. -/
theorem step_default (hdfl : (t.sigaction (sigkill - 1)).saHandler = 0) (h : t.step e = .ok t') :
    (t'.sigaction (sigkill - 1)).saHandler = 0 := by
  cases e with
  | ssetmask newmask =>
    cases h
    exact hdfl
  | signal signum handler restorer =>
    cases h
    rw [(sysSignal_kept ..).2.2]
    exact hdfl
  | sigaction signum action oldaction =>
    obtain ⟨res, hres, rfl⟩ := Lib.map_eq_ok.mp h
    rw [(sysSigaction_kept hres).2.2]
    exact hdfl
  | send sig =>
    cases h
    rw [(sendSig_kept t sig).2]
    exact hdfl
  | ret first r stackOk =>
    obtain ⟨d, hd, rfl⟩ := Lib.map_eq_ok.mp h
    rcases retFromSysCall_ok hd with ⟨-, heq⟩ | ⟨signr, -, -, hact, -⟩
    · rw [heq]
      exact hdfl
    · rcases hact (sigkill - 1) with hk | hk
      · rw [hk]
        exact hdfl
      · exact hk

/-- A step that spares `SIGKILL` leaves it unblocked. -/
theorem step_unblocked (hb : t.blocked.getLsbD (sigkill - 1) = false) (hsp : t.Spares e)
    (h : t.step e = .ok t') : t'.blocked.getLsbD (sigkill - 1) = false := by
  cases e with
  | ssetmask newmask =>
    cases h
    simp [sysSsetmask, sigkill]
  | signal signum handler restorer =>
    cases h
    rw [(sysSignal_kept ..).1]
    exact hb
  | sigaction signum action oldaction =>
    obtain ⟨res, hres, rfl⟩ := Lib.map_eq_ok.mp h
    rw [(sysSigaction_kept hres).1]
    exact hb
  | send sig =>
    cases h
    rw [(sendSig_kept t sig).1]
    exact hb
  | ret first r stackOk =>
    obtain ⟨d, hd, rfl⟩ := Lib.map_eq_ok.mp h
    rcases retFromSysCall_ok hd with ⟨-, heq⟩ | ⟨signr, hp, -, -, ⟨-, heq⟩ | ⟨hh, rfl, heq⟩⟩
    · rw [heq]
      exact hb
    · rw [heq]
      exact hb
    · -- the handler is entered, so its mask is merged
      have hm : (t.sigaction (signr - 1)).saMask.getLsbD (sigkill - 1) = false :=
        ((hsp signr hp).resolve_left hh.1).resolve_left hh.2
      rw [heq, BitVec.getLsbD_or, hb, hm]
      rfl

/-- A step that does not spare it blocks it. -/
theorem step_blocked (hsp : ¬ t.Spares e) :
    ∃ t', t.step e = .ok t' ∧ t'.blocked.getLsbD (sigkill - 1) = true := by
  cases e with
  | ret first r stackOk =>
    cases stackOk with
    | false => exact absurd trivial hsp
    | true =>
      simp only [Spares, not_forall, not_or, Bool.not_eq_false] at hsp
      obtain ⟨signr, hp, h0, h1, hm⟩ := hsp
      have hh : Handled { t with signal := t.signal &&& ~~~(sigmask signr) } signr := ⟨h0, h1⟩
      obtain ⟨d, hd⟩ := doSignal_handled (r := r) hh
      refine ⟨d.task, ?_, ?_⟩
      · simp only [step, retFromSysCall, hp, hd]
        rfl
      · rcases (doSignal_ok hd).2.2 with ⟨hn, -⟩ | ⟨-, -, heq⟩
        · exact absurd hh hn
        · rw [heq, BitVec.getLsbD_or, hm, Bool.or_true]
  | _ => exact absurd trivial hsp

/-- The states that matter are closed under steps that spare `SIGKILL`. -/
theorem Fresh.step (ht : t.Fresh) (hsp : t.Spares e) (h : t.step e = .ok t') : t'.Fresh :=
  ⟨step_unblocked ht.unblocked hsp h, step_default ht.default h⟩

theorem Fresh.killable (ht : t.Fresh) : t.Killable := by
  refine ⟨ht.unblocked, fun hp r hr => ?_⟩
  obtain ⟨signr, hle, hpick⟩ := pick_le hp ht.unblocked hr
  refine ⟨signr, hle, hpick, ?_, ?_⟩
  · rintro rfl stackOk
    simp only [retFromSysCall, hpick]
    exact doSignal_default ht.default (by decide)
  · intro hlt stackOk d hd
    rcases retFromSysCall_ok hd with ⟨hnone, -⟩ | ⟨n, hn, hsig, -⟩
    · rw [hnone] at hpick
      cases hpick
    · obtain rfl : n = signr := Option.some.inj (hn.symm.trans hpick)
      -- only the bit of the picked signal is reset
      have hne : ¬ sigkill - 1 = n - 1 := by
        have := (pick_some hn).1
        omega
      rw [hsig, BitVec.getLsbD_and, hp, BitVec.getLsbD_not, sigmask_bit, decide_eq_false hne]
      simp [sigkill]

end Step

/-! ## Whole runs -/

section Runs

variable {t t' : Task}

theorem Fresh.run (ht : t.Fresh) : ∀ {es : List Event} {t' : Task},
    (∀ pre e s, pre ++ [e] <+: es → pre.foldlM Task.step t = .ok s → s.Spares e) →
    es.foldlM Task.step t = .ok t' → t'.Fresh := by
  intro es
  induction es using List.reverseRecOn with
  | nil =>
    intro t' _ h
    cases h
    exact ht
  | append_singleton es e ih =>
    intro t' hsp h
    obtain ⟨s, hs, he⟩ := Lib.foldlM_snoc_ok.mp h
    have hfresh : s.Fresh :=
      ih (fun pre e' s' hpre => hsp pre e' s' (hpre.trans (List.prefix_append es [e]))) hs
    exact hfresh.step (hsp es e s (List.prefix_refl _) hs) he

/-- From a fresh task, `SIGKILL` stays deliverable in every state of a run exactly when no step of
the run delivers a signal to a handler whose mask contains it. -/
theorem sigkill_delivered (ht : t.Fresh) (es : List Event) :
    (∀ pre s, pre <+: es → pre.foldlM step t = .ok s → s.Killable) ↔
      ∀ pre e s, pre ++ [e] <+: es → pre.foldlM step t = .ok s → s.Spares e := by
  refine ⟨fun h pre e s hpre hs => ?_, fun h pre s hpre hs => ?_⟩
  · by_contra hsp
    obtain ⟨s', hs', hbit⟩ := step_blocked hsp
    rw [(h _ s' hpre (Lib.foldlM_snoc_ok.mpr ⟨s, hs, hs'⟩)).unblocked] at hbit
    cases hbit
  · exact (ht.run (fun p e s' hp => h p e s' (hp.trans hpre)) hs).killable

end Runs

/-! ### A mask that blocks everything -/

/-- Task fields as `INIT_TASK` has them. -/
def initTask : Task where
  signal := 0
  blocked := 0
  sigaction _ := ⟨0, 0, 0, 0⟩

/-- A return to a user program that runs at 0x1000 with its stack at 0x4000. -/
def userRegs : Regs where
  eax := 0
  ecx := 0
  edx := 0
  eip := 0x1000
  cs := 0x0f
  eflags := 0x202
  esp := 0x4000
  ss := 0x17

/-- `SIGINT` gets a handler with a full mask, and is delivered. -/
def maskAll : List Event :=
  [.sigaction 2 (some ⟨0x2000, 0xffffffff, 0, 0⟩) none, .send 2, .ret false userRegs true]

theorem initTask_fresh : initTask.Fresh :=
  ⟨rfl, rfl⟩

theorem sigkill_delivered_maskAll :
    (∀ pre s, pre <+: maskAll → pre.foldlM step initTask = .ok s → s.Killable) ↔
      ∀ pre e s, pre ++ [e] <+: maskAll → pre.foldlM step initTask = .ok s → s.Spares e :=
  sigkill_delivered initTask_fresh maskAll

/-- The state after the first two steps of `maskAll`. -/
def caught : Task :=
  (initTask.setAction 2 ⟨0x2000, 0xffffffff, 0, 0⟩).sendSig 2

/-- After it `SIGKILL` is blocked: when it is sent, the return to user mode delivers nothing. -/
theorem sigkill_blocked :
    ∃ s, maskAll.foldlM step initTask = .ok s ∧ s.blocked.getLsbD (sigkill - 1) = true ∧
      (s.sendSig sigkill).signal.getLsbD (sigkill - 1) = true ∧
      (s.sendSig sigkill).pick false userRegs = none := by
  have hpick : caught.pick false userRegs = some 2 := by decide +kernel
  have hhandled : Handled { caught with signal := caught.signal &&& ~~~(sigmask 2) } 2 :=
    ⟨by decide +kernel, by decide +kernel⟩
  obtain ⟨d, hd⟩ := doSignal_handled (r := userRegs) hhandled
  have hrun : [Event.sigaction 2 (some ⟨0x2000, 0xffffffff, 0, 0⟩) none, .send 2].foldlM step
      initTask = .ok caught := by
    simp only [List.foldlM_cons, List.foldlM_nil, step, sysSigaction]
    rw [if_neg (by decide)]
    rfl
  have hret : caught.step (.ret false userRegs true) = .ok d.task := by
    simp only [step, retFromSysCall, hpick, hd]
    rfl
  have hblocked : d.task.blocked = BitVec.allOnes 32 := by
    rcases (doSignal_ok hd).2.2 with ⟨hn, -⟩ | ⟨-, -, heq⟩
    · exact absurd hhandled hn
    · rw [heq]
      decide +kernel
  have hall := Lib.foldlM_snoc_ok.mpr ⟨caught, hrun, hret⟩
  refine ⟨d.task, hall, ?_, ?_, ?_⟩
  · rw [hblocked]
    simp [sigkill]
  · rw [sendSig_bit]
    simp [sigkill]
  · have hready : (d.task.sendSig sigkill).signal &&& ~~~(d.task.sendSig sigkill).blocked = 0 := by
      rw [(sendSig_kept ..).1, hblocked, BitVec.not_allOnes]
      exact BitVec.and_zero
    simp only [pick, hready]
    rfl

section Returns

variable {t t' : Task}

/-! ### How long a delivery can take

A return delivers one signal, the lowest. While no lower signal is sent, each return before the one
that delivers `SIGKILL` uses up a pending one. -/

/-- The pending signals below `SIGKILL`. -/
def ahead (t : Task) : Finset Nat :=
  (Finset.range (sigkill - 1)).filter fun i => t.signal.getLsbD i = true

/-- The step is a return of a task other than `task[0]` to user mode. -/
def Event.isReturn : Event → Bool
  | .ret first r _ => !first && decide (userMode r)
  | _ => false

/-- The step sends no signal below `SIGKILL`. -/
def Event.Quiet : Event → Prop
  | .send sig => sigkill ≤ sig
  | _ => True

/-- While `SIGKILL` is pending it stays so, nothing new comes ahead of it, and each return takes one
signal out of the way. -/
theorem Fresh.progress {e : Event} (ht : t.Fresh) (hp : t.signal.getLsbD (sigkill - 1) = true)
    (hq : e.Quiet) (h : t.step e = .ok t') :
    t'.signal.getLsbD (sigkill - 1) = true ∧
    t'.ahead.card + (if e.isReturn then 1 else 0) ≤ t.ahead.card := by
  cases e with
  | ssetmask newmask =>
    cases h
    exact ⟨hp, le_rfl⟩
  | signal signum handler restorer =>
    cases h
    have hsig := (sysSignal_kept t signum handler restorer).2.1
    exact ⟨hsig ▸ hp, by simp [ahead, hsig, Event.isReturn]⟩
  | sigaction signum action oldaction =>
    obtain ⟨res, hres, rfl⟩ := Lib.map_eq_ok.mp h
    have hsig := (sysSigaction_kept hres).2.1
    exact ⟨hsig ▸ hp, by simp [ahead, hsig, Event.isReturn]⟩
  | send sig =>
    cases h
    have hsub : (t.sendSig sig).ahead ⊆ t.ahead := by
      intro i hi
      simp only [ahead, Finset.mem_filter, Finset.mem_range, sendSig_bit, Bool.or_eq_true,
        decide_eq_true_eq] at hi ⊢
      refine ⟨hi.1, hi.2.resolve_right fun hnew => ?_⟩
      have hle : sigkill ≤ sig := hq
      omega
    exact ⟨by rw [sendSig_bit, hp, Bool.true_or], Finset.card_le_card hsub⟩
  | ret first r stackOk =>
    obtain ⟨d, hd, rfl⟩ := Lib.map_eq_ok.mp h
    rcases retFromSysCall_ok hd with ⟨hnone, heq⟩ | ⟨signr, hpick, hsig, -⟩
    · -- a return that picks nothing is none to user mode
      have hret : (Event.ret first r stackOk).isReturn = false := by
        by_contra hret
        simp only [Event.isReturn, Bool.not_eq_false, Bool.and_eq_true, Bool.not_eq_true',
          decide_eq_true_eq] at hret
        obtain ⟨signr, -, hsome⟩ := pick_le hp ht.unblocked hret.2
        rw [hret.1, hsome] at hnone
        cases hnone
      rw [heq, hret]
      exact ⟨hp, le_rfl⟩
    · -- `SIGKILL` would have ended the task, so the signal is a lower one, and it is not ahead any more
      obtain ⟨hpos, hset, -, hlow⟩ := pick_some hpick
      have hne : signr ≠ sigkill := by
        rintro rfl
        simp only [retFromSysCall, hpick] at hd
        cases hd.symm.trans (doSignal_default ht.default (by decide))
      have hlt : signr - 1 < sigkill - 1 := by
        rcases Nat.lt_trichotomy (signr - 1) (sigkill - 1) with hlt | heq | hgt
        · exact hlt
        · simp only [sigkill] at heq hne
          omega
        · have hbit := hlow _ hgt
          rw [BitVec.getLsbD_and, hp, BitVec.getLsbD_not, ht.unblocked] at hbit
          cases hbit
      have hbit : ∀ i, i < 32 → (d.task.signal.getLsbD i = true ↔
          t.signal.getLsbD i = true ∧ i ≠ signr - 1) := by
        intro i hi
        rw [hsig, BitVec.getLsbD_and, BitVec.getLsbD_not, sigmask_bit]
        simp [hi]
      refine ⟨(hbit _ (by decide)).mpr ⟨hp, by omega⟩, ?_⟩
      have hsub : d.task.ahead ⊆ t.ahead.erase (signr - 1) := by
        intro i hi
        simp only [ahead, Finset.mem_filter, Finset.mem_range] at hi
        have hi' := (hbit i (by simp only [sigkill] at hi; omega)).mp hi.2
        exact Finset.mem_erase.mpr ⟨hi'.2, Finset.mem_filter.mpr ⟨Finset.mem_range.mpr hi.1, hi'.1⟩⟩
      have hmem : signr - 1 ∈ t.ahead :=
        Finset.mem_filter.mpr ⟨Finset.mem_range.mpr hlt, hset⟩
      have hcard := Finset.card_le_card hsub
      rw [Finset.card_erase_of_mem hmem] at hcard
      have hone := Finset.card_pos.mpr ⟨_, hmem⟩
      split <;> omega

/-- A task that has `SIGKILL` pending, and gets no lower signal, survives at most eight returns to
user mode. -/
theorem sigkill_within (ht : t.Fresh) (hp : t.signal.getLsbD (sigkill - 1) = true) {es : List Event}
    (hsp : ∀ pre e s, pre ++ [e] <+: es → pre.foldlM step t = .ok s → s.Spares e)
    (hq : ∀ e ∈ es, e.Quiet) (h : es.foldlM step t = .ok t') :
    es.countP Event.isReturn ≤ 8 := by
  suffices hacc : t'.signal.getLsbD (sigkill - 1) = true ∧
      t'.ahead.card + es.countP Event.isReturn ≤ t.ahead.card by
    have hcard : t.ahead.card ≤ 8 := (Finset.card_filter_le _ _).trans (by simp [sigkill])
    omega
  induction es using List.reverseRecOn generalizing t' with
  | nil =>
    cases h
    exact ⟨hp, le_rfl⟩
  | append_singleton es e ih =>
    obtain ⟨s, hs, he⟩ := Lib.foldlM_snoc_ok.mp h
    have hsp' : ∀ pre e s, pre ++ [e] <+: es → pre.foldlM step t = .ok s → s.Spares e :=
      fun pre e' s' hpre => hsp pre e' s' (hpre.trans (List.prefix_append es [e]))
    obtain ⟨hps, hacc⟩ := ih hsp' (fun e' he' => hq e' (List.mem_append_left _ he')) hs
    obtain ⟨hps', hstep⟩ := (ht.run hsp' hs).progress hps
      (hq e (List.mem_append_right _ (List.mem_singleton_self e))) he
    refine ⟨hps', ?_⟩
    rw [List.countP_append, List.countP_singleton]
    omega

end Returns

end Task

end Linux011.Kernel
