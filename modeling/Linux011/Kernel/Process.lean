import Mathlib.Algebra.Group.Int.Defs
import Mathlib.Algebra.Group.Nat.Defs
import Linux011.Kernel.Signal
import Linux011.Kernel.WaitQueue

/-!
# Creating tasks, ending them and waiting for them

`find_empty_process` and `copy_process` of `kernel/fork.c`, and `kernel/exit.c`. `do_exit` sleeps where
it closes the files, and `sys_waitpid` leaves the processor in `schedule`, which it calls itself and
which `release` calls for it. Between these points a call is one step, and the phase of a task says
at which of them it is.

The model leaves memory and files out. Task 0 only runs `for(;;) pause();` and makes none of the
calls.
-/

namespace Linux011.Kernel

def nrTasks : Nat := 64

def sighup : Nat := 1

def eIntr : Int := 4
def eChild : Int := 10
def eAgain : Int := 11

def wnohang : BitVec 32 := 1
def wuntraced : BitVec 32 := 2

/-- Where a task is: outside the calls, in `do_exit` after its first loop, in the `schedule` of
`sys_waitpid`, or in the `schedule` of `release`, with the local variables `flag` and `code`. -/
inductive ProcPhase where
  | user
  | exiting (code : Int)
  | waiting (pid : Int) (options : BitVec 32)
  | reaped (flag code : Int)

/-- The fields of `task_struct` for the family of a task. -/
structure Proc where
  state : TaskState
  signal : BitVec 32
  exitCode : Int
  pid : Int
  father : Int
  pgrp : Int
  session : Int
  leader : Bool
  utime : BitVec 32
  stime : BitVec 32
  cutime : BitVec 32
  cstime : BitVec 32
  phase : ProcPhase

structure Procs where
  task : Nat → Option Proc
  lastPid : Int

/-- What a step does, as far as the family of tasks can see. -/
inductive Outcome where
  | silent
  | forked (ret : Int) (nr : Option Nat)
  | released (i : Nat) (z : Proc)
  | returned (ret : Int) (status : Option Int)
  | noFather

namespace Procs

def modify (s : Procs) (i : Nat) (f : Proc → Proc) : Procs :=
  { s with task := Function.update s.task i ((s.task i).map f) }

/-- `(*p)->signal |= (1<<(sig-1))`, if there is such a task. -/
def sendSig (s : Procs) (i sig : Nat) : Procs :=
  s.modify i fun T => { T with signal := T.signal ||| 1#32 <<< (sig - 1) }

/-! ## `fork` -/

/-- `if ((++last_pid)<0) last_pid=1;` -/
def nextPid (last : Int) : Int :=
  if last + 1 < 2 ^ 31 then last + 1 else 1

def inUse (s : Procs) (pid : Int) : Bool :=
  (List.range nrTasks).any fun i => (s.task i).any fun T => T.pid == pid

/-- The loop at `repeat`, at most `n` times. -/
def freshPid (s : Procs) : Nat → Int → Option Int
  | 0, _ => none
  | n + 1, last =>
    let pid := nextPid last
    if s.inUse pid then s.freshPid n pid else some pid

def findEmptyProcess (s : Procs) : Option (Option Nat × Procs) :=
  (s.freshPid (nrTasks + 1) s.lastPid).map fun pid =>
    ((List.range nrTasks).find? fun i => 1 ≤ i && (s.task i).isNone, { s with lastPid := pid })

/-- The copy of `T`, at the end of `copy_process`. -/
def child (T : Proc) (pid : Int) : Proc :=
  { T with
    state := .running
    pid
    father := T.pid
    signal := 0
    leader := false
    utime := 0
    stime := 0
    cutime := 0
    cstime := 0
    phase := .user }

/-- `copy_process` of the task `T`, with or without memory for the copy. -/
def copyProcess (s : Procs) (nr : Nat) (T : Proc) (memory : Bool) : Outcome × Procs :=
  if memory then
    (.forked s.lastPid (some nr),
      { s with task := Function.update s.task nr (some (child T s.lastPid)) })
  else (.forked (-eAgain) none, s)

def sysFork (s : Procs) (T : Proc) (memory : Bool) : Option (Outcome × Procs) :=
  s.findEmptyProcess.map fun (nr, s) =>
    match nr with
    | none => (.forked (-eAgain) none, s)
    | some nr => s.copyProcess nr T memory

/-! ## `do_exit` -/

def release (s : Procs) (i : Nat) : Except String Procs :=
  if i = 0 || (s.task i).isNone then .error "trying to release non-existent task"
  else .ok { s with task := Function.update s.task i none }

/-- One turn of the first loop of `do_exit`. -/
def reparent (pid : Int) (s : Procs) (i : Nat) : Procs :=
  match s.task i with
  | none => s
  | some T =>
    if T.father = pid then
      let s := s.modify i fun T => { T with father := 1 }
      if T.state = .zombie then s.sendSig 1 sigchld else s
    else s

/-- `do_exit` of the task `T`, up to where it closes its files. -/
def exitStart (s : Procs) (t : Nat) (T : Proc) (code : Int) : Procs :=
  ((List.range nrTasks).foldl (reparent T.pid) s).modify t fun T => { T with phase := .exiting code }

def killSession (s : Procs) (session : Int) : Procs :=
  (List.range nrTasks).foldl (fun s i =>
    if 0 < i && (s.task i).any fun T => T.session == session then s.sendSig i sighup else s) s

/-- `tell_father`; a task without a father releases itself. -/
def tellFather (s : Procs) (t : Nat) (pid : Int) : Except String (Outcome × Procs) :=
  match if pid ≠ 0 then
      (List.range nrTasks).find? fun i => (s.task i).any fun T => T.pid == pid
    else none with
  | some i => .ok (.silent, s.sendSig i sigchld)
  | none => (s.release t).map fun s => (.noFather, s)

/-- The rest of `do_exit`. -/
def exitEnd (s : Procs) (t : Nat) (T : Proc) (code : Int) : Except String (Outcome × Procs) :=
  let s := if T.leader then s.killSession T.session else s
  let s := s.modify t fun T => { T with state := .zombie, exitCode := code }
  s.tellFather t T.father

/-! ## `sys_waitpid` -/

/-- The task `T` waits for `z`. -/
def wants (T z : Proc) (pid : Int) : Bool :=
  if 0 < pid then z.pid == pid
  else if pid = 0 then z.pgrp == T.pgrp
  else if pid ≠ -1 then z.pgrp == -pid
  else true

/-- How the loop over the tasks ends. -/
inductive Found where
  | stopped (pid : Int)
  | zombie (i : Nat) (z : Proc)
  | none (flag : Bool)

/-- The loop over the tasks below `i + 1`, downwards. -/
def scan (s : Procs) (t : Nat) (T : Proc) (pid : Int) (options : BitVec 32) : Nat → Bool → Found
  | 0, flag => .none flag
  | i + 1, flag =>
    match s.task (i + 1) with
    | none => s.scan t T pid options i flag
    | some z =>
      if i + 1 = t then s.scan t T pid options i flag
      else if z.father ≠ T.pid then s.scan t T pid options i flag
      else if !wants T z pid then s.scan t T pid options i flag
      else
        match z.state with
        | .stopped =>
          if options &&& wuntraced = 0 then s.scan t T pid options i flag else .stopped z.pid
        | .zombie => .zombie (i + 1) z
        | _ => s.scan t T pid options i true

/-- From the label `repeat` on, up to a call of `schedule` or to the return. -/
def waitScan (s : Procs) (t : Nat) (T : Proc) (pid : Int) (options : BitVec 32) :
    Except String (Outcome × Procs) :=
  match s.scan t T pid options (nrTasks - 1) false with
  | .stopped ret => .ok (.returned ret (some 0x7f), s.modify t fun T => { T with phase := .user })
  | .zombie i z =>
    let s := s.modify t fun T => { T with
      cutime := T.cutime + z.utime
      cstime := T.cstime + z.stime
      phase := .reaped z.pid z.exitCode }
    (s.release i).map fun s => (.released i z, s)
  | .none true =>
    if options &&& wnohang ≠ 0 then
      .ok (.returned 0 none, s.modify t fun T => { T with phase := .user })
    else
      .ok (.silent, s.modify t fun T => { T with
        state := .interruptible
        phase := .waiting pid options })
  | .none false => .ok (.returned (-eChild) none, s.modify t fun T => { T with phase := .user })

/-- `sys_waitpid`, when its own call of `schedule` returns. -/
def waitWoken (s : Procs) (t : Nat) (T : Proc) (pid : Int) (options : BitVec 32) :
    Except String (Outcome × Procs) :=
  let signal := T.signal &&& ~~~(1#32 <<< (sigchld - 1))
  let s := s.modify t fun T => { T with signal }
  if signal = 0 then s.waitScan t T pid options
  else .ok (.returned (-eIntr) none, s.modify t fun T => { T with phase := .user })

/-- `sys_waitpid`, when `release` returns to it. -/
def waitStored (s : Procs) (t : Nat) (flag code : Int) : Outcome × Procs :=
  (.returned flag (some code), s.modify t fun T => { T with phase := .user })

end Procs

/-! ## Runs -/

/-- Who moves. `other` is what the rest of the kernel does to a task: its time, signals, process group,
and sleeping and waking up. -/
inductive ProcEvent where
  | fork (t : Nat) (memory : Bool)
  | exit (t : Nat) (code : Int)
  | exitEnd (t : Nat)
  | waitpid (t : Nat) (pid : Int) (options : BitVec 32)
  | woken (t : Nat)
  | stored (t : Nat)
  | other (t : Nat)

namespace Procs

/-- A task makes its calls while it is running. A fault where `sys_waitpid` stores the status makes it
exit. -/
inductive Step : Procs → ProcEvent → Except String (Outcome × Procs) → Prop
  | fork {s : Procs} {t : Nat} {T : Proc} {memory : Bool} {r : Outcome × Procs} (ht : t ≠ 0)
      (hT : s.task t = some T) (hrun : T.state = .running) (hp : T.phase = .user)
      (hr : s.sysFork T memory = some r) : Step s (.fork t memory) (.ok r)
  | exit {s : Procs} {t : Nat} {T : Proc} {code : Int} (ht : t ≠ 0) (hT : s.task t = some T)
      (hrun : T.state = .running) (hp : T.phase = .user ∨ ∃ flag c, T.phase = .reaped flag c) :
      Step s (.exit t code) (.ok (.silent, s.exitStart t T code))
  | exitEnd {s : Procs} {t : Nat} {T : Proc} {code : Int} (hT : s.task t = some T)
      (hrun : T.state = .running) (hp : T.phase = .exiting code) :
      Step s (.exitEnd t) (s.exitEnd t T code)
  | waitpid {s : Procs} {t : Nat} {T : Proc} {pid : Int} {options : BitVec 32} (ht : t ≠ 0)
      (hT : s.task t = some T) (hrun : T.state = .running) (hp : T.phase = .user) :
      Step s (.waitpid t pid options) (s.waitScan t T pid options)
  | woken {s : Procs} {t : Nat} {T : Proc} {pid : Int} {options : BitVec 32} (hT : s.task t = some T)
      (hrun : T.state = .running) (hp : T.phase = .waiting pid options) :
      Step s (.woken t) (s.waitWoken t T pid options)
  | stored {s : Procs} {t : Nat} {T : Proc} {flag code : Int} (hT : s.task t = some T)
      (hrun : T.state = .running) (hp : T.phase = .reaped flag code) :
      Step s (.stored t) (.ok (s.waitStored t flag code))
  | other {s : Procs} {t : Nat} {T T' : Proc} (hT : s.task t = some T)
      (hzombie : T'.state = .zombie ↔ T.state = .zombie)
      (hsame : T'.pid = T.pid ∧ T'.father = T.father ∧ T'.exitCode = T.exitCode ∧
        T'.cutime = T.cutime ∧ T'.cstime = T.cstime ∧ T'.phase = T.phase) :
      Step s (.other t) (.ok (.silent, s.modify t fun _ => T'))

end Procs

end Linux011.Kernel
