import Mathlib.Data.List.Basic
import Mathlib.Logic.Function.Basic
import Linux011.Lib.Run

/-!
# Descriptors and the file table

`sys_open` and `sys_close` of `fs/open.c`, `fs/fcntl.c`, `sys_pipe` of `fs/pipe.c`, and what
`copy_process` and `do_exit` do to descriptors. Inodes are an arbitrary type. Of the rest of the
kernel the model keeps the references it has to inodes, in `others`.

A task sleeps in `open_namei`, `iput`, `check_disk_change` and `get_pipe_inode`, so a call is several
steps, and its phase says how far it has come. `open_namei` reads the path from user memory: a fault
there ends in `do_exit`, in the middle of `sys_open`.
-/

namespace Linux011.Fs

def nrOpen : Nat := 20
def nrFile : Nat := 64
def nrTasks : Nat := 64

def ePerm : Int := 1
def eBadf : Int := 9
def eAgain : Int := 11
def eInval : Int := 22
def eMfile : Int := 24

/-- `ERROR` -/
def eError : Int := 99

/-- `O_APPEND | O_NONBLOCK`. -/
def oAppendNonblock : BitVec 16 := 0o2000 ||| 0o4000

def isChrMode (m : Nat) : Bool := m &&& 0o170000 == 0o020000

/-- `struct file`. -/
structure File (I : Type _) where
  fMode : Nat
  fFlags : BitVec 16
  fCount : Nat
  fInode : Option I
  fPos : Int

/-- What is left to do after the `iput` of a `sys_close`. -/
inductive Cont where
  | ret
  | dup (fd arg : Nat)
  | exit (fd : Nat)
  deriving DecidableEq

/-- Where a task is. `opening` and `piping` are inside `open_namei` and `get_pipe_inode`, `holding`
has the inode that `open_namei` returned, `dropping` is in the `iput` of a `sys_close`, and `exiting`
is in the loop of `do_exit`. -/
inductive Phase (I : Type _) where
  | user
  | opening (fd f : Nat) (flag : BitVec 32)
  | holding (fd f : Nat) (flag : BitVec 32) (i : I)
  | dropping (i : Option I) (k : Cont)
  | piping (fd0 fd1 f0 f1 : Nat)
  | exiting (fd : Nat)
  | zombie

/-- The fields of `task_struct` for files. -/
structure Files (I : Type _) where
  filp : Nat → Option Nat
  closeOnExec : BitVec 32
  leader : Bool
  tty : Int
  phase : Phase I

structure FileSys (I : Type _) where
  task : Nat → Option (Files I)
  file : Nat → File I
  iCount : I → Nat
  iPipe : I → Bool
  iMode : I → Nat
  iZone0 : I → Nat
  others : I → Nat

namespace Files

variable {I : Type _}

def setFilp (F : Files I) (fd : Nat) (v : Option Nat) : Files I :=
  { F with filp := Function.update F.filp fd v }

/-- `current->close_on_exec &= ~(1<<fd)`. -/
def clearExec (F : Files I) (fd : Nat) : Files I :=
  { F with closeOnExec := F.closeOnExec &&& ~~~(1#32 <<< fd) }

/-- The descriptors from `start` on that are not used. -/
def free (F : Files I) (start : Nat) : List Nat :=
  (List.range nrOpen).filter fun fd => start ≤ fd && (F.filp fd).isNone

end Files

namespace FileSys

variable {I : Type _} [DecidableEq I]

/-! ## Updates -/

def setTask (s : FileSys I) (t : Nat) (F : Files I) : FileSys I :=
  { s with task := Function.update s.task t (some F) }

def setFile (s : FileSys I) (f : Nat) (g : File I → File I) : FileSys I :=
  { s with file := Function.update s.file f (g (s.file f)) }

def setCount (s : FileSys I) (f n : Nat) : FileSys I :=
  s.setFile f fun g => { g with fCount := n }

/-- `f->f_count++`. -/
def useFile (s : FileSys I) (f : Nat) : FileSys I :=
  s.setCount f ((s.file f).fCount + 1)

/-- The entries of the file table that are not used. -/
def freeFiles (s : FileSys I) : List Nat :=
  (List.range nrFile).filter fun f => (s.file f).fCount == 0

/-- `iput`, where it changes the count. The page of a pipe goes with the last reference. -/
def iput (s : FileSys I) : Option I → Except String (FileSys I)
  | none => .ok s
  | some i =>
    if s.iCount i = 0 then .error "iput: trying to free free inode"
    else
      .ok { s with
        iCount := Function.update s.iCount i (s.iCount i - 1)
        iPipe := if s.iCount i = 1 then Function.update s.iPipe i false else s.iPipe }

/-- The result of a step: the value that the call returns, if it does, and the new state. -/
abbrev Result (I : Type _) := Except String (Option Int × FileSys I)

/-! ## `sys_open` -/

/-- `sys_open`, up to the call of `open_namei`. -/
def sysOpen (s : FileSys I) (t : Nat) (F : Files I) (flag : BitVec 32) : Result I :=
  match F.free 0 with
  | [] => .ok (some (-eInval), s)
  | fd :: _ =>
    let F := F.clearExec fd
    match s.freeFiles with
    | [] => .ok (some (-eInval), s.setTask t F)
    | f :: _ =>
      .ok (none, (s.useFile f).setTask t { F.setFilp fd (some f) with phase := .opening fd f flag })

/-- `current->filp[fd]=NULL; f->f_count=0;` -/
def giveUp (s : FileSys I) (t : Nat) (F : Files I) (fd f : Nat) : FileSys I :=
  (s.setCount f 0).setTask t { F.setFilp fd none with phase := .user }

/-- `open_namei` returns an error or an inode that the call now holds. -/
def opened (s : FileSys I) (t : Nat) (F : Files I) (fd f : Nat) (flag : BitVec 32) :
    Except Int I → Result I
  | .error e => .ok (some e, s.giveUp t F fd f)
  | .ok i =>
    .ok (none, { s with iCount := Function.update s.iCount i (s.iCount i + 1) }.setTask t
      { F with phase := .holding fd f flag i })

/-- The terminal of a task that opens a terminal of its own. -/
def openTty (s : FileSys I) (F : Files I) (i : I) : Int :=
  if isChrMode (s.iMode i) && s.iZone0 i / 256 == 4 && F.leader && F.tty < 0 then
    (s.iZone0 i % 256 : Nat)
  else F.tty

/-- The rest of `sys_open`. -/
def finishOpen (s : FileSys I) (t : Nat) (F : Files I) (fd f : Nat) (flag : BitVec 32) (i : I) :
    Result I :=
  if isChrMode (s.iMode i) && s.iZone0 i / 256 == 5 && F.tty < 0 then
    (s.iput (some i)).map fun s => (some (-ePerm), s.giveUp t F fd f)
  else
    .ok (some fd, (s.setFile f fun _ => ⟨s.iMode i, flag.setWidth 16, 1, some i, 0⟩).setTask t
      { F with tty := s.openTty F i, phase := .user })

/-! ## `sys_close` and duplicates -/

def dupfd (s : FileSys I) (t : Nat) (F : Files I) (fd arg : Nat) : Int × FileSys I :=
  match if fd < nrOpen then F.filp fd else none with
  | none => (-eBadf, s.setTask t { F with phase := .user })
  | some f =>
    if nrOpen ≤ arg then (-eInval, s.setTask t { F with phase := .user })
    else
      match F.free arg with
      | [] => (-eMfile, s.setTask t { F with phase := .user })
      | arg :: _ =>
        (arg, (s.useFile f).setTask t { (F.clearExec arg).setFilp arg (some f) with phase := .user })

/-- What follows a `sys_close` that has returned `ret`. -/
def resume (s : FileSys I) (t : Nat) (F : Files I) (ret : Int) : Cont → Option Int × FileSys I
  | .ret => (some ret, s.setTask t { F with phase := .user })
  | .dup fd arg => let (r, s) := s.dupfd t F fd arg; (some r, s)
  | .exit fd => (none, s.setTask t { F with phase := .exiting fd })

/-- `sys_close`, up to the call of `iput`. -/
def sysClose (s : FileSys I) (t : Nat) (F : Files I) (fd : Nat) (k : Cont) : Result I :=
  if nrOpen ≤ fd then .ok (s.resume t F (-eInval) k)
  else
    let F := F.clearExec fd
    match F.filp fd with
    | none => .ok (s.resume t F (-eInval) k)
    | some f =>
      let F := F.setFilp fd none
      if (s.file f).fCount = 0 then .error "Close: file count is 0"
      else
        let n := (s.file f).fCount - 1
        if n ≠ 0 then .ok ((s.setCount f n).resume t F 0 k)
        else .ok (none, (s.setCount f 0).setTask t { F with phase := .dropping (s.file f).fInode k })

/-- The `iput` of `sys_close`. -/
def dropped (s : FileSys I) (t : Nat) (F : Files I) (i : Option I) (k : Cont) : Result I :=
  (s.iput i).map fun s => s.resume t F 0 k

def sysFcntl (s : FileSys I) (t : Nat) (F : Files I) (fd cmd : Nat) (arg : BitVec 32) : Int × FileSys I :=
  match if fd < nrOpen then F.filp fd else none with
  | none => (-eBadf, s)
  | some f =>
    match cmd with
    | 0 => s.dupfd t F fd arg.toNat
    | 1 => ((F.closeOnExec >>> fd &&& 1).toNat, s)
    | 2 =>
      (0, s.setTask t (if arg &&& 1 ≠ 0 then { F with closeOnExec := F.closeOnExec ||| 1#32 <<< fd }
        else F.clearExec fd))
    | 3 => ((s.file f).fFlags.toNat, s)
    | 4 =>
      (0, s.setFile f fun g => { g with
        fFlags := (g.fFlags &&& ~~~oAppendNonblock) ||| (arg.setWidth 16 &&& oAppendNonblock) })
    | _ => (-1, s)

/-! ## `sys_pipe` -/

/-- `sys_pipe`, up to the call of `get_pipe_inode`. -/
def sysPipe (s : FileSys I) (t : Nat) (F : Files I) : Option Int × FileSys I :=
  match s.freeFiles, F.free 0 with
  | f0 :: f1 :: _, fd0 :: fd1 :: _ =>
    (none, ((s.useFile f0).useFile f1).setTask t
      { (F.setFilp fd0 (some f0)).setFilp fd1 (some f1) with phase := .piping fd0 fd1 f0 f1 })
  | _, _ => (some (-1), s)

/-- The rest of `sys_pipe`. -/
def pipeGot (s : FileSys I) (t : Nat) (F : Files I) (fd0 fd1 f0 f1 : Nat) : Option I → Int × FileSys I
  | none =>
    (-1, ((s.setCount f0 0).setCount f1 0).setTask t
      { (F.setFilp fd0 none).setFilp fd1 none with phase := .user })
  | some i =>
    let s := { s with
      iCount := Function.update s.iCount i 2
      iPipe := Function.update s.iPipe i true }
    let s := s.setFile f0 fun g => { g with fInode := some i, fPos := 0, fMode := 1 }
    let s := s.setFile f1 fun g => { g with fInode := some i, fPos := 0, fMode := 2 }
    (0, s.setTask t { F with phase := .user })

/-! ## Tasks -/

/-- The loop of `copy_process` over the descriptors below `n`. -/
def shareFiles (F : Files I) (n : Nat) (s : FileSys I) : FileSys I :=
  (List.range n).foldl (fun s fd =>
    match F.filp fd with
    | none => s
    | some f => s.useFile f) s

/-- `copy_process` into the free slot `nr`; without memory the task table is left as it was. -/
def copyProcess (s : FileSys I) (nr : Nat) (lastPid : Int) (F : Files I) (memory : Bool) :
    Int × FileSys I :=
  if memory then (lastPid, (shareFiles F nrOpen s).setTask nr { F with leader := false, phase := .user })
  else (-eAgain, s)

/-- One turn of the loop of `do_exit`. -/
def exitStep (s : FileSys I) (t : Nat) (F : Files I) (fd : Nat) : Result I :=
  if nrOpen ≤ fd then .ok (none, s.setTask t { F with phase := .zombie })
  else
    match F.filp fd with
    | none => .ok (none, s.setTask t { F with phase := .exiting (fd + 1) })
    | some _ => s.sysClose t F fd (.exit (fd + 1))

end FileSys

end Linux011.Fs
