import Linux011.Exec.Script
import Linux011.Path.NameiRefs

/-!
# do_execve

The whole call: the file is looked up and its first block read, the interpreter of a script takes its place, and
the arguments are copied. Up to here everything can still be undone. What comes after "the point of no return"
does not fail. The strings of the user are arguments of the model, and the call runs alone.
-/

namespace Linux011.Exec

open Linux011.Lib Linux011.Mm

/-- What else `do_execve` changes of the task, and of its registers on the kernel stack: `eip[0]` and `eip[3]`. -/
structure Process where
  sigaction : Nat → Nat
  endCode : BitVec 32
  brk : BitVec 32
  startStack : Nat
  usedMath : Bool
  eip : BitVec 32
  esp : Nat

/-- The file system and the calling task, the memory with the local variables `page` and `p`, and the rest of
the task. -/
structure Caller where
  path : Path.Machine
  args : Args
  proc : Process
  lastTaskUsedMath : Option Nat

/-- Why a call does not return. -/
inductive Halt where
  | path (e : Path.Stop)
  | mm (e : Mm.Stop)
  | copy (e : CopyStop)
  | panic (text : String)

abbrev Call := EStateM Halt Caller

/-! ## Parts of the state -/

def onPath {α : Type} (x : Path.Call α) : Call α := fun s =>
  match x s.path with
  | .ok a m => .ok a { s with path := m }
  | .error e m => .error (.path e) { s with path := m }

def onMem {α : Type} (x : Mem → Except Mm.Stop (α × Mem)) : Call α := fun s =>
  match x s.args.mem with
  | .ok (a, mem) => .ok a { s with args := { s.args with mem } }
  | .error e => .error (.mm e) s

def onArgs (x : Args → Except CopyStop Args) : Call Unit := fun s =>
  match x s.args with
  | .ok args => .ok () { s with args }
  | .error e => .error (.copy e) s

/-- `set_fs` -/
def setFs (fs : Seg) : Call Unit := modify fun s => { s with args := { s.args with fs } }

def setProc (g : Process → Process) : Call Unit := modify fun s => { s with proc := g s.proc }

/-- The calls of `copy_strings` one after the other. -/
def copyAll (calls : List Copy) : Call Unit := onArgs fun a => calls.foldlM Args.copyStrings a

/-! ## Giving up -/

/-- `free_page(page[i])` -/
def freeArgPage (page : Nat → Option Nat) (mem : Mem) (i : Nat) : Except Mm.Stop Mem :=
  match page i with
  | some f => freePage f mem
  | none => .ok mem

def freeArgPages (page : Nat → Option Nat) (mem : Mem) : Except Mm.Stop Mem :=
  (List.range 32).foldlM (freeArgPage page) mem

/-- From the label `exec_error1` on. -/
def execError1 {α : Type} (retval : Int) : Call (Except Int α) := do
  let s ← get
  onMem fun mem => (freeArgPages s.args.page mem).map fun mem => ((), mem)
  return .error retval

/-- From the label `exec_error2` on. -/
def execError2 {α : Type} (inode : Nat) (retval : Int) : Call (Except Int α) := do
  onPath (Path.iput inode)
  execError1 retval

/-! ## The file -/

/-- The checks of the inode: `e_uid` and `e_gid`, or the error. -/
def checkInode (s : Path.State) (inode : Nat) : Except Int (Nat × Nat) :=
  let n := s.inode inode
  if !Fs.isReg n.iMode then .error (-Path.eAcces)
  else
    let eUid := if n.iMode &&& 0o4000 ≠ 0 then n.iUid else s.current.euid
    let eGid := if n.iMode &&& 0o2000 ≠ 0 then n.iGid else s.current.egid
    let i :=
      if s.current.euid = n.iUid then n.iMode / 2 ^ 6
      else if s.current.egid = n.iGid then n.iMode / 2 ^ 3
      else n.iMode
    if i &&& 1 = 0 ∧ ¬ (n.iMode &&& 0o111 ≠ 0 ∧ s.suser) then .error (-eNoexec)
    else .ok (eUid, eGid)

/-- The buffer of the first block, and the ids that the program will have. -/
structure Opened where
  dev : Nat
  block : Nat
  eUid : Nat
  eGid : Nat

/-- `restart_interp`, up to the first block. -/
def openFile (inode : Nat) : Call (Except Int Opened) := do
  let s ← onPath (Path.look id)
  match checkInode s inode with
  | .error retval => execError2 inode retval
  | .ok (eUid, eGid) => do
    let n := s.inode inode
    if ← onPath (Path.bread n.iDev (n.iZone 0)) then return .ok ⟨n.iDev, n.iZone 0, eUid, eGid⟩
    else execError2 inode (-Path.eAcces)

/-- What `do_execve` goes past the point of no return with. -/
structure Ready where
  inode : Nat
  ex : Header
  eUid : Nat
  eGid : Nat
  argc : Int

def isScript (data : Nat → UInt8) : Bool := data 0 == 35 && data 1 == 33

section

variable (fuel : Nat) (buf : Nat → UInt8) (filename : CStr) (argv envp : List CStr)

/-- The `#!` interpretation. `restart` is `restart_interp` with the inode of the interpreter and the new
`argc`. -/
def runScript (restart : Nat → Int → Call (Except Int Ready)) (inode : Nat) (o : Opened) (data : Nat → UInt8)
    (argc : Int) : Call (Except Int Ready) := do
  onPath (Path.brelse o.dev o.block)
  onPath (Path.iput inode)
  match parseLine buf data with
  | none => execError1 (-eNoexec)
  | some line => do
    let (argc, calls) := spliceCalls argc envp.length argv envp filename line
    copyAll calls
    let s ← get
    if s.args.p = 0 then execError1 (-eNomem)
    else do
      let oldFs := s.args.fs
      setFs .kernel
      match ← onPath (Path.namei fuel (cstr line.buf line.interp).bytes) with
      | none => do
        setFs oldFs
        execError1 (-Path.eNoent)
      | some inode => do
        setFs oldFs
        restart inode argc

/-- The checks of the header, and the arguments if it was no script. -/
def runBinary (shBang : Bool) (inode : Nat) (o : Opened) (data : Nat → UInt8) (argc : Int) :
    Call (Except Int Ready) := do
  onPath (Path.brelse o.dev o.block)
  let n ← onPath (Path.inode inode)
  let ex := Header.read fun k => (data k).toBitVec
  if badHeader ex (BitVec.ofNat 32 n.iSize) then execError2 inode (-eNoexec)
  else if nTxtoff ex ≠ blockSize then execError2 inode (-eNoexec)
  else if shBang then return .ok ⟨inode, ex, o.eUid, o.eGid, argc⟩
  else do
    copyAll [⟨envp.length, envp, 0⟩, ⟨argc, argv, 0⟩]
    let s ← get
    if s.args.p = 0 then execError2 inode (-eNomem)
    else return .ok ⟨inode, ex, o.eUid, o.eGid, argc⟩

/-- `restart_interp`, with what to do for a script: nothing if one has been met already (`sh_bang`). -/
def attempt (restart : Option (Nat → Int → Call (Except Int Ready))) (inode : Nat) (argc : Int) :
    Call (Except Int Ready) := do
  match ← openFile inode with
  | .error retval => return .error retval
  | .ok o => do
    let data ← onPath (Path.bData o.dev o.block)
    match restart with
    | some restart =>
      if isScript data then runScript fuel buf filename argv envp restart inode o data argc
      else runBinary argv envp false inode o data argc
    | none => runBinary argv envp true inode o data argc

/-- `do_execve` up to the point of no return. -/
def prepare : Call (Except Int Ready) := do
  modify fun s => { s with args := Args.start s.args.mem s.args.fs }
  match ← onPath (Path.namei fuel filename.bytes) with
  | none => return .error (-Path.eNoent)
  | some inode =>
    attempt fuel buf filename argv envp (some (attempt fuel buf filename argv envp none)) inode argv.length

/-! ## Past the point of no return -/

variable (file : ExeFile) (cur : Nat) (current : Mm.Task)

/-- `sys_close`; the result is not looked at. -/
def sysClose (fd : Nat) : Path.Call Unit := do
  Path.setCurrent fun T => { T with closeOnExec := T.closeOnExec &&& ~~~(1#32 <<< fd) }
  match (← Path.look fun s => s.current).filp fd with
  | none => return
  | some f => do
    Path.setCurrent fun T => { T with filp := Function.update T.filp fd none }
    let filp ← Path.look fun s => s.file f
    if filp.fCount = 0 then Path.kpanic "Close: file count is 0"
    else do
      Path.setFile f fun filp => { filp with fCount := filp.fCount - 1 }
      match filp.fCount, filp.fInode with
      | 1, some inode => Path.iput inode
      | _, _ => return

def closeOnExec (i : Nat) : Path.Call Unit := do
  if (← Path.look fun s => s.current).closeOnExec.getLsbD i then sysClose i else return

/-- The bytes up to the end of the last page of the data are cleared. -/
def clearTail (t : Mm.Task) (i : BitVec 32) (mem : Mem) : Except Mm.Stop Mem :=
  putBytes file cur t i.toNat (List.replicate ((4096 - i.toNat % 4096) % 4096) 0) mem

def commit (r : Ready) : Call Unit := do
  if let some inode := current.executable then onPath (Path.iput inode)
  setProc fun proc => { proc with sigaction := fun i => if i < 32 then 0 else proc.sigaction i }
  onPath ((List.range Fs.nrOpen).forM closeOnExec)
  onPath (Path.setCurrent fun T => { T with closeOnExec := 0 })
  modify fun s => { s with
    lastTaskUsedMath := if s.lastTaskUsedMath = some cur then none else s.lastTaskUsedMath
    proc := { s.proc with usedMath := false }
    args := { s.args with fs := .user } }
  let s ← get
  let t := { current with executable := some r.inode }
  let codeLimit := (changeLdt r.ex.aText).1.bytes
  let esp ← onMem fun mem =>
    newStack file cur t codeLimit r.argc.toNat envp.length s.args.p
      { s.args with mem := { mem with iCount := fun i => (s.path.state.inode i).iCount } }
  let endData := r.ex.aData + r.ex.aText
  let t := { newTask current (some r.inode) codeLimit with endData := endData.toNat }
  onMem fun mem => .ok ((), mem.setTask cur (some t))
  setProc fun proc => { proc with
    endCode := r.ex.aText, brk := r.ex.aBss + endData, startStack := esp / 4096 * 4096 }
  onPath (Path.setCurrent fun T => { T with euid := r.eUid, egid := r.eGid })
  onMem fun mem => (clearTail file cur t (r.ex.aText + r.ex.aData) mem).map fun mem => ((), mem)
  setProc fun proc => { proc with eip := r.ex.aEntry, esp }

/-- `do_execve`. `cs` is `eip[1]`, and `buf` is what lies on the kernel stack. -/
def doExecve (cs : Nat) : Call Int := do
  if cs % 0x10000 ≠ 0x000f then throw (.panic "execve called from supervisor mode")
  else
    match ← prepare fuel buf filename argv envp with
    | .error retval => return retval
    | .ok r => do
      commit envp file cur current r
      return 0

end

end Linux011.Exec
