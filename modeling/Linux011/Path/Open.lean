import Linux011.Path.Links

/-!
# fs/open.c and fs/stat.c

The calls that take a path name and are not about the names themselves.
-/

namespace Linux011.Path

open Linux011.Fs

variable (fuel : Nat)

/-- `sys_utime`; `times` are `actime` and `modtime`. -/
def sysUtime (filename : Name) (times : Option (Nat × Nat)) : Call Int := do
  match ← namei fuel filename with
  | none => return -eNoent
  | some i => do
    let now ← look fun s => s.now
    let (actime, modtime) := times.getD (now, now)
    setInode i fun n => { n with iAtime := actime, iMtime := modtime, iDirt := true }
    iput i
    return 0

/-- `sys_access`. The owner is read after `iput`, and the bits of the group are those of the owner. -/
def sysAccess (filename : Name) (mode : Nat) : Call Int := do
  let mode := mode &&& 0o7
  match ← namei fuel filename with
  | none => return -eAcces
  | some i => do
    let iMode := (← inode i).iMode &&& 0o777
    iput i
    let s ← look id
    let n := s.inode i
    let res := if s.current.uid = n.iUid ∨ s.current.gid = n.iGid then iMode / 2 ^ 6 else iMode
    if res &&& 0o7 &&& mode = mode then return 0
    else if s.current.uid = 0 ∧ (mode &&& 1 = 0 ∨ iMode &&& 0o111 ≠ 0) then return 0
    else return -eAcces

/-- `iput` of a pointer that may be `NULL`. -/
def iputNull : Option Nat → Call Unit
  | none => return
  | some i => iput i

def sysChdir (filename : Name) : Call Int := do
  match ← namei fuel filename with
  | none => return -eNoent
  | some i =>
    if !isDir (← inode i).iMode then do
      iput i
      return -eNotdir
    else do
      iputNull (← look fun s => s.current.pwd)
      setCurrent fun T => { T with pwd := some i }
      return 0

def sysChroot (filename : Name) : Call Int := do
  match ← namei fuel filename with
  | none => return -eNoent
  | some i =>
    if !isDir (← inode i).iMode then do
      iput i
      return -eNotdir
    else do
      iputNull (← look fun s => s.current.root)
      setCurrent fun T => { T with root := some i }
      return 0

def sysChmod (filename : Name) (mode : Nat) : Call Int := do
  match ← namei fuel filename with
  | none => return -eNoent
  | some i => do
    let s ← look id
    if s.current.euid ≠ (s.inode i).iUid ∧ !s.suser then do
      iput i
      return -eAcces
    else do
      setInode i fun n =>
        { n with iMode := mode &&& 0o7777 ||| n.iMode.ldiff 0o7777, iDirt := true }
      iput i
      return 0

def sysChown (filename : Name) (uid gid : Nat) : Call Int := do
  match ← namei fuel filename with
  | none => return -eNoent
  | some i => do
    if !(← look State.suser) then do
      iput i
      return -eAcces
    else do
      setInode i fun n => { n with iUid := uid % 2 ^ 16, iGid := gid % 2 ^ 8, iDirt := true }
      iput i
      return 0

/-- `struct stat` -/
structure Stat where
  stDev : Nat
  stIno : Nat
  stMode : Nat
  stNlink : Nat
  stUid : Nat
  stGid : Nat
  stRdev : Nat
  stSize : Nat
  stAtime : Nat
  stMtime : Nat
  stCtime : Nat

def cpStat (n : MInode) : Stat :=
  ⟨n.iDev, n.iNum, n.iMode, n.iNlinks.toNat, n.iUid, n.iGid, n.iZone 0, n.iSize, n.iAtime, n.iMtime,
    n.iCtime⟩

/-- `sys_stat`, with what it copies to the process. -/
def sysStat (filename : Name) : Call (Int × Option Stat) := do
  match ← namei fuel filename with
  | none => return (-eNoent, none)
  | some i => do
    let st := cpStat (← inode i)
    iput i
    return (0, some st)

/-! ## `sys_open` -/

/-- `put_super`. The buffers of the bitmaps, which go too, are no part of the model. -/
def putSuper (dev : Nat) : Call Unit := do
  let s ← look id
  if dev = s.rootDev then return
  else
    match s.getSuper dev with
    | none => return
    | some k =>
      if (s.superBlock k).sImount.isSome then return else setSuper k fun sb => { sb with sDev := 0 }

def invalidateInode (dev i : Nat) : Call Unit := do
  waitOnInode i
  if (← inode i).iDev = dev then setInode i fun n => { n with iDev := 0, iDirt := false } else return

def invalidateBuffers (dev : Nat) : Call Unit := do
  let c ← look fun s => s.cache dev
  setCache dev
    { c with buffer := fun b => (c.buffer b).map fun h => { h with uptodate := false, dirt := false } }

def checkDiskChange (dev : Nat) : Call Unit := do
  if dev / 256 ≠ 2 then return
  else if !(← look fun s => s.floppyChange (dev % 4)) then return
  else do
    (List.range nrSuper).forM fun k => do
      if (← look fun s => (s.superBlock k).sDev) = dev then putSuper dev else return
    (List.range nrInode).forM (invalidateInode dev)
    invalidateBuffers dev

/-- `if (S_ISBLK(inode->i_mode))` in `sys_open`. -/
def checkBlk (i : Nat) : Call Unit := do
  let n ← inode i
  if isBlk n.iMode then checkDiskChange (n.iZone 0) else return

/-- The terminals in `sys_open`: the result is `true` for `/dev/tty` of a process that has none. -/
def openTty (i : Nat) : Call Bool := do
  let s ← look id
  let n := s.inode i
  if isChr n.iMode then
    if n.iZone 0 / 256 = 4 then
      if s.current.leader ∧ s.current.tty < 0 then do
        setCurrent fun T => { T with tty := n.iZone 0 % 256 }
        alter fun s => { s with ttyPgrp := Function.update s.ttyPgrp s.current.tty s.current.pgrp }
        return false
      else return false
    else return decide (n.iZone 0 / 256 = 5 ∧ s.current.tty < 0)
  else return false

/-- `current->filp[fd]=NULL; f->f_count=0;` -/
def forgetFile (fd f : Nat) : Call Unit := do
  setCurrent fun T => { T with filp := Function.update T.filp fd none }
  setFile f fun F => { F with fCount := 0 }

def sysOpen (filename : Name) (flag mode : Nat) : Call Int := do
  let s ← look id
  let mode := (mode &&& 0o777).ldiff s.current.umask
  match (List.range nrOpen).find? fun fd => (s.current.filp fd).isNone with
  | none => return -eInval
  | some fd => do
    setCurrent fun T => { T with closeOnExec := T.closeOnExec &&& ~~~(1#32 <<< fd) }
    match (List.range nrFile).find? fun f => (s.file f).fCount == 0 with
    | none => return -eInval
    | some f => do
      setCurrent fun T => { T with filp := Function.update T.filp fd (some f) }
      setFile f fun F => { F with fCount := F.fCount + 1 }
      match ← openNamei fuel filename flag mode with
      | .error e => do
        forgetFile fd f
        return -e
      | .ok i => do
        if ← openTty i then do
          iput i
          forgetFile fd f
          return -ePerm
        else do
          checkBlk i
          let n ← inode i
          setFile f fun _ => ⟨n.iMode, BitVec.ofNat 16 flag, 1, some i, 0⟩
          return fd

end Linux011.Path
