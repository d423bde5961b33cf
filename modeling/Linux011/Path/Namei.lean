import Mathlib.Data.Nat.Bitwise
import Linux011.Path.Inodes

/-!
# fs/namei.c

Names are lists of bytes without the closing zero. An entry of a directory is named by the buffer that
holds it and its place there. The times of the source are kept; what `printk` prints is not.
-/

namespace Linux011.Path

open Linux011.Fs

def eNoent : Int := 2
def eAcces : Int := 13
def eExist : Int := 17
def eXdev : Int := 18
def eNotdir : Int := 20
def eIsdir : Int := 21
def eNospc : Int := 28
def eNotempty : Int := 39
def eError : Int := 99

def oAccmode : Nat := 0o3
def oWronly : Nat := 0o1
def oCreat : Nat := 0o100
def oExcl : Nat := 0o200
def oTrunc : Nat := 0o1000

def mayExec : Nat := 1
def mayWrite : Nat := 2

def nameLen : Nat := 14

abbrev Name := List UInt8

/-- `"\004\002\006\377"[(x)&O_ACCMODE]`; as a `char` the last one is negative, and no mode has all of its
bits. -/
def accMode (flag : Nat) : Nat :=
  match flag &&& oAccmode with
  | 0 => 0o4
  | 1 => 0o2
  | 2 => 0o6
  | _ => 0o377

/-- A place in a directory block that is in a buffer. -/
structure DirEntry where
  dev : Nat
  block : Nat
  k : Nat
deriving DecidableEq

namespace State

def suser (s : State) : Bool := s.current.euid == 0

def permission (s : State) (i mask : Nat) : Bool :=
  let n := s.inode i
  let mode :=
    if s.current.euid = n.iUid then n.iMode / 2 ^ 6
    else if s.current.egid = n.iGid then n.iMode / 2 ^ 3
    else n.iMode
  if n.iDev ≠ 0 ∧ n.iNlinks = 0 then false
  else (mode &&& mask &&& 0o7) == mask || s.suser

end State

/-- `de->inode` -/
def entryInode (data : Nat → UInt8) (k : Nat) : Nat := Dev.word data (8 * k)

/-- `de->name[i]` -/
def entryName (data : Nat → UInt8) (k i : Nat) : UInt8 := data (16 * k + 2 + i)

/-- `match` -/
def matchName (name : Name) (data : Nat → UInt8) (k : Nat) : Bool :=
  entryInode data k != 0 && name.length ≤ nameLen &&
    (nameLen ≤ name.length || entryName data k name.length == 0) &&
    (List.range name.length).all fun i => name.getD i 0 == entryName data k i

/-- The name of an entry that `add_entry` fills. -/
def putName (name : Name) (k : Nat) (data : Nat → UInt8) (p : Nat) : UInt8 :=
  if 16 * k + 2 ≤ p ∧ p < 16 * k + 2 + nameLen then name.getD (p - (16 * k + 2)) 0 else data p

def setEntry (de : DirEntry) (nr : Nat) : Call Unit := write de.dev de.block (Dev.setWord (8 * de.k) nr)

/-! ## `find_entry` -/

/-- `'..'` in the root of the process is `'.'`, and at the root of a mounted device it is looked up in the
directory that the device is mounted on. -/
def dotDot (dir : Nat) (name : Name) : Call (Nat × Name) :=
  if name = [46, 46] then do
    let s ← look id
    if s.current.root = some dir then return (dir, [46])
    else if (s.inode dir).iNum = rootIno.toNat then
      match s.getSuper (s.inode dir).iDev with
      | none => throw .nullSuper
      | some k =>
        match (s.superBlock k).sImount with
        | none => return (dir, name)
        | some m => do
          iput dir
          setInode m fun n => { n with iCount := n.iCount + 1 }
          return (m, name)
    else return (dir, name)
  else return (dir, name)

/-- `(block = bmap(…)) && (bh = bread(…))`, for the block number that `bmap` gave. -/
def breadMapped (dev block : Nat) : Call Bool :=
  if block = 0 then return false else bread dev block

/-- The head of the loop of `find_entry`, before entry `i` with `left` entries to go. At the end of a block
the next one is read. If there is none, the loop goes on without a buffer: it is left if there are no
entries beyond, and follows `bh` else. -/
def findBlock (dir dev i left b k : Nat) : Call (Option (Nat × Nat)) :=
  if k < 64 then return some (b, k)
  else do
    brelse dev b
    let block ← bmap dir (i / 64)
    mark (.next dev block left)
    if ← breadMapped dev block then return some (block, 0)
    else if left ≤ 64 then return none
    else throw .nullBuffer

/-- The loop of `find_entry`, with `left` entries to go. -/
def findLoop (dir dev : Nat) (name : Name) : (left i b k : Nat) → Call (Option DirEntry)
  | 0, _, b, _ => do
    brelse dev b
    return none
  | left + 1, i, b, k => do
    match ← findBlock dir dev i (left + 1) b k with
    | none => return none
    | some (b, k) => do
      let data ← bData dev b
      if matchName name data k then return some ⟨dev, b, k⟩
      else findLoop dir dev name left (i + 1) b (k + 1)

/-- `find_entry`, with the directory that `dir` points to in the end. -/
def findEntry (dir : Nat) (name : Name) : Call (Nat × Option DirEntry) := do
  let name := name.take nameLen
  let entries := (← inode dir).iSize / 16
  if name = [] then return (dir, none)
  else do
    let (dir, name) ← dotDot dir name
    let n ← inode dir
    if n.iZone 0 = 0 then return (dir, none)
    else do
      if ← bread n.iDev (n.iZone 0) then do
        let r ← findLoop dir n.iDev name entries 0 (n.iZone 0) 0
        return (dir, r)
      else return (dir, none)

/-! ## `add_entry` -/

/-- The head of the loop of `add_entry`. A block that cannot be read is passed over without a buffer. -/
def addBlock (dir dev i b k : Nat) : Call (Option (Nat × Nat)) :=
  if k < 64 then return some (b, k)
  else do
    brelse dev b
    let block ← createBlock dir (i / 64)
    if block = 0 then return none
    else do
      mark (.grow dev block)
      if ← bread dev block then return some (block, 0) else throw .nullBuffer

/-- An entry beyond the end of the directory is taken in. -/
def extend (dir dev i b k : Nat) : Call Unit := do
  let s ← look id
  if (s.inode dir).iSize ≤ 16 * i then do
    setCache dev ((s.cache dev).set b
      { (s.cache dev).head b with data := Dev.setWord (8 * k) 0 ((s.cache dev).head b).data })
    setInode dir fun n => { n with iSize := 16 * (i + 1), iDirt := true, iCtime := s.now }
  else return

/-- The loop of `add_entry`. -/
def addLoop (dir dev : Nat) (name : Name) : (turns i b k : Nat) → Call (Option DirEntry)
  | 0, _, _, _ => throw .hang
  | turns + 1, i, b, k => do
    match ← addBlock dir dev i b k with
    | none => return none
    | some (b, k) => do
      extend dir dev i b k
      let data ← bData dev b
      if entryInode data k = 0 then do
        let now ← look fun s => s.now
        setInode dir fun n => { n with iMtime := now }
        write dev b (putName name k)
        return some ⟨dev, b, k⟩
      else addLoop dir dev name turns (i + 1) b (k + 1)

/-- `add_entry`. The loop ends at the first entry beyond the end of the directory. -/
def addEntry (dir : Nat) (name : Name) : Call (Option DirEntry) := do
  let name := name.take nameLen
  let n ← inode dir
  if name = [] then return none
  else if n.iZone 0 = 0 then return none
  else do
    if ← bread n.iDev (n.iZone 0) then
      addLoop dir n.iDev name (n.iSize / 16 + 2) 0 (n.iZone 0) 0
    else return none

/-! ## Path names -/

section

variable (fuel : Nat)

/-- The loop of `get_dir`: `names` are followed by slashes. -/
def walk : List Name → Nat → Call (Option Nat)
  | names, i => do
    let s ← look id
    if !isDir (s.inode i).iMode || !s.permission i mayExec then do
      iput i
      return none
    else
      match names with
      | [] => return some i
      | name :: names => do
        let (i, found) ← findEntry i name
        match found with
        | none => do
          iput i
          return none
        | some de => do
          let inr := entryInode (← bData de.dev de.block) de.k
          let idev := (← inode i).iDev
          brelse de.dev de.block
          iput i
          match ← iget fuel idev inr with
          | none => return none
          | some i => walk names i

/-- The parts of a path name between the slashes; the last one is the basename. -/
def components (path : Name) : List Name :=
  if path.head? = some 47 then path.tail.splitOn 47 else path.splitOn 47

/-- `get_dir` -/
def getDir (path : Name) : Call (Option Nat) := do
  let s ← look id
  match s.current.root, s.current.pwd with
  | none, _ => kpanic "No root inode"
  | some root, pwd =>
    if (s.inode root).iCount = 0 then kpanic "No root inode"
    else
      match pwd with
      | none => kpanic "No cwd inode"
      | some pwd =>
        if (s.inode pwd).iCount = 0 then kpanic "No cwd inode"
        else if path = [] then return none
        else do
          let i := if path.head? = some 47 then root else pwd
          setInode i fun n => { n with iCount := n.iCount + 1 }
          walk fuel (components path).dropLast i

/-- `dir_namei` -/
def dirNamei (path : Name) : Call (Option (Nat × Name)) := do
  match ← getDir fuel path with
  | none => return none
  | some dir => return some (dir, (components path).getLastD [])

/-- `namei` -/
def namei (path : Name) : Call (Option Nat) := do
  match ← dirNamei fuel path with
  | none => return none
  | some (dir, basename) =>
    if basename = [] then return some dir
    else do
      let (dir, found) ← findEntry dir basename
      match found with
      | none => do
        iput dir
        return none
      | some de => do
        let inr := entryInode (← bData de.dev de.block) de.k
        let dev := (← inode dir).iDev
        brelse de.dev de.block
        iput dir
        match ← iget fuel dev inr with
        | none => return none
        | some i => do
          let now ← look fun s => s.now
          setInode i fun n => { n with iAtime := now, iDirt := true }
          return some i

/-! ## `open_namei` -/

/-- `open_namei`, when there is no entry: the file is created. -/
def openCreate (dir : Nat) (basename : Name) (flag mode : Nat) : Call (Except Int Nat) := do
  if flag &&& oCreat = 0 then do
    iput dir
    return .error eNoent
  else do
    let s ← look id
    if !s.permission dir mayWrite then do
      iput dir
      return .error eAcces
    else do
      match ← newInode (s.inode dir).iDev with
      | none => do
        iput dir
        return .error eNospc
      | some i => do
        setInode i fun n => { n with iUid := s.current.euid, iMode := mode, iDirt := true }
        match ← addEntry dir basename with
        | none => do
          setInode i fun n => { n with iNlinks := n.iNlinks - 1 }
          iput i
          iput dir
          return .error eNospc
        | some de => do
          setEntry de (← inode i).iNum
          brelse de.dev de.block
          iput dir
          return .ok i

/-- `open_namei`, when there is an entry. -/
def openFound (dir : Nat) (de : DirEntry) (flag : Nat) : Call (Except Int Nat) := do
  let inr := entryInode (← bData de.dev de.block) de.k
  let dev := (← inode dir).iDev
  brelse de.dev de.block
  iput dir
  if flag &&& oExcl ≠ 0 then return .error eExist
  else do
    match ← iget fuel dev inr with
    | none => return .error eAcces
    | some i => do
      let s ← look id
      if (isDir (s.inode i).iMode && flag &&& oAccmode != 0) || !s.permission i (accMode flag) then do
        iput i
        return .error ePerm
      else do
        setInode i fun n => { n with iAtime := s.now }
        if flag &&& oTrunc ≠ 0 then do
          truncate i
          return .ok i
        else return .ok i

/-- A file that is opened to be truncated is opened for writing. -/
def openFlag (flag : Nat) : Nat :=
  if flag &&& oTrunc ≠ 0 ∧ flag &&& oAccmode = 0 then flag ||| oWronly else flag

/-- `open_namei`, with the inode or the error number. -/
def openNamei (path : Name) (flag mode : Nat) : Call (Except Int Nat) := do
  let flag := openFlag flag
  let umask ← look fun s => s.current.umask
  let mode := (mode &&& 0o777).ldiff umask ||| 0o100000
  match ← dirNamei fuel path with
  | none => return .error eNoent
  | some (dir, basename) =>
    if basename = [] then
      if flag &&& (oAccmode ||| oCreat ||| oTrunc) = 0 then return .ok dir
      else do
        iput dir
        return .error eIsdir
    else do
      let (dir, found) ← findEntry dir basename
      match found with
      | none => openCreate dir basename flag mode
      | some de => openFound fuel dir de flag

end

end Linux011.Path
