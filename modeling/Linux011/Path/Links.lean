import Linux011.Path.Namei

/-!
# Making and removing names

`sys_mknod`, `sys_mkdir`, `sys_rmdir`, `sys_unlink` and `sys_link` of `fs/namei.c`. The inodes and the
buffer are given back in the order of the source.
-/

namespace Linux011.Path

open Linux011.Fs

/-- `S_ISVTX` -/
def sIsvtx : Nat := 0o1000

variable (fuel : Nat)

def sysMknod (filename : Name) (mode dev : Nat) : Call Int := do
  if !(← look State.suser) then return -ePerm
  else
    match ← dirNamei fuel filename with
    | none => return -eNoent
    | some (dir, basename) =>
      if basename = [] then do
        iput dir
        return -eNoent
      else if !(← look fun s => s.permission dir mayWrite) then do
        iput dir
        return -ePerm
      else do
        let (dir, found) ← findEntry dir basename
        match found with
        | some de => do
          brelse de.dev de.block
          iput dir
          return -eExist
        | none => do
          match ← newInode (← inode dir).iDev with
          | none => do
            iput dir
            return -eNospc
          | some i => do
            let now ← look fun s => s.now
            setInode i fun n =>
              { n with
                iMode := mode % 2 ^ 16
                iZone := if isBlk mode || isChr mode then Function.update n.iZone 0 (dev % 2 ^ 16)
                  else n.iZone
                iMtime := now, iAtime := now, iDirt := true }
            match ← addEntry dir basename with
            | none => do
              iput dir
              setInode i fun n => { n with iNlinks := 0 }
              iput i
              return -eNospc
            | some de => do
              setEntry de (← inode i).iNum
              iput dir
              iput i
              brelse de.dev de.block
              return 0

/-! ## `sys_mkdir` -/

/-- `strcpy(de->name, …)` of a string of dots. -/
def putDots (dots k : Nat) (data : Nat → UInt8) (p : Nat) : UInt8 :=
  if 16 * k + 2 ≤ p ∧ p < 16 * k + 2 + dots then 46
  else if p = 16 * k + 2 + dots then 0
  else data p

/-- The entries `'.'` and `'..'` of the directory `i` in `dir`. -/
def putDotEntries (num parent : Nat) (data : Nat → UInt8) : Nat → UInt8 :=
  putDots 2 1 (Dev.setWord 8 parent (putDots 1 0 (Dev.setWord 0 num data)))

/-- `sys_mkdir`, from `new_block` on. -/
def fillDir (dir i : Nat) (basename : Name) (mode : Nat) : Call Int := do
  let dev := (← inode i).iDev
  let z ← newBlock dev
  setInode i fun n => { n with iZone := Function.update n.iZone 0 z }
  if z = 0 then do
    iput dir
    setInode i fun n => { n with iNlinks := n.iNlinks - 1 }
    iput i
    return -eNospc
  else do
    setInode i fun n => { n with iDirt := true }
    if ← bread dev z then do
      let s ← look id
      write dev z (putDotEntries (s.inode i).iNum (s.inode dir).iNum)
      setInode i fun n => { n with iNlinks := 2 }
      brelse dev z
      setInode i fun n =>
        { n with iMode := 0o040000 ||| (mode &&& 0o777).ldiff s.current.umask, iDirt := true }
      match ← addEntry dir basename with
      | none => do
        iput dir
        freeBlock dev ((← inode i).iZone 0)
        setInode i fun n => { n with iNlinks := 0 }
        iput i
        return -eNospc
      | some de => do
        setEntry de (← inode i).iNum
        setInode dir fun n => { n with iNlinks := n.iNlinks + 1, iDirt := true }
        iput dir
        iput i
        brelse de.dev de.block
        return 0
    else do
      iput dir
      freeBlock dev ((← inode i).iZone 0)
      setInode i fun n => { n with iNlinks := n.iNlinks - 1 }
      iput i
      return -eError

def sysMkdir (pathname : Name) (mode : Nat) : Call Int := do
  if !(← look State.suser) then return -ePerm
  else
    match ← dirNamei fuel pathname with
    | none => return -eNoent
    | some (dir, basename) =>
      if basename = [] then do
        iput dir
        return -eNoent
      else if !(← look fun s => s.permission dir mayWrite) then do
        iput dir
        return -ePerm
      else do
        let (dir, found) ← findEntry dir basename
        match found with
        | some de => do
          brelse de.dev de.block
          iput dir
          return -eExist
        | none => do
          match ← newInode (← inode dir).iDev with
          | none => do
            iput dir
            return -eNospc
          | some i => do
            let now ← look fun s => s.now
            setInode i fun n => { n with iSize := 32, iDirt := true, iMtime := now, iAtime := now }
            fillDir dir i basename mode

/-! ## `sys_rmdir` -/

/-- The first two entries are `'.'`, for the inode `num`, and `'..'`. -/
def goodHeader (num : Nat) (data : Nat → UInt8) : Bool :=
  entryInode data 0 == num && entryInode data 1 != 0 &&
    entryName data 0 0 == 46 && entryName data 0 1 == 0 &&
    entryName data 1 0 == 46 && entryName data 1 1 == 46 && entryName data 1 2 == 0

/-- `if (de->inode)` in the loop of `empty_dir`. -/
def emptyEntry (dev b k : Nat) (next : Call Bool) : Call Bool := do
  if entryInode (← bData dev b) k ≠ 0 then do
    brelse dev b
    return false
  else next

/-- The loop of `empty_dir`, before entry `nr`, which is entry `k` of the block `b`. -/
def emptyLoop (i dev len : Nat) : (turns nr b k : Nat) → Call Bool
  | 0, _, _, _ => throw .hang
  | turns + 1, nr, b, k =>
    if len ≤ nr then do
      brelse dev b
      return true
    else if k < 64 then emptyEntry dev b k (emptyLoop i dev len turns (nr + 1) b (k + 1))
    else do
      brelse dev b
      let block ← bmap i (nr / 64)
      mark (.further block)
      -- `de` and `bh` still belong to the old block
      if block = 0 then emptyLoop i dev len turns (nr + 64) b k
      else do
        if ← bread dev block then
          emptyEntry dev block 0 (emptyLoop i dev len turns (nr + 1) block 1)
        else return false

def emptyDir (i : Nat) : Call Bool := do
  let n ← inode i
  let len := n.iSize / 16
  if len < 2 ∨ n.iZone 0 = 0 then return false
  else do
    if ← bread n.iDev (n.iZone 0) then do
      mark (.header n.iDev i (n.iZone 0))
      let num := (← inode i).iNum
      if !goodHeader num (← bData n.iDev (n.iZone 0)) then return false
      else emptyLoop i n.iDev len (len + 1) 2 (n.iZone 0) 2
    else return false

/-- `sys_rmdir`, from the test of `empty_dir` on. -/
def removeDir (dir i : Nat) (de : DirEntry) : Call Int := do
  if !(← emptyDir i) then do
    iput i
    iput dir
    brelse de.dev de.block
    return -eNotempty
  else do
    setEntry de 0
    brelse de.dev de.block
    setInode i fun n => { n with iNlinks := 0, iDirt := true }
    let now ← look fun s => s.now
    setInode dir fun n =>
      { n with iNlinks := n.iNlinks - 1, iCtime := now, iMtime := now, iDirt := true }
    iput dir
    iput i
    return 0

def sysRmdir (name : Name) : Call Int := do
  if !(← look State.suser) then return -ePerm
  else
    match ← dirNamei fuel name with
    | none => return -eNoent
    | some (dir, basename) =>
      if basename = [] then do
        iput dir
        return -eNoent
      else if !(← look fun s => s.permission dir mayWrite) then do
        iput dir
        return -ePerm
      else do
        let (dir, found) ← findEntry dir basename
        match found with
        | none => do
          iput dir
          return -eNoent
        | some de => do
          let inr := entryInode (← bData de.dev de.block) de.k
          match ← iget fuel (← inode dir).iDev inr with
          | none => do
            iput dir
            brelse de.dev de.block
            return -ePerm
          | some i => do
            let s ← look id
            let n := s.inode i
            let d := s.inode dir
            if (d.iMode &&& sIsvtx ≠ 0 ∧ s.current.euid ≠ 0 ∧ n.iUid ≠ s.current.euid) ∨
                n.iDev ≠ d.iDev ∨ 1 < n.iCount then do
              iput dir
              iput i
              brelse de.dev de.block
              return -ePerm
            else if i = dir then do
              iput i
              iput dir
              brelse de.dev de.block
              return -ePerm
            else if !isDir n.iMode then do
              iput i
              iput dir
              brelse de.dev de.block
              return -eNotdir
            else removeDir dir i de

/-! ## `sys_unlink` and `sys_link` -/

def sysUnlink (name : Name) : Call Int := do
  match ← dirNamei fuel name with
  | none => return -eNoent
  | some (dir, basename) =>
    if basename = [] then do
      iput dir
      return -eNoent
    else if !(← look fun s => s.permission dir mayWrite) then do
      iput dir
      return -ePerm
    else do
      let (dir, found) ← findEntry dir basename
      match found with
      | none => do
        iput dir
        return -eNoent
      | some de => do
        let inr := entryInode (← bData de.dev de.block) de.k
        match ← iget fuel (← inode dir).iDev inr with
        | none => do
          iput dir
          brelse de.dev de.block
          return -eNoent
        | some i => do
          let s ← look id
          let n := s.inode i
          let d := s.inode dir
          if d.iMode &&& sIsvtx ≠ 0 ∧ !s.suser ∧ s.current.euid ≠ n.iUid ∧ s.current.euid ≠ d.iUid then do
            iput dir
            iput i
            brelse de.dev de.block
            return -ePerm
          else if isDir n.iMode then do
            iput i
            iput dir
            brelse de.dev de.block
            return -ePerm
          else do
            setInode i fun n => { n with iNlinks := if n.iNlinks = 0 then 1 else n.iNlinks }
            setEntry de 0
            brelse de.dev de.block
            setInode i fun n => { n with iNlinks := n.iNlinks - 1, iDirt := true, iCtime := s.now }
            iput i
            iput dir
            return 0

/-- `sys_link`, from `dir_namei` on. -/
def linkTo (oldinode : Nat) (newname : Name) : Call Int := do
  match ← dirNamei fuel newname with
  | none => do
    iput oldinode
    return -eAcces
  | some (dir, basename) =>
    if basename = [] then do
      iput oldinode
      iput dir
      return -ePerm
    else do
      let s ← look id
      if (s.inode dir).iDev ≠ (s.inode oldinode).iDev then do
        iput dir
        iput oldinode
        return -eXdev
      else if !s.permission dir mayWrite then do
        iput dir
        iput oldinode
        return -eAcces
      else do
        let (dir, found) ← findEntry dir basename
        match found with
        | some de => do
          brelse de.dev de.block
          iput dir
          iput oldinode
          return -eExist
        | none => do
          match ← addEntry dir basename with
          | none => do
            iput dir
            iput oldinode
            return -eNospc
          | some de => do
            setEntry de (← inode oldinode).iNum
            brelse de.dev de.block
            iput dir
            let now ← look fun s => s.now
            setInode oldinode fun n =>
              { n with iNlinks := n.iNlinks + 1, iCtime := now, iDirt := true }
            iput oldinode
            return 0

def sysLink (oldname newname : Name) : Call Int := do
  match ← namei fuel oldname with
  | none => return -eNoent
  | some oldinode =>
    if isDir (← inode oldinode).iMode then do
      iput oldinode
      return -ePerm
    else linkTo fuel oldinode newname

end Linux011.Path
