import Mathlib.Algebra.Group.Nat.Defs
import Linux011.Path.State

/-!
# Blocks and inodes, for one call

`fs/bitmap.c`, `fs/truncate.c` and `fs/inode.c`, with the inode table, the times and the dirty flags.
`fuel` bounds how often `iget` crosses from a directory to what is mounted on it, which may go on for
ever.
-/

namespace Linux011.Path

open Linux011.Fs

/-! ## fs/bitmap.c -/

/-- The end of `new_block`: the zone gets a cleared buffer. -/
def newZone (dev j : Nat) : Call Nat := do
  let c ← look fun s => s.cache dev
  let c := c.getblk j
  if (c.head j).count ≠ 1 then kpanic "new block: count is != 1"
  else do
    setCache dev (Dev.clearBlock j c)
    brelse dev j
    return j

def newBlock (dev : Nat) : Call Nat := do
  match ← look fun s => s.getSuper dev with
  | none => kpanic "trying to get new block from nonexistant device"
  | some k => do
    let sb ← look fun s => s.superBlock k
    match Dev.scanMap sb.zmap sb.sZmapBlocks 8 0 with
    | none => return 0
    | some (i, j) =>
      if sb.zmap (8192 * i + j) then kpanic "new_block: bit already set"
      else do
        setSuper k fun sb => { sb with zmap := Function.update sb.zmap (8192 * i + j) true }
        let j := j + i * 8192 + sb.sFirstdatazone - 1
        if sb.sNzones ≤ j then return 0 else newZone dev j

/-- The buffer of a freed block is neither dirty nor up to date any more. If somebody else has the
buffer, `free_block` returns at this point, and keeps the reference from `get_hash_table`. -/
def forget (dev block : Nat) : Call Bool := do
  let c ← look fun s => s.cache dev
  match c.buffer block with
  | none => return true
  | some h =>
    if h.count ≠ 0 then do
      setCache dev (c.getblk block)
      return false
    else do
      setCache dev (c.set block { h with dirt := false, uptodate := false })
      return true

def clearBit (k block : Nat) : Call Unit := do
  let sb ← look fun s => s.superBlock k
  let bit := block + 1 - sb.sFirstdatazone
  if sb.sZmapBlocks ≤ bit / 8192 then throw .nullBuffer
  else if sb.zmap bit then setSuper k fun sb => { sb with zmap := Function.update sb.zmap bit false }
  else kpanic "free_block: bit already cleared"

def freeBlock (dev block : Nat) : Call Unit := do
  match ← look fun s => s.getSuper dev with
  | none => kpanic "trying to free block on nonexistent device"
  | some k => do
    let sb ← look fun s => s.superBlock k
    if block < sb.sFirstdatazone ∨ sb.sNzones ≤ block then
      kpanic "trying to free block not in datazone"
    else do
      mark (.free dev k block)
      if ← forget dev block then clearBit k block else return

def freeInode (i : Nat) : Call Unit := do
  let n ← inode i
  if n.iDev = 0 then setInode i fun _ => .zero
  else if 1 < n.iCount then kpanic "free_inode"
  else if n.iNlinks ≠ 0 then kpanic "trying to free inode with links"
  else do
    match ← look fun s => s.getSuper n.iDev with
    | none => kpanic "trying to free inode on nonexistent device"
    | some k => do
      let sb ← look fun s => s.superBlock k
      if n.iNum < 1 ∨ sb.sNinodes < n.iNum then
        kpanic "trying to free inode 0 or nonexistant inode"
      else if sb.sImapBlocks ≤ n.iNum / 8192 then kpanic "nonexistent imap in superblock"
      else do
        setSuper k fun sb => { sb with imap := Function.update sb.imap n.iNum false }
        setInode i fun _ => .zero

/-! ## `bmap` -/

/-- A step of `_bmap` at `i_zone[k]`. -/
def inodeZone (create : Bool) (i k : Nat) : Call Nat := do
  let n ← inode i
  if create ∧ n.iZone k = 0 then do
    let z ← newBlock n.iDev
    if z = 0 then return 0
    else do
      let now ← look fun s => s.now
      setInode i fun n =>
        { n with iZone := Function.update n.iZone k z, iCtime := now, iDirt := true }
      return z
  else return n.iZone k

/-- A step of `_bmap` at entry `k` of the index block `b`. -/
def entryZone (create : Bool) (dev b k : Nat) : Call Nat := do
  if ← bread dev b then do
    let z := Dev.word (← bData dev b) k
    if create ∧ z = 0 then do
      let z ← newBlock dev
      if z = 0 then do
        brelse dev b
        return 0
      else do
        write dev b (Dev.setWord k z)
        brelse dev b
        return z
    else do
      brelse dev b
      return z
  else return 0

def bmapCreate (create : Bool) (i block : Nat) : Call Nat := do
  let dev := (← inode i).iDev
  if Dev.maxBlocks ≤ block then kpanic "_bmap: block>big"
  else if block < 7 then inodeZone create i block
  else if block < 7 + 512 then do
    let b ← inodeZone create i 7
    if b = 0 then return 0 else entryZone create dev b (block - 7)
  else do
    let b ← inodeZone create i 8
    if b = 0 then return 0
    else do
      let b ← entryZone create dev b ((block - (7 + 512)) / 512)
      if b = 0 then return 0 else entryZone create dev b ((block - (7 + 512)) % 512)

def bmap (i block : Nat) : Call Nat := bmapCreate false i block

def createBlock (i block : Nat) : Call Nat := bmapCreate true i block

/-! ## fs/truncate.c -/

/-- Entry `k` of an index block, in `free_ind` and `free_dind`. -/
def freeEntry (free : Nat → Call Unit) (dev b k : Nat) : Call Unit := do
  let z := Dev.word (← bData dev b) k
  if z = 0 then return else free z

def freeEntries (free : Nat → Call Unit) (dev b : Nat) : Call Unit := do
  if ← bread dev b then do
    (List.range 512).forM (freeEntry free dev b)
    brelse dev b
  else return

/-- `free_ind`, when `free` is `free_block`, and `free_dind`, when it is `free_ind`. -/
def freeIndex (free : Nat → Call Unit) (dev b : Nat) : Call Unit :=
  if b = 0 then return
  else do
    freeEntries free dev b
    freeBlock dev b

def freeInd (dev b : Nat) : Call Unit := freeIndex (freeBlock dev) dev b

def freeDind (dev b : Nat) : Call Unit := freeIndex (freeInd dev) dev b

/-- The loop of `truncate` over the direct zones. -/
def freeDirect (i k : Nat) : Call Unit := do
  let n ← inode i
  if n.iZone k = 0 then return
  else do
    freeBlock n.iDev (n.iZone k)
    setInode i fun n => { n with iZone := Function.update n.iZone k 0 }

def truncate (i : Nat) : Call Unit := do
  let n ← inode i
  if !isReg n.iMode && !isDir n.iMode then return
  else do
    (List.range 7).forM (freeDirect i)
    freeInd n.iDev ((← inode i).iZone 7)
    freeDind n.iDev ((← inode i).iZone 8)
    let now ← look fun s => s.now
    setInode i fun n =>
      { n with
        iZone := Function.update (Function.update n.iZone 7 0) 8 0
        iSize := 0, iDirt := true, iMtime := now, iCtime := now }

/-! ## fs/inode.c -/

def waitOnInode (i : Nat) : Call Unit := do
  if (← inode i).iLock then throw .hang else return

def lockInode (i : Nat) : Call Unit := do
  waitOnInode i
  setInode i fun n => { n with iLock := true }

def unlockInode (i : Nat) : Call Unit := setInode i fun n => { n with iLock := false }

/-- `inode->i_num-1`, which is not signed -/
def numIndex (num : Nat) : Nat := (num + (2 ^ 32 - 1)) % 2 ^ 32

def inodeBlock (sb : SuperBlock) (num : Nat) : Nat :=
  2 + sb.sImapBlocks + sb.sZmapBlocks + numIndex num / 32

/-- `((struct d_inode *)bh->b_data)[j]` -/
def getDInode (data : Nat → UInt8) (j : Nat) (n : MInode) : MInode :=
  { n with
    iMode := Dev.word data (16 * j)
    iUid := Dev.word data (16 * j + 1)
    iSize := Dev.word data (16 * j + 2) + 2 ^ 16 * Dev.word data (16 * j + 3)
    iMtime := Dev.word data (16 * j + 4) + 2 ^ 16 * Dev.word data (16 * j + 5)
    iGid := (data (32 * j + 12)).toNat
    iNlinks := data (32 * j + 13)
    iZone := fun k => Dev.word data (16 * j + 7 + k) }

/-- The bytes of `struct d_inode`. -/
def dInodeByte (n : MInode) (r : Nat) : UInt8 :=
  if r < 2 then UInt8.ofNat (n.iMode / 256 ^ r)
  else if r < 4 then UInt8.ofNat (n.iUid / 256 ^ (r - 2))
  else if r < 8 then UInt8.ofNat (n.iSize / 256 ^ (r - 4))
  else if r < 12 then UInt8.ofNat (n.iMtime / 256 ^ (r - 8))
  else if r = 12 then UInt8.ofNat n.iGid
  else if r = 13 then n.iNlinks
  else UInt8.ofNat (n.iZone ((r - 14) / 2) / 256 ^ (r % 2))

def putDInode (n : MInode) (j : Nat) (data : Nat → UInt8) (p : Nat) : UInt8 :=
  if p / 32 = j then dInodeByte n (p % 32) else data p

def readInode (i : Nat) : Call Unit := do
  lockInode i
  let n ← inode i
  match ← look fun s => s.getSuper n.iDev with
  | none => kpanic "trying to read inode without dev"
  | some k => do
    let block := inodeBlock (← look fun s => s.superBlock k) n.iNum
    if ← bread n.iDev block then do
      let data ← bData n.iDev block
      setInode i (getDInode data (numIndex n.iNum % 32))
      brelse n.iDev block
      unlockInode i
    else kpanic "unable to read i-node block"

def writeInode (i : Nat) : Call Unit := do
  lockInode i
  let n ← inode i
  if !n.iDirt || n.iDev = 0 then unlockInode i
  else do
    match ← look fun s => s.getSuper n.iDev with
    | none => kpanic "trying to write inode without device"
    | some k => do
      let block := inodeBlock (← look fun s => s.superBlock k) n.iNum
      if ← bread n.iDev block then do
        write n.iDev block (putDInode n (numIndex n.iNum % 32))
        setInode i fun n => { n with iDirt := false }
        brelse n.iDev block
        unlockInode i
      else kpanic "unable to read i-node block"

def syncOne (i : Nat) : Call Unit := do
  waitOnInode i
  let n ← inode i
  if n.iDirt && !n.iPipe then writeInode i else return

def syncInodes : Call Unit := (List.range nrInode).forM syncOne

def syncDev (dev : Nat) : Call Unit := do
  flushDev dev
  syncInodes
  flushDev dev

/-- `inode->i_count--` -/
def dropCount (i : Nat) : Call Unit := setInode i fun n => { n with iCount := n.iCount - 1 }

/-- `iput`, from the label `repeat` on. It comes back there once, with an inode that is clean. -/
def iputAgain (i : Nat) : Nat → Call Unit
  | 0 => throw .hang
  | turns + 1 => do
    let n ← inode i
    if 1 < n.iCount then dropCount i
    else if n.iNlinks = 0 then do
      truncate i
      freeInode i
    else if n.iDirt then do
      writeInode i
      waitOnInode i
      iputAgain i turns
    else dropCount i

/-- `iput` -/
def iput (i : Nat) : Call Unit := do
  waitOnInode i
  let n ← inode i
  if n.iCount = 0 then kpanic "iput: trying to free free inode"
  else if n.iPipe then
    if n.iCount = 1 then
      setInode i fun n => { n with iCount := 0, iDirt := false, iPipe := false }
    else dropCount i
  else if n.iDev = 0 then dropCount i
  else if isBlk n.iMode then do
    syncDev (n.iZone 0)
    waitOnInode i
    iputAgain i 2
  else iputAgain i 2

/-- The `for` loop of `get_empty_inode`, with `k` turns to go: the choice, and `last_inode`. -/
def State.pick (s : State) : Nat → Nat → Option Nat → Option Nat × Nat
  | 0, last, choice => (choice, last)
  | k + 1, last, choice =>
    let last := if nrInode ≤ last + 1 then 0 else last + 1
    if (s.inode last).iCount = 0 then
      if !(s.inode last).iDirt && !(s.inode last).iLock then (some last, last)
      else s.pick k last (some last)
    else s.pick k last choice

/-- `while (inode->i_dirt)`: an inode that is dirty after it was written stays dirty. -/
def cleanInode (i : Nat) : Call Unit := do
  if (← inode i).iDirt then do
    writeInode i
    waitOnInode i
    if (← inode i).iDirt then throw .hang else return
  else return

/-- `get_empty_inode`. Its outer loop goes round if somebody else took the inode meanwhile. -/
def getEmptyInode : Call Nat := do
  match ← look fun s => s.pick nrInode s.lastInode none with
  | (none, _) => kpanic "No free inodes in mem"
  | (some i, last) => do
    alter fun s => { s with lastInode := last }
    waitOnInode i
    cleanInode i
    if (← inode i).iCount ≠ 0 then throw .hang
    else do
      setInode i fun _ => { MInode.zero with iCount := 1 }
      return i

/-- The loop of `iget`, from the first slot on. -/
def igetSearch (empty : Nat) : (fuel dev nr : Nat) → Call (Option Nat)
  | 0, _, _ => throw .hang
  | fuel + 1, dev, nr => do
    match ← look fun s => s.findInode dev nr with
    | none => do
      setInode empty fun n => { n with iDev := dev, iNum := nr }
      readInode empty
      return some empty
    | some i => do
      waitOnInode i
      setInode i fun n => { n with iCount := n.iCount + 1 }
      if (← inode i).iMount then do
        match ← look fun s => s.mountedOn i with
        | none => do
          iput empty
          return some i
        | some k => do
          iput i
          let sb ← look fun s => s.superBlock k
          igetSearch empty fuel sb.sDev rootIno.toNat
      else do
        iput empty
        return some i

/-- `iget` -/
def iget (fuel dev nr : Nat) : Call (Option Nat) := do
  if dev = 0 then kpanic "iget with dev==0"
  else do
    let empty ← getEmptyInode
    igetSearch empty fuel dev nr

/-- `new_inode`, with `none` when there is no free inode. -/
def newInode (dev : Nat) : Call (Option Nat) := do
  let i ← getEmptyInode
  match ← look fun s => s.getSuper dev with
  | none => kpanic "new_inode with unknown device"
  | some k => do
    let sb ← look fun s => s.superBlock k
    match Dev.scanMap sb.imap sb.sImapBlocks 8 0 with
    | none => do
      iput i
      return none
    | some (b, j) =>
      if sb.sNinodes < j + b * 8192 then do
        iput i
        return none
      else if sb.imap (8192 * b + j) then kpanic "new_inode: bit already set"
      else do
        setSuper k fun sb => { sb with imap := Function.update sb.imap (8192 * b + j) true }
        let s ← look id
        setInode i fun n =>
          { n with
            iCount := 1, iNlinks := 1, iDev := dev, iUid := s.current.euid
            iGid := s.current.egid % 256, iDirt := true, iNum := j + b * 8192
            iMtime := s.now, iAtime := s.now, iCtime := s.now }
        return some i

end Linux011.Path
