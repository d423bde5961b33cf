import Linux011.Fs.FileTable
import Linux011.Fs.Inode
import Linux011.Fs.InodeTable

/-!
# The file system as one call sees it

The inode table, the super blocks, the buffers of all devices, the file table and the running process.
Nobody else runs: a request to a device is finished when the call goes on, and a call that waits for
somebody else's lock waits for ever.

A call can stop: the kernel panics, a `NULL` pointer is followed, or the call never returns. It keeps a
log of its turns, each with the state in which the turn was taken. The log is not part of the kernel.
-/

namespace Linux011.Path

open Linux011.Fs

/-- `struct m_inode` -/
structure MInode extends Inode where
  iMtime : Nat
  iAtime : Nat
  iCtime : Nat
  iDev : Nat
  iNum : Nat
  iLock : Bool
  iDirt : Bool
  iPipe : Bool
  iMount : Bool

/-- `memset(inode,0,sizeof(*inode));` -/
def MInode.zero : MInode := ⟨Inode.zero, 0, 0, 0, 0, 0, false, false, false, false⟩

/-- `struct super_block`. Its bitmaps are in memory as long as it is in use. -/
structure SuperBlock extends Super where
  sDev : Nat
  sImount : Option Nat
  imap : Nat → Bool
  zmap : Nat → Bool

def nrSuper : Nat := 8

/-- The fields of `task_struct` that these calls use. -/
structure Task where
  root : Option Nat
  pwd : Option Nat
  uid : Nat
  euid : Nat
  gid : Nat
  egid : Nat
  umask : Nat
  leader : Bool
  tty : Int
  pgrp : Int
  filp : Nat → Option Nat
  closeOnExec : BitVec 32

/-- Inodes, super blocks and open files are named by their places in the tables. `now` is
`CURRENT_TIME`, and `floppyChange` is what the floppy controller says. -/
structure State where
  cache : Nat → Cache
  superBlock : Nat → SuperBlock
  inode : Nat → MInode
  lastInode : Nat
  file : Nat → File Nat
  current : Task
  ttyPgrp : Int → Int
  rootDev : Nat
  now : Nat
  floppyChange : Nat → Bool

/-- Why a call does not return. -/
inductive Stop where
  | panic (text : String)
  | nullBuffer
  | nullSuper
  | hang
deriving DecidableEq

/-- What a call is about to do: release a buffer; in a directory with `left` entries still to go, turn to
the block number `block` that `bmap` gave; read the block number that `create_block` gave; look at the
first entries of the directory `i`; turn to the block number that `bmap` gave in `empty_dir`; free a
block. -/
inductive Turn where
  | release (dev block : Nat)
  | next (dev block left : Nat)
  | grow (dev block : Nat)
  | header (dev i block : Nat)
  | further (block : Nat)
  | free (dev k block : Nat)

structure Machine where
  state : State
  log : List (Turn × State)

abbrev Call := EStateM Stop Machine

variable {α : Type}

/-! ## Parts of the state -/

def look (g : State → α) : Call α := do
  let m ← get
  return g m.state

theorem look_bind {β : Type} (g : State → α) (f : α → Call β) (m : Machine) : (look g >>= f) m = f (g m.state) m := rfl

def alter (g : State → State) : Call Unit := modify fun m => { m with state := g m.state }

def mark (t : Turn) : Call Unit := modify fun m => { m with log := m.log ++ [(t, m.state)] }

def inode (i : Nat) : Call MInode := look fun s => s.inode i

def setInode (i : Nat) (g : MInode → MInode) : Call Unit :=
  alter fun s => { s with inode := Function.update s.inode i (g (s.inode i)) }

def setSuper (k : Nat) (g : SuperBlock → SuperBlock) : Call Unit :=
  alter fun s => { s with superBlock := Function.update s.superBlock k (g (s.superBlock k)) }

def setCache (dev : Nat) (c : Cache) : Call Unit :=
  alter fun s => { s with cache := Function.update s.cache dev c }

def setFile (f : Nat) (g : File Nat → File Nat) : Call Unit :=
  alter fun s => { s with file := Function.update s.file f (g (s.file f)) }

def setCurrent (g : Task → Task) : Call Unit := alter fun s => { s with current := g s.current }

def kpanic (text : String) : Call α := throw (.panic text)

/-! ## Buffers -/

/-- What becomes of a call that works on one cache. -/
def onCache (dev : Nat) (x : Except Panic (α × Cache)) : Call α :=
  match x with
  | .ok (a, c) => do
    setCache dev c
    return a
  | .error text => kpanic text

/-- `bread`, with `false` for `NULL`. -/
def bread (dev block : Nat) : Call Bool := do
  let c ← look fun s => s.cache dev
  onCache dev (c.bread block)

def brelse (dev block : Nat) : Call Unit := do
  mark (.release dev block)
  let c ← look fun s => s.cache dev
  onCache dev ((c.brelse block).map fun c => ((), c))

/-- `bh->b_data` -/
def bData (dev block : Nat) : Call (Nat → UInt8) := look fun s => ((s.cache dev).head block).data

/-- A change of the bytes of a buffer, and `b_dirt = 1`. -/
def write (dev block : Nat) (f : (Nat → UInt8) → Nat → UInt8) : Call Unit := do
  let c ← look fun s => s.cache dev
  setCache dev (c.modify block f)

/-- The loops of `sync_dev` over the buffers. -/
def flushDev (dev : Nat) : Call Unit := do
  let c ← look fun s => s.cache dev
  setCache dev c.flush

/-! ## Super blocks -/

namespace State

def getSuper (s : State) (dev : Nat) : Option Nat :=
  if dev = 0 then none else (List.range nrSuper).find? fun k => (s.superBlock k).sDev == dev

/-- The super block that is mounted on the inode `i`. -/
def mountedOn (s : State) (i : Nat) : Option Nat :=
  (List.range nrSuper).find? fun k => (s.superBlock k).sImount == some i

/-- The place of an inode in the table. -/
def findInode (s : State) (dev nr : Nat) : Option Nat :=
  (List.range nrInode).find? fun i => (s.inode i).iDev == dev && (s.inode i).iNum == nr

end State

end Linux011.Path
