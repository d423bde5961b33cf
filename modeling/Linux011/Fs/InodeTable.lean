import Mathlib.Algebra.GroupWithZero.Nat
import Linux011.Fs.FileTable
import Linux011.Fs.Inode

/-!
# The inode table

`iget`, `iput` and `get_empty_inode` of `fs/inode.c`, as they run in turns. A task has a list of
operations that it still has to do, each of which does not sleep; it sleeps before an operation, or
because the operation finds an inode locked. What a loop of the source does next is pushed onto the
list. Other tasks may also move between two operations where the source does not sleep.

The table `super_block` says what is mounted and does not change. What `bread` finds on the disk is
arbitrary.
-/

namespace Linux011.Fs

def nrInode : Nat := 32
def rootIno : BitVec 16 := 1

/-- A device and the number of an inode on it. -/
abbrev Ident := BitVec 16 × BitVec 16

/-- The fields of `d_inode` that `iput` looks at. -/
structure DInode where
  iMode : Nat
  iNlinks : Nat

/-- `struct m_inode`. -/
structure MInode where
  disk : DInode
  iDev : BitVec 16
  iNum : BitVec 16
  iCount : Nat
  iLock : Bool
  iDirt : Bool
  iPipe : Bool
  iMount : Bool

namespace MInode

def ident (n : MInode) : Ident := (n.iDev, n.iNum)

/-- `memset(inode,0,sizeof(*inode));` -/
def zero : MInode := ⟨⟨0, 0⟩, 0, 0, 0, false, false, false, false⟩

end MInode

/-- What a task does between two places where it can sleep. `iput` is what follows the first
`wait_on_inode`, `again` is its label `repeat`, and `free` follows `truncate`. `write` and `read` are
`write_inode` and `read_inode`, `wrote` and `fetched` follow their `bread`, and `unlock` their
`brelse`. `clean` follows the choice of `get_empty_inode`, and `found` is in the loop of `iget`. -/
inductive InodeOp where
  | waitOn (i : Nat)
  | iput (i : Nat)
  | again (i : Nat)
  | free (i : Nat)
  | syncInodes (k : Nat)
  | syncOne (k : Nat)
  | write (i : Nat)
  | wrote (i : Nat)
  | unlock (i : Nat)
  | getEmpty
  | clean (i : Nat)
  | search (dev nr : BitVec 16)
  | found (i : Nat) (dev nr : BitVec 16)
  | read (i : Nat)
  | fetched (i : Nat)
  | ret (i : Option Nat)

/-- A task, with the arguments of its `iget` and the variable `empty`. -/
structure ITask where
  ops : List InodeOp
  empty : Option Nat
  asked : Option Ident

/-- The table, the tasks, and how many references to each inode a task has been given by `iget`.
`superBlock` has `s_imount` and `s_dev` of each super block in use. -/
structure ITable where
  inode : Nat → MInode
  lastInode : Nat
  task : Nat → ITask
  holds : Nat → Nat → Nat
  superBlock : List (Nat × BitVec 16)

namespace ITable

def setInode (s : ITable) (i : Nat) (n : MInode) : ITable :=
  { s with inode := Function.update s.inode i n }

def setTask (s : ITable) (t : Nat) (T : ITask) : ITable :=
  { s with task := Function.update s.task t T }

def goOn (s : ITable) (t : Nat) (ops : List InodeOp) : ITable :=
  s.setTask t { s.task t with ops }

def setCount (s : ITable) (i n : Nat) : ITable :=
  s.setInode i { s.inode i with iCount := n }

def setHolds (s : ITable) (t i n : Nat) : ITable :=
  { s with holds := Function.update s.holds t (Function.update (s.holds t) i n) }

/-! ## `iput` -/

/-- From the label `repeat` on. -/
def iputAgain (s : ITable) (t i : Nat) (rest : List InodeOp) : ITable :=
  let n := s.inode i
  if 1 < n.iCount then (s.setCount i (n.iCount - 1)).goOn t rest
  else if n.disk.iNlinks = 0 then s.goOn t (.free i :: rest)
  else if n.iDirt then s.goOn t (.write i :: .waitOn i :: .again i :: rest)
  else (s.setCount i (n.iCount - 1)).goOn t rest

/-- After the first `wait_on_inode`. A block device is written back by `sync_dev`. -/
def iput (s : ITable) (t i : Nat) (rest : List InodeOp) : Except String ITable :=
  let n := s.inode i
  if n.iCount = 0 then .error "iput: trying to free free inode"
  else if n.iPipe then
    if n.iCount - 1 ≠ 0 then .ok ((s.setCount i (n.iCount - 1)).goOn t rest)
    else .ok ((s.setInode i { n with iCount := 0, iDirt := false, iPipe := false }).goOn t rest)
  else if n.iDev = 0 then .ok ((s.setCount i (n.iCount - 1)).goOn t rest)
  else if isBlk n.disk.iMode then .ok (s.goOn t (.syncInodes 0 :: .waitOn i :: .again i :: rest))
  else .ok (s.iputAgain t i rest)

/-- `free_inode`, where it is about the inode table. -/
def freeInode (s : ITable) (t i : Nat) (rest : List InodeOp) : Except String ITable :=
  let n := s.inode i
  if n.iDev = 0 then .ok ((s.setInode i .zero).goOn t rest)
  else if 1 < n.iCount then .error "free_inode"
  else if n.disk.iNlinks ≠ 0 then .error "trying to free inode with links"
  else .ok ((s.setInode i .zero).goOn t rest)

/-- The loop of `sync_inodes`, from slot `k` on. -/
def syncInodes (s : ITable) (t k : Nat) (rest : List InodeOp) : ITable :=
  if k < nrInode then s.goOn t (.waitOn k :: .syncOne k :: .syncInodes (k + 1) :: rest)
  else s.goOn t rest

def syncOne (s : ITable) (t k : Nat) (rest : List InodeOp) : ITable :=
  if (s.inode k).iDirt && !(s.inode k).iPipe then s.goOn t (.write k :: rest) else s.goOn t rest

/-- `write_inode` of an inode that is not locked, up to its `bread`. -/
def writeInode (s : ITable) (t i : Nat) (rest : List InodeOp) : ITable :=
  let n := s.inode i
  if !n.iDirt || n.iDev = 0 then s.goOn t rest
  else (s.setInode i { n with iLock := true }).goOn t (.wrote i :: rest)

/-! ## `get_empty_inode` -/

/-- The `for` loop of `get_empty_inode`, with `k` turns to go: the choice, and `last_inode`. -/
def pick (s : ITable) : Nat → Nat → Option Nat → Option Nat × Nat
  | 0, last, inode => (inode, last)
  | k + 1, last, inode =>
    let last := if nrInode ≤ last + 1 then 0 else last + 1
    if (s.inode last).iCount = 0 then
      if !(s.inode last).iDirt && !(s.inode last).iLock then (some last, last)
      else s.pick k last (some last)
    else s.pick k last inode

def getEmptyInode (s : ITable) (t : Nat) (rest : List InodeOp) : Except String ITable :=
  match s.pick nrInode s.lastInode none with
  | (none, _) => .error "No free inodes in mem"
  | (some i, last) =>
    .ok ({ s with lastInode := last }.goOn t (.waitOn i :: .clean i :: rest))

/-- The rest of `get_empty_inode`, which chooses again if its choice is in use by now. -/
def clean (s : ITable) (t i : Nat) (rest : List InodeOp) : ITable :=
  if (s.inode i).iDirt then s.goOn t (.write i :: .waitOn i :: .clean i :: rest)
  else if (s.inode i).iCount ≠ 0 then s.goOn t (.getEmpty :: rest)
  else
    (s.setInode i { MInode.zero with iCount := 1 }).setTask t
      { s.task t with ops := rest, empty := some i }

/-! ## `iget` -/

/-- `if (empty) iput(empty); return inode;` -/
def igetDone (s : ITable) (t i : Nat) (rest : List InodeOp) : ITable :=
  match (s.task t).empty with
  | none => s.goOn t (.ret (some i) :: rest)
  | some e =>
    s.setTask t { s.task t with
      ops := .waitOn e :: .iput e :: .ret (some i) :: rest
      empty := none }

/-- The loop of `iget`, from the first slot on. If no slot has the inode, the empty one gets it. -/
def igetSearch (s : ITable) (t : Nat) (dev nr : BitVec 16) (rest : List InodeOp) : ITable :=
  match (List.range nrInode).find? fun i => (s.inode i).ident == (dev, nr) with
  | some i => s.goOn t (.waitOn i :: .found i dev nr :: rest)
  | none =>
    match (s.task t).empty with
    | none => s.goOn t (.ret none :: rest)
    | some e =>
      (s.setInode e { s.inode e with iDev := dev, iNum := nr }).setTask t
        { s.task t with ops := .read e :: .ret (some e) :: rest, empty := none }

/-- A slot has been found, and is not locked. -/
def igetFound (s : ITable) (t i : Nat) (dev nr : BitVec 16) (rest : List InodeOp) : ITable :=
  if (s.inode i).ident ≠ (dev, nr) then s.goOn t (.search dev nr :: rest)
  else
    let s := s.setCount i ((s.inode i).iCount + 1)
    if (s.inode i).iMount then
      match s.superBlock.find? fun sb => sb.1 == i with
      | none => s.igetDone t i rest
      | some sb => s.goOn t (.waitOn i :: .iput i :: .search sb.2 rootIno :: rest)
    else s.igetDone t i rest

/-! ## Steps -/

/-- One operation of the task `t`; `d` is what a `bread` of its inode finds. A task that finds the inode
locked goes on sleeping. -/
def runOp (s : ITable) (t : Nat) (d : DInode) (rest : List InodeOp) :
    InodeOp → Option (Except String ITable)
  | .waitOn i => if (s.inode i).iLock then none else some (.ok (s.goOn t rest))
  | .iput i => some (s.iput t i rest)
  | .again i => some (.ok (s.iputAgain t i rest))
  | .free i => some (s.freeInode t i rest)
  | .syncInodes k => some (.ok (s.syncInodes t k rest))
  | .syncOne k => some (.ok (s.syncOne t k rest))
  | .write i => if (s.inode i).iLock then none else some (.ok (s.writeInode t i rest))
  | .wrote i => some (.ok ((s.setInode i { s.inode i with iDirt := false }).goOn t (.unlock i :: rest)))
  | .unlock i => some (.ok ((s.setInode i { s.inode i with iLock := false }).goOn t rest))
  | .getEmpty => some (s.getEmptyInode t rest)
  | .clean i => some (.ok (s.clean t i rest))
  | .search dev nr => some (.ok (s.igetSearch t dev nr rest))
  | .found i dev nr => some (.ok (s.igetFound t i dev nr rest))
  | .read i =>
    if (s.inode i).iLock then none
    else some (.ok ((s.setInode i { s.inode i with iLock := true }).goOn t (.fetched i :: rest)))
  | .fetched i => some (.ok ((s.setInode i { s.inode i with disk := d }).goOn t (.unlock i :: rest)))
  | .ret _ => none

/-- Who moves. `touch` and `dup` are what a task does to an inode that it has a reference to. -/
inductive InodeEvent where
  | iget (t : Nat) (dev nr : BitVec 16)
  | iput (t i : Nat)
  | sync (t : Nat)
  | run (t : Nat)
  | returned (t : Nat) (i : Option Nat)
  | touch (t i : Nat)
  | dup (t i : Nat)

inductive Step : ITable → InodeEvent → Except String ITable → Prop
  | iget {s : ITable} {t : Nat} {dev nr : BitVec 16} (ht : t < nrTasks)
      (hops : (s.task t).ops = []) :
      Step s (.iget t dev nr) (if dev = 0 then .error "iget with dev==0" else
        .ok (s.setTask t ⟨[.getEmpty, .search dev nr], none, some (dev, nr)⟩))
  | iput {s : ITable} {t i : Nat} (ht : t < nrTasks) (hops : (s.task t).ops = [])
      (hi : 0 < s.holds t i) :
      Step s (.iput t i) (.ok ((s.setHolds t i (s.holds t i - 1)).setTask t
        ⟨[.waitOn i, .iput i], none, none⟩))
  | sync {s : ITable} {t : Nat} (ht : t < nrTasks) (hops : (s.task t).ops = []) :
      Step s (.sync t) (.ok (s.setTask t ⟨[.syncInodes 0], none, none⟩))
  | run {s : ITable} {t : Nat} {op : InodeOp} {rest : List InodeOp} {d : DInode}
      {r : Except String ITable} (ht : t < nrTasks) (hops : (s.task t).ops = op :: rest)
      (hr : s.runOp t d rest op = some r) : Step s (.run t) r
  | returned {s : ITable} {t : Nat} {o : Option Nat} (ht : t < nrTasks)
      (hops : (s.task t).ops = [.ret o]) :
      Step s (.returned t o) (.ok
        ((match o with
          | none => s
          | some i => s.setHolds t i (s.holds t i + 1)).setTask t ⟨[], none, none⟩))
  | touch {s : ITable} {t i : Nat} {d : DInode} {dirt : Bool} (ht : t < nrTasks) (hi : 0 < s.holds t i) :
      Step s (.touch t i) (.ok (s.setInode i { s.inode i with disk := d, iDirt := dirt }))
  | dup {s : ITable} {t i : Nat} (ht : t < nrTasks) (hi : 0 < s.holds t i) :
      Step s (.dup t i) (.ok ((s.setCount i ((s.inode i).iCount + 1)).setHolds t i (s.holds t i + 1)))

end ITable

end Linux011.Fs
