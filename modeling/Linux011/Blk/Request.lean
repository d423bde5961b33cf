import Mathlib.Data.Option.Basic
import Linux011.Lib.Chain
import Linux011.Lib.Run

/-!
# Block requests

`kernel/blk_drv/ll_rw_blk.c`, and `end_request` and `INIT_REQUEST` of `kernel/blk_drv/blk.h`. Buffers
and tasks are arbitrary types. A slot of `request[]` is its index; a slot is free when its `dev` is
negative.

A task in `ll_rw_block` keeps the processor until it sleeps or returns, but an interrupt may come
between any two of its steps. The steps are those an interrupt can tell apart: taking the lock of
the buffer, looking at one slot, and linking the slot it has found, which it fills in before it
disables interrupts; what happens in a slot outside the queues is seen by nobody.
-/

namespace Linux011.Blk

inductive Rw where
  | read
  | write
  | reada
  | writea
  deriving DecidableEq

/-- `READ` is 0 and `WRITE` is 1. -/
inductive Cmd where
  | read
  | write
  deriving DecidableEq

def Cmd.toNat : Cmd → Nat
  | .read => 0
  | .write => 1

def nrRequest : Nat := 32
def nrBlkDev : Nat := 7

/-- The fields of a `buffer_head` that requests use. -/
structure BufHead where
  bDev : Nat
  bBlocknr : Nat
  bUptodate : Bool
  bDirt : Bool
  bLock : Bool
  deriving DecidableEq

structure Request (B : Type _) where
  dev : Int
  cmd : Cmd
  errors : Nat
  sector : Nat
  nrSectors : Nat
  bh : Option B
  next : Option Nat

/-- The arguments of `make_request` once `READA` and `WRITEA` are sorted out. -/
structure Call (B : Type _) where
  major : Nat
  cmd : Cmd
  rwAhead : Bool
  bh : B
  deriving DecidableEq

/-- Where a call is: before or in `lock_buffer`; at the slot below `n` in the search; or with the
free slot `req`. -/
inductive Pc where
  | lock
  | scan (n : Nat)
  | fill (req : Nat)
  deriving DecidableEq

/-- `calls` has the tasks inside `ll_rw_block`; `cpu` is the one among them that runs, the others sleep.
`requestFn` says which majors have a driver. -/
structure Dev (T B : Type _) where
  buf : B → BufHead
  request : Nat → Request B
  current : Nat → Option Nat
  requestFn : Nat → Bool
  calls : T → Option (Pc × Call B)
  cpu : Option T

/-- `MAJOR`, of a number that is converted to `unsigned`. -/
def major (dev : Int) : Nat :=
  (dev % 4294967296).toNat / 256

/-- `IN_ORDER`. -/
def inOrder {B : Type _} (s1 s2 : Request B) : Bool :=
  s1.cmd.toNat < s2.cmd.toNat ||
    (s1.cmd == s2.cmd && (s1.dev < s2.dev || (s1.dev == s2.dev && s1.sector < s2.sector)))

/-- The loop of `add_request`: from `tmp` on, the request behind which `req` goes. It gives up when it
has followed more links than there are slots. -/
def findPlace {B : Type _} (request : Nat → Request B) (req : Nat) : Nat → Nat → Option Nat
  | 0, _ => none
  | fuel + 1, tmp =>
    match (request tmp).next with
    | none => some tmp
    | some nx =>
      if (inOrder (request tmp) (request req) || !inOrder (request tmp) (request nx)) &&
          inOrder (request req) (request nx) then some tmp
      else findPlace request req fuel nx

namespace Dev

variable {T B : Type _} [DecidableEq T] [DecidableEq B]

/-! ## Updates -/

def setBuf (s : Dev T B) (b : B) (f : BufHead → BufHead) : Dev T B :=
  { s with buf := Function.update s.buf b (f (s.buf b)) }

def setRequest (s : Dev T B) (r : Nat) (f : Request B → Request B) : Dev T B :=
  { s with request := Function.update s.request r (f (s.request r)) }

def setCurrent (s : Dev T B) (m : Nat) (a : Option Nat) : Dev T B :=
  { s with current := Function.update s.current m a }

def setLock (s : Dev T B) (b : B) (v : Bool) : Dev T B :=
  s.setBuf b fun h => { h with bLock := v }

/-- The task goes on. -/
def goOn (s : Dev T B) (t : T) (pc : Pc) (c : Call B) : Dev T B :=
  { s with calls := Function.update s.calls t (some (pc, c)), cpu := some t }

/-- The task calls `sleep_on`; it goes on at `pc` later. -/
def sleep (s : Dev T B) (t : T) (pc : Pc) (c : Call B) : Dev T B :=
  { s with calls := Function.update s.calls t (some (pc, c)), cpu := none }

/-- The task leaves `ll_rw_block`. -/
def leave (s : Dev T B) (t : T) : Dev T B :=
  { s with calls := Function.update s.calls t none, cpu := none }

/-! ## The code -/

/-- `ll_rw_block` and `make_request`, up to `lock_buffer`; `none` is a return. -/
def llRwBlock (rw : Rw) (bh : B) (s : Dev T B) : Option (Call B) :=
  let m := major (s.buf bh).bDev
  let rwAhead : Bool := rw = .reada ∨ rw = .writea
  if nrBlkDev ≤ m ∨ s.requestFn m = false then none
  else if rwAhead = true ∧ (s.buf bh).bLock = true then none
  else some ⟨m, if rw = .read ∨ rw = .reada then .read else .write, rwAhead, bh⟩

/-- The last third of the slots is for reads. -/
def limit : Cmd → Nat
  | .read => nrRequest
  | .write => nrRequest * 2 / 3

/-- The transfer is not needed after all. -/
def needless (s : Dev T B) (c : Call B) : Prop :=
  (c.cmd = .write ∧ (s.buf c.bh).bDirt = false) ∨ (c.cmd = .read ∧ (s.buf c.bh).bUptodate = true)

instance (s : Dev T B) (c : Call B) : Decidable (s.needless c) :=
  inferInstanceAs (Decidable (_ ∨ _))

/-- The slot is filled in. -/
def fillRequest (s : Dev T B) (req : Nat) (c : Call B) : Dev T B :=
  s.setRequest req fun _ =>
    { dev := (s.buf c.bh).bDev
      cmd := c.cmd
      errors := 0
      sector := (s.buf c.bh).bBlocknr * 2 % 4294967296
      nrSectors := 2
      bh := some c.bh
      next := none }

/-- `if (req->bh) req->bh->b_dirt = 0;` -/
def clearDirt (s : Dev T B) : Option B → Dev T B
  | none => s
  | some b => s.setBuf b fun h => { h with bDirt := false }

/-- `req->next=tmp->next; tmp->next=req;` -/
def linkBehind (s : Dev T B) (req tmp : Nat) : Dev T B :=
  (s.setRequest req fun r => { r with next := (s.request tmp).next }).setRequest tmp
    fun r => { r with next := some req }

/-- `add_request`, without the call of the driver for a queue that was empty. -/
def addRequest (m req : Nat) (s : Dev T B) : Option (Dev T B) :=
  let s := s.setRequest req fun r => { r with next := none }
  let s := s.clearDirt (s.request req).bh
  match s.current m with
  | none => some (s.setCurrent m (some req))
  | some head =>
    (findPlace s.request req nrRequest head).map fun tmp => s.linkBehind req tmp

/-- The task at `pc` runs up to the next place where an interrupt matters. -/
def advance (s : Dev T B) (t : T) (c : Call B) : Pc → Option (Dev T B)
  | .lock =>
    if (s.buf c.bh).bLock then some (s.sleep t .lock c)
    else if s.needless c then some (((s.setLock c.bh true).setLock c.bh false).leave t)
    else some ((s.setLock c.bh true).goOn t (.scan (limit c.cmd)) c)
  | .scan 0 =>
    if c.rwAhead then some ((s.setLock c.bh false).leave t)
    else some (s.sleep t (.scan (limit c.cmd)) c)
  | .scan (n + 1) =>
    if (s.request n).dev < 0 then some (s.goOn t (.fill n) c) else some (s.goOn t (.scan n) c)
  | .fill req => ((s.fillRequest req c).addRequest c.major req).map (leave · t)

/-- The checks of `INIT_REQUEST`; the result is `CURRENT`. -/
def initRequest (s : Dev T B) (m : Nat) : Except String (Option Nat) :=
  match s.current m with
  | none => .ok none
  | some r =>
    if major (s.request r).dev ≠ m then .error "request list destroyed"
    else
      match (s.request r).bh with
      | none => .ok (some r)
      | some b => if (s.buf b).bLock then .ok (some r) else .error "block not locked"

/-- `if (CURRENT->bh)` and what depends on it in `end_request`. -/
def finish (s : Dev T B) (uptodate : Bool) : Option B → Dev T B
  | none => s
  | some b => (s.setBuf b fun h => { h with bUptodate := uptodate }).setLock b false

/-- `end_request`, with `r` as `CURRENT`. -/
def endRequest (s : Dev T B) (m r : Nat) (uptodate : Bool) : Dev T B :=
  ((s.finish uptodate (s.request r).bh).setRequest r fun q => { q with dev := -1 }).setCurrent m
    (s.request r).next

/-- The test of `do_rd_request`: the ram disk has minor 1, and the sectors lie within it. -/
def rdFits (rdStart rdLength : Nat) (r : Request B) : Bool :=
  r.dev % 256 = 1 &&
    ((rdStart + r.sector * 512) % 4294967296 + r.nrSectors * 512) % 4294967296 ≤
      (rdStart + rdLength) % 4294967296

/-- `do_rd_request`: it completes what is queued for the ram disk, in at most `fuel` turns. The bytes
it copies are not modelled. -/
def doRdRequest (rdStart rdLength : Nat) : Nat → Dev T B → Except String (Dev T B)
  | 0, _ => .error "too many turns"
  | fuel + 1, s =>
    match s.initRequest 1 with
    | .error e => .error e
    | .ok none => .ok s
    | .ok (some r) =>
      doRdRequest rdStart rdLength fuel (s.endRequest 1 r (rdFits rdStart rdLength (s.request r)))

end Dev

end Linux011.Blk
