import Mathlib.Data.List.Basic
import Mathlib.Data.Nat.ModEq
import Linux011.Blk.Request

/-!
# The hard disk driver

`kernel/blk_drv/hd.c`, and what its interrupt handlers do with `CURRENT`. The driver runs in `do_hd_request`, which
is a loop, or waits for an interrupt. A request that comes while it waits goes behind `CURRENT`.

The controller transfers the sectors of a command one per interrupt, in their order; the driver sees the status at each
interrupt, and for a write whether the controller asks for the data. Each request carries two records that are no part
of the kernel: the transfers made for it, and how many errors were counted.
-/

namespace Linux011.Blk

/-- `struct hd_i_struct`, as far as sectors are concerned. -/
structure HdInfo where
  head : Nat
  sect : Nat
  cyl : Nat

/-- `struct hd_struct` -/
structure Part where
  startSect : Nat
  nrSects : Nat

/-- `low` is the word that `bad_rw_intr` takes for `errors` when `CURRENT` is `NULL`. -/
structure Disks where
  hdInfo : Nat → HdInfo
  nrHd : Nat
  hd : Nat → Part
  low : Nat

inductive WinCmd where
  | restore
  | read
  | write
  | specify
  deriving DecidableEq

/-- The registers of the controller when it gets a command. -/
structure Command where
  drive : Nat
  nsect : Nat
  sect : Nat
  head : Nat
  cyl : Nat
  cmd : WinCmd

/-- `port_read` or `port_write` of a sector, the `k`-th of a command; `good` says that an interrupt without an error
came for it. -/
structure Transfer where
  rw : Cmd
  command : Command
  k : Nat
  buffer : Nat
  good : Bool

/-- The fields of a `buffer_head` that the driver uses. -/
structure Block where
  bBlocknr : Nat
  bData : Nat

/-- A request, with its minor device. -/
structure HdRequest where
  dev : Nat
  cmd : Cmd
  errors : Nat
  sector : Nat
  nrSectors : Nat
  buffer : Nat
  bh : Block
  log : List Transfer
  counted : Nat

/-- What `do_hd` points to. -/
inductive Handler where
  | readIntr
  | writeIntr
  | recalIntr
  deriving DecidableEq

/-- `running` says that the driver is at the label `repeat` of `do_hd_request`, and `pending` that the controller will
interrupt. `done` sectors of the command have been transferred. The first request of the queue is `CURRENT`. -/
structure Hd where
  queue : List HdRequest
  reset : Bool
  recalibrate : Bool
  doHd : Option Handler
  running : Bool
  command : Command
  done : Nat
  pending : Bool
  ended : List (HdRequest × Bool)

def maxErrors : Nat := 7

/-- As `make_request` fills it in. -/
def HdRequest.Fresh (r : HdRequest) : Prop :=
  r.errors = 0 ∧ r.sector = r.bh.bBlocknr * 2 % 2 ^ 32 ∧ r.nrSectors = 2 ∧ r.buffer = r.bh.bData ∧ r.log = [] ∧
    r.counted = 0

/-- `dev >= 5*NR_HD || block+2 > hd[dev].nr_sects` -/
def HdRequest.OutOfRange (D : Disks) (r : HdRequest) : Prop :=
  5 * D.nrHd ≤ r.dev ∨ (D.hd r.dev).nrSects < (r.sector + 2) % 2 ^ 32

instance (D : Disks) (r : HdRequest) : Decidable (r.OutOfRange D) := inferInstanceAs (Decidable (_ ∨ _))

namespace Hd

/-- `hd_out`, to a controller that is ready or not. -/
def hdOut (ready : Bool) (drive nsect sect head cyl : Nat) (cmd : WinCmd) (intr : Handler) (s : Hd) :
    Except String Hd :=
  if 1 < drive ∨ 15 < head then .error "Trying to write bad sector"
  else if !ready then .error "HD controller not ready"
  else .ok { s with
    doHd := some intr
    command := ⟨drive, nsect % 256, sect % 256, head, cyl % 65536, cmd⟩
    done := 0
    pending := cmd != .write }

/-- `end_request`, for the request `r` with `rest` behind it. -/
def endRequest (r : HdRequest) (rest : List HdRequest) (uptodate : Bool) (s : Hd) : Hd :=
  { s with queue := rest, ended := s.ended ++ [(r, uptodate)] }

/-- What `CURRENT->errors` is. -/
def currentErrors (D : Disks) (s : Hd) : Nat :=
  match s.queue with
  | [] => D.low
  | r :: _ => r.errors

/-- `bad_rw_intr`, for the request `r` with `rest` behind it. -/
def badRwIntr (D : Disks) (r : HdRequest) (rest : List HdRequest) (s : Hd) : Hd :=
  let r := { r with errors := r.errors + 1, counted := r.counted + 1 }
  let s := if maxErrors ≤ r.errors then s.endRequest r rest false else { s with queue := r :: rest }
  if maxErrors / 2 < s.currentErrors D then { s with reset := true } else s

/-- `--CURRENT->nr_sectors`, and what is recorded of the sector. A request has two sectors, of which the first is even, so
neither counter wraps. -/
def transferred (r : HdRequest) (t : Transfer) : HdRequest :=
  { r with nrSectors := r.nrSectors - 1, log := r.log ++ [t] }

/-- `CURRENT->sector++; CURRENT->buffer += 512;` -/
def advance (r : HdRequest) : HdRequest := { r with sector := r.sector + 1, buffer := r.buffer + 512 }

/-- `read_intr`; `bad` is `win_result()`. -/
def readIntr (D : Disks) (bad : Bool) (s : Hd) : Except String Hd :=
  match s.queue with
  | [] => .error "NULL"
  | r :: rest =>
    if bad then .ok { badRwIntr D r rest s with running := true }
    else
      let r := { advance (transferred r ⟨.read, s.command, s.done, r.buffer, true⟩) with errors := 0 }
      if r.nrSectors ≠ 0 then
        .ok { s with
          queue := r :: rest
          doHd := some .readIntr
          done := s.done + 1
          pending := decide (s.done + 1 < s.command.nsect) }
      else .ok { s.endRequest r rest true with running := true }

/-- `write_intr` -/
def writeIntr (D : Disks) (bad : Bool) (s : Hd) : Except String Hd :=
  match s.queue with
  | [] => .error "NULL"
  | r :: rest =>
    if bad then .ok { badRwIntr D r rest s with running := true }
    else
      let r := transferred r ⟨.write, s.command, s.done, r.buffer, true⟩
      if r.nrSectors ≠ 0 then
        let r := advance r
        .ok { s with
          queue := { r with log := r.log ++ [⟨.write, s.command, s.done + 1, r.buffer, false⟩] } :: rest
          doHd := some .writeIntr
          done := s.done + 1
          pending := decide (s.done + 1 < s.command.nsect) }
      else .ok { s.endRequest r rest true with running := true }

def recalIntr (D : Disks) (bad : Bool) (s : Hd) : Except String Hd :=
  if bad then
    match s.queue with
    | [] => .error "NULL"
    | r :: rest => .ok { badRwIntr D r rest s with running := true }
  else .ok { s with running := true }

/-- `hd_interrupt`, which takes the handler out of `do_hd`. -/
def interrupt (D : Disks) (bad : Bool) (s : Hd) : Except String Hd :=
  let s' := { s with doHd := none, pending := false }
  match s.doHd with
  | none => .ok s'
  | some .readIntr => s'.readIntr D bad
  | some .writeIntr => s'.writeIntr D bad
  | some .recalIntr => s'.recalIntr D bad

/-- After `hd_out` for a write. `drq` says if the controller asks for the data in time. -/
def writeOut (D : Disks) (drq : Bool) (r : HdRequest) (rest : List HdRequest) (s : Hd) : Hd :=
  if drq then
    { s with
      queue := { r with log := r.log ++ [⟨.write, s.command, 0, r.buffer, false⟩] } :: rest
      pending := true }
  else { badRwIntr D r rest s with running := true }

/-- One turn of the loop of `do_hd_request`. `INIT_REQUEST` finds the requests as they should be. -/
def turn (D : Disks) (ready drq : Bool) (s : Hd) : Except String Hd :=
  match s.queue with
  | [] => .ok { s with running := false }
  | r :: rest =>
    if r.OutOfRange D then .ok (s.endRequest r rest false)
    else
      let block := (r.sector + (D.hd r.dev).startSect) % 2 ^ 32
      let drive := r.dev / 5
      let g := D.hdInfo drive
      let sec := block % g.sect + 1
      let head := block / g.sect % g.head
      let cyl := block / g.sect / g.head
      let idle := { s with running := false }
      if s.reset then
        { idle with reset := false, recalibrate := true }.hdOut ready drive g.sect g.sect
          ((g.head + (2 ^ 32 - 1)) % 2 ^ 32) g.cyl .specify .recalIntr
      else if s.recalibrate then
        { idle with recalibrate := false }.hdOut ready drive g.sect 0 0 0 .restore .recalIntr
      else
        match r.cmd with
        | .write =>
          (idle.hdOut ready drive r.nrSectors sec head cyl .write .writeIntr).map (writeOut D drq r rest)
        | .read => idle.hdOut ready drive r.nrSectors sec head cyl .read .readIntr

/-- Nothing is queued, and no interrupt is awaited. -/
def start : Hd := ⟨[], false, false, none, false, ⟨0, 0, 0, 0, 0, .restore⟩, 0, false, []⟩

end Hd

/-- A request comes, the loop of `do_hd_request` goes round, or the controller interrupts. -/
inductive HdStep (D : Disks) : Hd → Hd → Prop
  | arrive {s : Hd} {r : HdRequest} {l₁ l₂ : List HdRequest} (hidle : s.running = false) (hfresh : r.Fresh)
      (hqueue : s.queue.tail = l₁ ++ l₂) :
      HdStep D s { s with queue := s.queue.take 1 ++ (l₁ ++ r :: l₂), running := s.queue.isEmpty }
  | turn {s s' : Hd} (ready drq : Bool) (hrunning : s.running = true) (hok : s.turn D ready drq = .ok s') :
      HdStep D s s'
  | interrupt {s s' : Hd} (bad : Bool) (hidle : s.running = false) (hpending : s.pending = true)
      (hok : s.interrupt D bad = .ok s') : HdStep D s s'

end Linux011.Blk
