import Mathlib.Algebra.Group.Nat.Defs
import Mathlib.Data.List.Basic
import Linux011.Blk.Request

/-!
# The floppy driver

`kernel/blk_drv/floppy.c`. The driver runs from `do_fd_request` on, or waits for an interrupt or for a timer. A
request that comes while it waits goes behind `CURRENT`.

The bytes that go to the controller, the data that it moves and the motors are left out. What the hardware has a say
in are arguments: whether the controller takes the bytes that are sent, and what it answers.
-/

namespace Linux011.Blk

/-- The fields of a `floppy_struct` that the driver itself uses. -/
structure FloppyStruct where
  size : Nat
  sect : Nat
  head : Nat
  stretch : Nat
  rate : Int
  spec1 : Int

def floppyType : List FloppyStruct :=
  [⟨0, 0, 0, 0, 0x00, 0x00⟩, ⟨720, 9, 2, 0, 0x02, 0xDF⟩, ⟨2400, 15, 2, 0, 0x00, 0xDF⟩, ⟨720, 9, 2, 1, 0x02, 0xDF⟩,
    ⟨1440, 9, 2, 0, 0x02, 0xDF⟩, ⟨720, 9, 2, 1, 0x01, 0xDF⟩, ⟨1440, 9, 2, 0, 0x01, 0xDF⟩, ⟨2880, 18, 2, 0, 0x00, 0xCF⟩]

/-- `behind` is what stands behind `floppy_type`, and `low` the word that `bad_flp_intr` takes for `errors` when
`CURRENT` is `NULL`. -/
structure Floppies where
  behind : Nat → FloppyStruct
  low : Nat

def Floppies.floppy (F : Floppies) (i : Nat) : FloppyStruct := floppyType.getD i (F.behind i)

/-- A request, with its minor device. -/
structure FdRequest where
  dev : Nat
  cmd : Cmd
  errors : Nat
  sector : Nat

/-- What `do_floppy` points to. -/
inductive FdHandler where
  | rwInterrupt
  | seekInterrupt
  | recalInterrupt
  | resetInterrupt
deriving DecidableEq

/-- The functions that the driver gives to `add_timer`. -/
inductive FdTimer where
  | floppyOnInterrupt
  | transfer
deriving DecidableEq

/-- The bytes that the controller answers with, and whether it then says that there are no more. -/
structure Answer where
  bytes : List UInt8
  ends : Bool

/-- `running` says that `do_fd_request` is called. The first request of the queue is `CURRENT`, and `selectedDrive`
are the two lowest bits of `current_DOR`. -/
structure Fd where
  queue : List FdRequest
  recalibrate : Bool
  reset : Bool
  seek : Bool
  curSpec1 : Int
  curRate : Int
  floppy : Nat
  currentDrive : Nat
  seekTrack : UInt8
  currentTrack : UInt8
  selected : Bool
  selectedDrive : Nat
  reply : Nat → UInt8
  doFloppy : Option FdHandler
  timers : List FdTimer
  running : Bool
  ended : List (FdRequest × Bool)

namespace Fd

def maxErrors : Nat := 8

def maxReplies : Nat := 7

/-- `output_byte`, for some bytes; `taken` says that the controller takes all of them. -/
def outputBytes (taken : Bool) (s : Fd) : Fd := if s.reset || taken then s else { s with reset := true }

/-- `result`; it is -1 if there is no answer. What is left of an older answer stays in `reply_buffer`. -/
def result (a : Answer) (s : Fd) : Int × Fd :=
  if s.reset then (-1, s)
  else
    let s := { s with reply := fun i => a.bytes.getD i (s.reply i) }
    if a.ends ∧ a.bytes.length ≤ maxReplies then (a.bytes.length, s) else (-1, { s with reset := true })

def st0 (s : Fd) : UInt8 := s.reply 0

def st1 (s : Fd) : UInt8 := s.reply 1

def st2 (s : Fd) : UInt8 := s.reply 2

def floppyDeselect (s : Fd) : Fd := { s with selected := false }

/-- `end_request`, for the request `r` with `rest` behind it. -/
def endRequest (r : FdRequest) (rest : List FdRequest) (uptodate : Bool) (s : Fd) : Fd :=
  { s with queue := rest, ended := s.ended ++ [(r, uptodate)] }

/-- What `CURRENT->errors` is. -/
def currentErrors (F : Floppies) (s : Fd) : Nat :=
  match s.queue with
  | [] => F.low
  | r :: _ => r.errors

/-- `bad_flp_intr`, for the request `r` with `rest` behind it. -/
def badFlpIntr (F : Floppies) (r : FdRequest) (rest : List FdRequest) (s : Fd) : Fd :=
  let r := { r with errors := r.errors + 1 }
  let s := if maxErrors < r.errors then s.floppyDeselect.endRequest r rest false else { s with queue := r :: rest }
  if maxErrors / 2 < s.currentErrors F then { s with reset := true } else { s with recalibrate := true }

/-- `do_fd_request()` at the end of a function. -/
def call (s : Fd) : Fd := { s with running := true }

/-- `if (reset) do_fd_request()` -/
def callIfReset (s : Fd) : Fd := if s.reset then s.call else s

def rwInterrupt (F : Floppies) (a : Answer) (s : Fd) : Except String Fd :=
  let (n, s) := s.result a
  match s.queue with
  | [] => .error "NULL"
  | r :: rest =>
    if n ≠ 7 ∨ s.st0 &&& 0xf8 ≠ 0 ∨ s.st1 &&& 0xbf ≠ 0 ∨ s.st2 &&& 0x73 ≠ 0 then
      if s.st1 &&& 0x02 ≠ 0 then .ok (s.floppyDeselect.endRequest r rest false).call
      else .ok (badFlpIntr F r rest s).call
    else .ok (s.floppyDeselect.endRequest r rest true).call

/-- `setup_rw_floppy`; `setup_DMA` looks at `CURRENT`. -/
def setupRwFloppy (taken : Bool) (s : Fd) : Except String Fd :=
  match s.queue with
  | [] => .error "NULL"
  | _ :: _ => .ok ({ s with doFloppy := some .rwInterrupt }.outputBytes taken).callIfReset

/-- `seek_interrupt`; `sensed` and `taken` are the bytes of `FD_SENSEI` and of the command. -/
def seekInterrupt (F : Floppies) (sensed : Bool) (a : Answer) (taken : Bool) (s : Fd) : Except String Fd :=
  let (n, s) := (s.outputBytes sensed).result a
  if n ≠ 2 ∨ s.st0 &&& 0xF8 ≠ 0x20 ∨ s.st1 ≠ s.seekTrack then
    match s.queue with
    | [] => .error "NULL"
    | r :: rest => .ok (badFlpIntr F r rest s).call
  else { s with currentTrack := s.st1 }.setupRwFloppy taken

/-- `FD_SPECIFY`, if the type of the disk is another one than before. -/
def specify (F : Floppies) (taken : Bool) (s : Fd) : Fd :=
  let s :=
    if s.curSpec1 ≠ (F.floppy s.floppy).spec1 then
      { s with curSpec1 := (F.floppy s.floppy).spec1 }.outputBytes taken
    else s
  { s with curRate := (F.floppy s.floppy).rate }

def transfer (F : Floppies) (specified taken : Bool) (s : Fd) : Except String Fd :=
  let s := s.specify F specified
  -- a byte of `FD_SPECIFY` has not been taken
  if s.reset then .ok s.call
  else if !s.seek then s.setupRwFloppy taken
  else .ok ({ s with doFloppy := some .seekInterrupt }.outputBytes taken).callIfReset

/-- The answer to `FD_SENSEI` after a recalibration. -/
def senseFailed (a : Answer) (s : Fd) : Bool × Fd :=
  let (n, s) := s.result a
  (n ≠ 2 ∨ s.st0 &&& 0xE0 = 0x60, s)

def recalInterrupt (sensed : Bool) (a : Answer) (s : Fd) : Fd :=
  let (failed, s) := (s.outputBytes sensed).senseFailed a
  if failed then { s with reset := true }.call else { s with recalibrate := false }.call

def unexpectedFloppyInterrupt (sensed : Bool) (a : Answer) (s : Fd) : Fd :=
  let (failed, s) := (s.outputBytes sensed).senseFailed a
  if failed then { s with reset := true } else { s with recalibrate := true }

def recalibrateFloppy (taken : Bool) (s : Fd) : Fd :=
  ({ s with recalibrate := false, currentTrack := 0, doFloppy := some .recalInterrupt }.outputBytes taken).callIfReset

def resetInterrupt (sensed : Bool) (a : Answer) (specified : Bool) (s : Fd) : Fd :=
  (((s.outputBytes sensed).result a).2.outputBytes specified).call

def resetFloppy (s : Fd) : Fd :=
  { s with reset := false, curSpec1 := -1, curRate := -1, recalibrate := true, doFloppy := some .resetInterrupt }

def floppyOnInterrupt (F : Floppies) (specified taken : Bool) (s : Fd) : Except String Fd :=
  let s := { s with selected := true }
  if s.currentDrive ≠ s.selectedDrive then
    .ok { s with selectedDrive := s.currentDrive, timers := .transfer :: s.timers }
  else s.transfer F specified taken

/-- `ticks_to_floppy_on`, as far as the drive is concerned. -/
def ticksToFloppyOn (nr : Nat) (s : Fd) : Fd := if s.selected then s else { s with selectedDrive := nr }

/-- From the label `repeat` of `do_fd_request` on, with the requests that are left. `INIT_REQUEST` finds them as they
should be. -/
def initRequest (F : Floppies) : List FdRequest → Fd → Except String Fd
  | [], s => .ok s
  | r :: rest, s =>
    let g := F.floppy (r.dev / 4)
    let drive := r.dev % 4
    -- `seek` is not cleared again on the way back to `repeat`
    let s := { s with floppy := r.dev / 4, seek := s.seek || s.currentDrive != drive, currentDrive := drive }
    if g.size < (r.sector + 2) % 2 ^ 32 then initRequest F rest (s.endRequest r rest false)
    else if g.sect = 0 ∨ g.head = 0 then .error "divide error"
    else
      let track := UInt8.ofNat (r.sector / g.sect / g.head)
      let seekTrack := UInt8.ofNat (track.toNat * 2 ^ g.stretch)
      let s := { s with seekTrack, seek := s.seek || seekTrack != s.currentTrack }
      let s := s.ticksToFloppyOn drive
      .ok { s with timers := .floppyOnInterrupt :: s.timers }

def doFdRequest (F : Floppies) (taken : Bool) (s : Fd) : Except String Fd :=
  let s := { s with running := false, seek := false }
  if s.reset then .ok s.resetFloppy
  else if s.recalibrate then .ok (s.recalibrateFloppy taken)
  else initRequest F s.queue s

/-- `floppy_interrupt`, which takes the handler out of `do_floppy`. -/
def interrupt (F : Floppies) (sensed : Bool) (a : Answer) (taken : Bool) (s : Fd) : Except String Fd :=
  let s' := { s with doFloppy := none }
  match s.doFloppy with
  | none => .ok (s'.unexpectedFloppyInterrupt sensed a)
  | some .rwInterrupt => s'.rwInterrupt F a
  | some .seekInterrupt => s'.seekInterrupt F sensed a taken
  | some .recalInterrupt => .ok (s'.recalInterrupt sensed a)
  | some .resetInterrupt => .ok (s'.resetInterrupt sensed a taken)

/-- The call of a timer. -/
def fire (F : Floppies) (specified taken : Bool) (t : FdTimer) (s : Fd) : Except String Fd :=
  match t with
  | .floppyOnInterrupt => s.floppyOnInterrupt F specified taken
  | .transfer => s.transfer F specified taken

/-- The variables at the start. -/
def start : Fd :=
  ⟨[], false, false, false, -1, -1, 0, 0, 0, 255, false, 0, fun _ => 0, none, [], false, []⟩

end Fd

/-- A request comes, `do_fd_request` is called, the controller interrupts, a timer is called, or a task turns a drive
on. -/
inductive FdStep (F : Floppies) : Fd → Fd → Prop
  | arrive {s : Fd} {r : FdRequest} {l₁ l₂ : List FdRequest} (hidle : s.running = false) (hfresh : r.errors = 0)
      (hqueue : s.queue.tail = l₁ ++ l₂) :
      FdStep F s { s with queue := s.queue.take 1 ++ (l₁ ++ r :: l₂), running := s.queue.isEmpty }
  | request {s s' : Fd} (taken : Bool) (hrunning : s.running = true) (hok : s.doFdRequest F taken = .ok s') :
      FdStep F s s'
  | interrupt {s s' : Fd} (sensed : Bool) (a : Answer) (taken : Bool) (hidle : s.running = false)
      (hok : s.interrupt F sensed a taken = .ok s') : FdStep F s s'
  | timer {s s' : Fd} {t : FdTimer} {l₁ l₂ : List FdTimer} (specified taken : Bool) (hidle : s.running = false)
      (htimers : s.timers = l₁ ++ t :: l₂) (hok : { s with timers := l₁ ++ l₂ }.fire F specified taken t = .ok s') :
      FdStep F s s'
  | floppyOn {s : Fd} {nr : Nat} (hidle : s.running = false) (hnr : nr < 4) : FdStep F s (s.ticksToFloppyOn nr)

end Linux011.Blk
