import Linux011.Kernel.WaitQueue
import Linux011.Lib.Outcome
import Linux011.Lib.Ring

/-!
# Pipes

`read_pipe` and `write_pipe` of `fs/pipe.c` on one pipe inode. The ring is the page at `i_size`, with
`i_zone[0]` and `i_zone[1]` as head and tail. A task gives up the processor only in `sleep_on`, so a
call is a sequence of stretches: from its start or from its waking up, to where it sleeps or returns.
The user copies of a stretch are atomic.

`bytes_in_order` compares what all readers have taken with what all writers have stored.
-/

namespace Linux011.Fs

open Kernel (WaitQueue)

abbrev pageSize : Nat := 4096

/-- The inode of a pipe. -/
structure Pipe (T : Type _) where
  ring : Lib.Ring UInt8 pageSize
  iCount : Nat
  iWait : WaitQueue T

/-- The variables of a `read_pipe` call, and the count it was called with; `buf` is what it has put
into user memory. -/
structure ReadCall where
  asked : Nat
  count : Nat
  read : Nat
  buf : List UInt8
  deriving DecidableEq

/-- The variables of a `write_pipe` call, and the bytes it was called with; `rest` is what it has yet
to read from user memory, so `count` is its length. -/
structure WriteCall where
  given : List UInt8
  rest : List UInt8
  written : Nat
  deriving DecidableEq

/-- How a stretch of a call ends. `sigpipe` says that the caller gets this signal. -/
inductive Control where
  | sleeps
  | returns (ret : Int) (sigpipe : Bool)
  deriving DecidableEq

namespace Pipe

variable {T : Type _}

/-! ## The code -/

/-- The bytes one round of `read_pipe` takes: up to the end of the page, what is asked for, and what
is there. -/
def readChars (c : ReadCall) (p : Pipe T) : Nat :=
  min (min (pageSize - p.ring.tail) c.count) p.ring.used

def readRound (c : ReadCall) (p : Pipe T) : ReadCall :=
  let chars := readChars c p
  { c with
    count := c.count - chars
    read := c.read + chars
    buf := c.buf ++ p.ring.front chars }

def takeRound (c : ReadCall) (p : Pipe T) : Pipe T :=
  { p with ring := p.ring.drop (readChars c p) }

theorem readChars_pos {c : ReadCall} {p : Pipe T} (hc : c.count ≠ 0) (hu : p.ring.used ≠ 0) :
    0 < readChars c p := by
  have := p.ring.tail_lt
  unfold readChars
  omega

/-- The free bytes that `write_pipe` sees: one cell of the ring stays empty. -/
def room (p : Pipe T) : Nat :=
  pageSize - 1 - p.ring.used

def writeChars (c : WriteCall) (p : Pipe T) : Nat :=
  min (min (pageSize - p.ring.head) c.rest.length) p.room

def writeRound (c : WriteCall) (p : Pipe T) : WriteCall :=
  let chars := writeChars c p
  { c with rest := c.rest.drop chars, written := c.written + chars }

def storeRound (c : WriteCall) (p : Pipe T) : Pipe T :=
  { p with ring := p.ring.push (c.rest.take (writeChars c p)) }

theorem writeChars_pos {c : WriteCall} {p : Pipe T} (hc : c.rest ≠ []) (hr : p.room ≠ 0) :
    0 < writeChars c p := by
  have := p.ring.head_lt
  have := List.length_pos_iff.mpr hc
  unfold writeChars
  omega

variable [DecidableEq T]

def wakeUp (p : Pipe T) : Pipe T :=
  { p with iWait := p.iWait.wakeUp }

/-- `read_pipe`, up to its next `sleep_on` or its end. -/
def readPipe (c : ReadCall) (p : Pipe T) : Control × ReadCall × Pipe T :=
  if hc : c.count = 0 then (.returns c.read false, c, p.wakeUp)
  else if hu : p.ring.used = 0 then
    if p.iCount ≠ 2 then (.returns c.read false, c, p.wakeUp) else (.sleeps, c, p.wakeUp)
  else readPipe (readRound c p) (takeRound c p)
termination_by c.count
decreasing_by
  have := readChars_pos hc hu
  simp only [readRound]
  omega

/-- `write_pipe`, up to its next `sleep_on` or its end. -/
def writePipe (c : WriteCall) (p : Pipe T) : Control × WriteCall × Pipe T :=
  if hc : c.rest = [] then (.returns c.written false, c, p.wakeUp)
  else if hr : p.room = 0 then
    if p.iCount ≠ 2 then
      (.returns (if c.written ≠ 0 then c.written else -1) true, c, p.wakeUp)
    else (.sleeps, c, p.wakeUp)
  else writePipe (writeRound c p) (storeRound c p)
termination_by c.rest.length
decreasing_by
  have := writeChars_pos hc hr
  have := List.length_pos_iff.mpr hc
  simp only [writeRound, List.length_drop]
  omega

/-- `iput` on a pipe inode. The page is freed with the last reference; nobody has a descriptor then. -/
def iput (p : Pipe T) : Pipe T :=
  { p.wakeUp with iCount := p.iCount - 1 }

@[simp] theorem iput_ring (p : Pipe T) : p.iput.ring = p.ring := rfl
@[simp] theorem iput_iCount (p : Pipe T) : p.iput.iCount = p.iCount - 1 := rfl

/-! ### What a stretch does -/

/-- A stretch of `read_pipe` moves bytes from the ring to the caller, and counts them. It returns when
it has all it was asked for, or when an end is closed. -/
structure ReadDone (c : ReadCall) (p : Pipe T) (ctl : Control) (c' : ReadCall) (p' : Pipe T)
    (taken : List UInt8) : Prop where
  asked : c'.asked = c.asked
  buf : c'.buf = c.buf ++ taken
  contents : p.ring.contents = taken ++ p'.ring.contents
  read : c'.read = c.read + taken.length
  count : c'.count + taken.length = c.count
  iCount : p'.iCount = p.iCount
  returns : ∀ ret sigpipe, ctl = .returns ret sigpipe →
    ret = c'.read ∧ (c'.count = 0 ∨ p.iCount ≠ 2)

theorem readPipe_spec (c : ReadCall) (p : Pipe T) :
    ∃ taken, ReadDone c p (readPipe c p).1 (readPipe c p).2.1 (readPipe c p).2.2 taken := by
  induction c, p using readPipe.induct with
  | case1 c p hc =>
    rw [readPipe, dif_pos hc]
    refine ⟨[], rfl, by simp, rfl, rfl, rfl, rfl, ?_⟩
    rintro ret sigpipe ⟨⟩
    exact ⟨rfl, .inl hc⟩
  | case2 c p hc hu hclosed =>
    rw [readPipe, dif_neg hc, dif_pos hu, if_pos hclosed]
    refine ⟨[], rfl, by simp, rfl, rfl, rfl, rfl, ?_⟩
    rintro ret sigpipe ⟨⟩
    exact ⟨rfl, .inr hclosed⟩
  | case3 c p hc hu hopen =>
    rw [readPipe, dif_neg hc, dif_pos hu, if_neg hopen]
    exact ⟨[], rfl, by simp, rfl, rfl, rfl, rfl, fun _ _ h => by cases h⟩
  | case4 c p hc hu ih =>
    rw [readPipe, dif_neg hc, dif_neg hu]
    obtain ⟨taken, ih⟩ := ih
    have hchars : readChars c p ≤ c.count ∧ readChars c p ≤ p.ring.used ∧
        p.ring.tail + readChars c p ≤ pageSize := by
      have := p.ring.tail_lt
      unfold readChars
      omega
    have hsplit := p.ring.contents_drop hchars.2.1 hchars.2.2
    refine ⟨p.ring.front (readChars c p) ++ taken, ih.asked, ?_, ?_, ?_, ?_, ih.iCount, ih.returns⟩
    · rw [ih.buf, readRound, List.append_assoc]
    · have htail : (p.ring.drop (readChars c p)).contents = taken ++ _ := ih.contents
      rw [hsplit, htail, List.append_assoc]
    · rw [ih.read, List.length_append, Lib.Ring.front_length]
      exact Nat.add_assoc _ _ _
    · have hcount : _ + taken.length = c.count - readChars c p := ih.count
      rw [List.length_append, Lib.Ring.front_length]
      omega

/-- A stretch of `write_pipe` moves bytes from the caller to the ring, and counts them. It returns the
count when it has stored all, or when an end is closed; then it returns -1 if the count is zero. -/
structure WriteDone (c : WriteCall) (p : Pipe T) (ctl : Control) (c' : WriteCall) (p' : Pipe T)
    (stored : List UInt8) : Prop where
  given : c'.given = c.given
  rest : c.rest = stored ++ c'.rest
  contents : p'.ring.contents = p.ring.contents ++ stored
  written : c'.written = c.written + stored.length
  iCount : p'.iCount = p.iCount
  returns : ∀ ret sigpipe, ctl = .returns ret sigpipe →
    (c'.rest = [] ∧ ret = c'.written ∧ sigpipe = false) ∨
    (c'.rest ≠ [] ∧ p.iCount ≠ 2 ∧ sigpipe = true ∧
      ret = if c'.written ≠ 0 then (c'.written : Int) else -1)

theorem writePipe_spec (c : WriteCall) (p : Pipe T) :
    ∃ stored, WriteDone c p (writePipe c p).1 (writePipe c p).2.1 (writePipe c p).2.2 stored := by
  induction c, p using writePipe.induct with
  | case1 c p hc =>
    rw [writePipe, dif_pos hc]
    refine ⟨[], rfl, rfl, (List.append_nil _).symm, rfl, rfl, ?_⟩
    rintro ret sigpipe ⟨⟩
    exact .inl ⟨hc, rfl, rfl⟩
  | case2 c p hc hr hclosed =>
    rw [writePipe, dif_neg hc, dif_pos hr, if_pos hclosed]
    refine ⟨[], rfl, rfl, (List.append_nil _).symm, rfl, rfl, ?_⟩
    rintro ret sigpipe ⟨⟩
    exact .inr ⟨hc, hclosed, rfl, rfl⟩
  | case3 c p hc hr hopen =>
    rw [writePipe, dif_neg hc, dif_pos hr, if_neg hopen]
    exact ⟨[], rfl, rfl, (List.append_nil _).symm, rfl, rfl, fun _ _ h => by cases h⟩
  | case4 c p hc hr ih =>
    rw [writePipe, dif_neg hc, dif_neg hr]
    obtain ⟨stored, ih⟩ := ih
    have hused := p.ring.used_lt
    have hchars : writeChars c p ≤ c.rest.length ∧ p.ring.used + writeChars c p < pageSize ∧
        p.ring.head + writeChars c p ≤ pageSize := by
      have := p.ring.head_lt
      unfold writeChars room
      omega
    have hlen : (c.rest.take (writeChars c p)).length = writeChars c p :=
      List.length_take_of_le hchars.1
    have hpush := p.ring.contents_push (l := c.rest.take (writeChars c p)) (by omega) (by omega)
    refine ⟨c.rest.take (writeChars c p) ++ stored, ih.given, ?_, ?_, ?_, ih.iCount, ih.returns⟩
    · have hrest : c.rest.drop (writeChars c p) = stored ++ _ := ih.rest
      rw [List.append_assoc, ← hrest, List.take_append_drop]
    · rw [ih.contents, storeRound, hpush, List.append_assoc]
    · rw [ih.written, List.length_append, hlen]
      exact Nat.add_assoc _ _ _

end Pipe

/-! ## Readers and writers -/

/-- A pipe, the calls in progress on it, and which of its ends are open. -/
structure PipeSys (T : Type _) where
  pipe : Pipe T
  reading : T → Option ReadCall
  writing : T → Option WriteCall
  readEnd : Bool
  writeEnd : Bool

namespace PipeSys

variable {T : Type _}

/-- What happens: a stretch of a call, with the bytes it moves and, at its end, the return value and
the call as it then is; an end is closed; or a task does something outside `sleep_on`. -/
inductive Event (T : Type _) where
  | read (t : T) (taken : List UInt8) (fin : Option (Int × ReadCall))
  | write (t : T) (stored : List UInt8) (fin : Option (Int × WriteCall))
  | closeRead
  | closeWrite
  | other (t : T)

def Event.taken : Event T → List UInt8
  | .read _ taken _ => taken
  | _ => []

def Event.stored : Event T → List UInt8
  | .write _ stored _ => stored
  | _ => []

/-- The frame that stays behind when a stretch ends: none after a return. -/
def frame {C : Type _} (c : C) : Control → Option C
  | .sleeps => some c
  | .returns _ _ => none

/-- What the caller sees at the end of a stretch. -/
def result {C : Type _} (c : C) : Control → Option (Int × C)
  | .sleeps => none
  | .returns ret _ => some (ret, c)

variable [DecidableEq T]

/-- A stretch that does not return ends in `sleep_on(&inode->i_wait)`. -/
def settle (initTask t : T) (p : Pipe T) : Control → Except String (Pipe T)
  | .sleeps => (p.iWait.sleepOn initTask t).map fun w => { p with iWait := w }
  | .returns _ _ => .ok p

/-- A task starts a stretch by calling, or by running on after `schedule` in `sleep_on`. -/
inductive Enters {C : Type _} (start : C → Prop) (t : T) (idle : Prop) (p : Pipe T) :
    Option C → C → Pipe T → Prop
  | call {c : C} (hidle : idle) (hrun : p.iWait.state t = .running) (hc : start c) :
      Enters start t idle p none c p
  | resume {c : C} {tmp : Option T} (hin : p.iWait.tmp t = some tmp)
      (hrun : p.iWait.state t = .running) :
      Enters start t idle p (some c) c { p with iWait := p.iWait.wakened t tmp }

/-- `sys_read` and `sys_write` call with nothing done yet; a negative count is like zero. -/
def ReadStart (c : ReadCall) : Prop :=
  c.count = c.asked ∧ c.read = 0 ∧ c.buf = []

def WriteStart (c : WriteCall) : Prop :=
  c.rest = c.given ∧ c.written = 0

def Idle (s : PipeSys T) (t : T) : Prop :=
  s.reading t = none ∧ s.writing t = none

/-- An end is closed when the last descriptor of it is. A task inside a call still has its own. -/
inductive Step (initTask : T) : PipeSys T → Event T → PipeSys T → Prop
  | read {s : PipeSys T} {t : T} {c : ReadCall} {p p' : Pipe T} {taken : List UInt8}
      (hin : Enters ReadStart t (s.Idle t ∧ s.readEnd = true) s.pipe (s.reading t) c p)
      (htaken : (p.readPipe c).2.1.buf = c.buf ++ taken)
      (hout : settle initTask t (p.readPipe c).2.2 (p.readPipe c).1 = .ok p') :
      Step initTask s (.read t taken (result (p.readPipe c).2.1 (p.readPipe c).1))
        { s with
          pipe := p'
          reading := Function.update s.reading t (frame (p.readPipe c).2.1 (p.readPipe c).1) }
  | write {s : PipeSys T} {t : T} {c : WriteCall} {p p' : Pipe T} {stored : List UInt8}
      (hin : Enters WriteStart t (s.Idle t ∧ s.writeEnd = true) s.pipe (s.writing t) c p)
      (hstored : c.rest = stored ++ (p.writePipe c).2.1.rest)
      (hout : settle initTask t (p.writePipe c).2.2 (p.writePipe c).1 = .ok p') :
      Step initTask s (.write t stored (result (p.writePipe c).2.1 (p.writePipe c).1))
        { s with
          pipe := p'
          writing := Function.update s.writing t (frame (p.writePipe c).2.1 (p.writePipe c).1) }
  | closeRead {s : PipeSys T} (hopen : s.readEnd = true) (hnone : ∀ t, s.reading t = none) :
      Step initTask s .closeRead { s with pipe := s.pipe.iput, readEnd := false }
  | closeWrite {s : PipeSys T} (hopen : s.writeEnd = true) (hnone : ∀ t, s.writing t = none) :
      Step initTask s .closeWrite { s with pipe := s.pipe.iput, writeEnd := false }
  | other {s : PipeSys T} {t : T} {w : WaitQueue T}
      (h : WaitQueue.Step initTask s.pipe.iWait (.other t) w) :
      Step initTask s (.other t) { s with pipe := { s.pipe with iWait := w } }

/-- What `get_pipe_inode` and `sys_pipe` leave: an empty ring, both ends open, no calls. -/
structure Fresh (s : PipeSys T) : Prop where
  head : s.pipe.ring.head = 0
  tail : s.pipe.ring.tail = 0
  iCount : s.pipe.iCount = 2
  iWait : s.pipe.iWait.Empty
  idle : ∀ t, s.Idle t
  readEnd : s.readEnd = true
  writeEnd : s.writeEnd = true

/-! ### The invariant -/

/-- The counters of a read agree with what it has put into user memory. -/
def ReadKept (c : ReadCall) : Prop :=
  c.read = c.buf.length ∧ c.count + c.read = c.asked

/-- A write has stored the first `written` bytes it was given. -/
def WriteKept (c : WriteCall) : Prop :=
  ∃ done, c.given = done ++ c.rest ∧ c.written = done.length

/-- What has been stored is what has been taken and then what is in the ring; the counters of all
calls are right; the inode is held once for each open end. -/
structure Inv (s : PipeSys T) (taken stored : List UInt8) : Prop where
  fifo : stored = taken ++ s.pipe.ring.contents
  iCount : s.pipe.iCount = s.readEnd.toNat + s.writeEnd.toNat
  reading : ∀ t c, s.reading t = some c → s.readEnd = true ∧ ReadKept c
  writing : ∀ t c, s.writing t = some c → s.writeEnd = true ∧ WriteKept c

/-- What a return tells the caller in state `s`. -/
def Honest (s : PipeSys T) : Event T → Prop
  | .read _ _ (some (ret, c)) =>
    ret = c.buf.length ∧ c.buf.length ≤ c.asked ∧ (c.buf.length < c.asked → s.writeEnd = false)
  | .write _ _ (some (ret, c)) =>
    ∃ done, c.given = done ++ c.rest ∧
      ret = (if done = [] ∧ c.given ≠ [] then (-1 : Int) else done.length) ∧
      (c.rest ≠ [] → s.readEnd = false)
  | _ => True

variable {initTask : T} {s s' : PipeSys T} {e : Event T} {taken stored : List UInt8}

/-- Sleeping and waking change only the wait queue. -/
theorem settle_ok {t : T} {p p' : Pipe T} {ctl : Control} (h : settle initTask t p ctl = .ok p') :
    p'.ring = p.ring ∧ p'.iCount = p.iCount := by
  cases ctl with
  | sleeps =>
    obtain ⟨w, -, rfl⟩ := Lib.map_eq_ok.mp h
    exact ⟨rfl, rfl⟩
  | returns ret sigpipe =>
    cases h
    exact ⟨rfl, rfl⟩

theorem Enters.kept {C : Type _} {start : C → Prop} {t : T} {idle : Prop} {p p' : Pipe T}
    {f : Option C} {c : C} (h : Enters start t idle p f c p') :
    p'.ring = p.ring ∧ p'.iCount = p.iCount ∧ ((idle ∧ start c) ∨ f = some c) := by
  cases h with
  | call hidle hrun hc => exact ⟨rfl, rfl, .inl ⟨hidle, hc⟩⟩
  | resume hin hrun => exact ⟨rfl, rfl, .inr rfl⟩

omit [DecidableEq T] in
theorem Fresh.inv (h : s.Fresh) : s.Inv [] [] where
  fifo := by
    have hused : s.pipe.ring.used = 0 := by
      rw [Lib.Ring.used_eq, h.head, h.tail]
      rfl
    simp [Lib.Ring.contents, hused]
  iCount := by rw [h.iCount, h.readEnd, h.writeEnd]; rfl
  reading t c hc := by rw [(h.idle t).1] at hc; cases hc
  writing t c hc := by rw [(h.idle t).2] at hc; cases hc

/-- The call that a reader is in is fine, and the read end is open. -/
theorem Inv.reader (h : s.Inv taken stored) {t : T} {c : ReadCall} {p : Pipe T}
    (hin : Enters ReadStart t (s.Idle t ∧ s.readEnd = true) s.pipe (s.reading t) c p) :
    s.readEnd = true ∧ ReadKept c := by
  rcases hin.kept.2.2 with ⟨⟨-, hend⟩, hcount, hread, hbuf⟩ | hc
  · exact ⟨hend, by rw [hread, hbuf]; rfl, by rw [hcount, hread]; rfl⟩
  · exact h.reading t c hc

theorem Inv.writer (h : s.Inv taken stored) {t : T} {c : WriteCall} {p : Pipe T}
    (hin : Enters WriteStart t (s.Idle t ∧ s.writeEnd = true) s.pipe (s.writing t) c p) :
    s.writeEnd = true ∧ WriteKept c := by
  rcases hin.kept.2.2 with ⟨⟨-, hend⟩, hrest, hwritten⟩ | hc
  · exact ⟨hend, [], by rw [hrest]; rfl, hwritten⟩
  · exact h.writing t c hc

omit [DecidableEq T] in
theorem ReadKept.done {c c' : ReadCall} {p p' : Pipe T} {ctl : Control} {l : List UInt8}
    (hk : ReadKept c) (h : Pipe.ReadDone c p ctl c' p' l) : ReadKept c' := by
  have hread := h.read
  have hcount := h.count
  have hasked := h.asked
  obtain ⟨hlen, hsum⟩ := hk
  refine ⟨?_, by omega⟩
  rw [h.buf, List.length_append, hread, hlen]

omit [DecidableEq T] in
theorem WriteKept.done {c c' : WriteCall} {p p' : Pipe T} {ctl : Control} {l : List UInt8}
    (hk : WriteKept c) (h : Pipe.WriteDone c p ctl c' p' l) : WriteKept c' := by
  obtain ⟨done, hgiven, hwritten⟩ := hk
  refine ⟨done ++ l, ?_, ?_⟩
  · rw [h.given, hgiven, h.rest, List.append_assoc]
  · rw [h.written, hwritten, List.length_append]

/-- A frame left by one task beside the frames of the others. -/
theorem frame_update {C : Type _} {f : T → Option C} {t u : T} {ctl : Control} {c c' : C}
    (h : Function.update f t (frame c ctl) u = some c') : c' = c ∨ f u = some c' := by
  by_cases hu : u = t
  · rw [hu, Function.update_self] at h
    cases ctl with
    | sleeps => exact .inl (Option.some.inj h).symm
    | returns ret sigpipe => cases h
  · rw [Function.update_of_ne hu] at h
    exact .inr h

/-- Every step keeps the invariant, with its bytes added to the histories. -/
theorem Inv.step (h : s.Inv taken stored) (hst : Step initTask s e s') :
    s'.Inv (taken ++ e.taken) (stored ++ e.stored) := by
  cases hst with
  | @read t c p p' bytes hin hbytes hout =>
    obtain ⟨hring, hcnt, -⟩ := hin.kept
    obtain ⟨hring', hcnt'⟩ := settle_ok hout
    obtain ⟨hend, hkept⟩ := h.reader hin
    obtain ⟨l, hl⟩ := Pipe.readPipe_spec c p
    obtain rfl : bytes = l := List.append_cancel_left (hbytes.symm.trans hl.buf)
    refine ⟨?_, ?_, fun u c' hu => ?_, h.writing⟩
    · simp only [Event.taken, Event.stored, List.append_nil]
      rw [h.fifo, ← hring, hl.contents, hring', List.append_assoc]
    · show p'.iCount = _
      rw [hcnt', hl.iCount, hcnt]
      exact h.iCount
    · rcases frame_update hu with rfl | hold
      · exact ⟨hend, hkept.done hl⟩
      · exact h.reading u c' hold
  | @write t c p p' bytes hin hbytes hout =>
    obtain ⟨hring, hcnt, -⟩ := hin.kept
    obtain ⟨hring', hcnt'⟩ := settle_ok hout
    obtain ⟨hend, hkept⟩ := h.writer hin
    obtain ⟨l, hl⟩ := Pipe.writePipe_spec c p
    obtain rfl : bytes = l := List.append_cancel_right (hbytes.symm.trans hl.rest)
    refine ⟨?_, ?_, h.reading, fun u c' hu => ?_⟩
    · simp only [Event.taken, Event.stored, List.append_nil]
      rw [h.fifo, hring', hl.contents, hring, List.append_assoc]
    · show p'.iCount = _
      rw [hcnt', hl.iCount, hcnt]
      exact h.iCount
    · rcases frame_update hu with rfl | hold
      · exact ⟨hend, hkept.done hl⟩
      · exact h.writing u c' hold
  | closeRead hopen hnone =>
    refine ⟨by simpa [Event.taken, Event.stored] using h.fifo, ?_, fun t c hc => ?_, h.writing⟩
    · have hcnt := h.iCount
      rw [hopen] at hcnt
      simp only [Pipe.iput_iCount, hcnt, Bool.toNat_true, Bool.toNat_false]
      omega
    · rw [hnone t] at hc
      cases hc
  | closeWrite hopen hnone =>
    refine ⟨by simpa [Event.taken, Event.stored] using h.fifo, ?_, h.reading, fun t c hc => ?_⟩
    · have hcnt := h.iCount
      rw [hopen] at hcnt
      simp only [Pipe.iput_iCount, hcnt, Bool.toNat_true, Bool.toNat_false]
      omega
    · rw [hnone t] at hc
      cases hc
  | other hw =>
    exact ⟨by simpa [Event.taken, Event.stored] using h.fifo, h.iCount, h.reading, h.writing⟩

/-- A call that returns tells the truth. -/
theorem Inv.honest (h : s.Inv taken stored) (hst : Step initTask s e s') : s.Honest e := by
  have hcnt := h.iCount
  cases hst with
  | @read t c p p' bytes hin hbytes hout =>
    obtain ⟨-, hsame, -⟩ := hin.kept
    obtain ⟨hend, hkept⟩ := h.reader hin
    obtain ⟨l, hl⟩ := Pipe.readPipe_spec c p
    cases hctl : (p.readPipe c).1 with
    | sleeps => trivial
    | returns ret sigpipe =>
      obtain ⟨hret, hwhy⟩ := hl.returns ret sigpipe hctl
      obtain ⟨hlen, hsum⟩ := hkept.done hl
      refine ⟨by rw [hret, hlen], by omega, fun hshort => ?_⟩
      -- the count is not used up, so the inode has lost its other reference
      rcases hwhy with hzero | hclosed
      · omega
      · rw [hsame, hcnt, hend] at hclosed
        cases hw : s.writeEnd with
        | false => rfl
        | true =>
          rw [hw] at hclosed
          exact absurd rfl hclosed
  | @write t c p p' bytes hin hbytes hout =>
    obtain ⟨-, hsame, -⟩ := hin.kept
    obtain ⟨hend, hkept⟩ := h.writer hin
    obtain ⟨l, hl⟩ := Pipe.writePipe_spec c p
    cases hctl : (p.writePipe c).1 with
    | sleeps => trivial
    | returns ret sigpipe =>
      obtain ⟨done, hgiven, hwritten⟩ := hkept.done hl
      refine ⟨done, hgiven, ?_, fun hrest => ?_⟩
      · rcases hl.returns ret sigpipe hctl with ⟨hnil, hret, -⟩ | ⟨hrest, -, -, hret⟩
        · rw [hnil, List.append_nil] at hgiven
          rw [hret, hwritten, hgiven]
          simp
        · rw [hret, hwritten, hgiven]
          cases done <;> simp [hrest]
      · rcases hl.returns ret sigpipe hctl with ⟨hnil, -⟩ | ⟨-, hclosed, -⟩
        · exact absurd hnil hrest
        · rw [hsame, hcnt, hend] at hclosed
          cases hr : s.readEnd with
          | false => rfl
          | true =>
            rw [hr] at hclosed
            exact absurd rfl hclosed
  | _ => trivial

theorem Fresh.run (h : s.Fresh) {es : List (Event T)} (hrun : Lib.Run (Step initTask) s es s') :
    s'.Inv (es.flatMap Event.taken) (es.flatMap Event.stored) := by
  induction hrun with
  | nil => exact h.inv
  | snoc _ hst ih =>
    rw [List.flatMap_append, List.flatMap_append, List.flatMap_singleton, List.flatMap_singleton]
    exact ih.step hst

/-- In every run of readers and writers, with the ends closed at any time: the bytes taken so far are
a prefix of the bytes stored so far, and each call that returns next tells the truth. -/
theorem bytes_in_order (h : s.Fresh) {es : List (Event T)}
    (hrun : Lib.Run (Step initTask) s es s') :
    es.flatMap Event.taken <+: es.flatMap Event.stored ∧
    ∀ e s'', Step initTask s' e s'' → s'.Honest e :=
  ⟨⟨_, (h.run hrun).fifo.symm⟩, fun _ _ hst => (h.run hrun).honest hst⟩

/-- A new pipe. -/
def newPipe : PipeSys Nat where
  pipe := ⟨⟨fun _ => 0, 0, 0, by decide, by decide⟩, 2, ⟨none, fun _ => .running, fun _ => none⟩⟩
  reading _ := none
  writing _ := none
  readEnd := true
  writeEnd := true

theorem newPipe_fresh : newPipe.Fresh :=
  ⟨rfl, rfl, rfl, ⟨rfl, fun _ => rfl⟩, fun _ => ⟨rfl, rfl⟩, rfl, rfl⟩

/-! ### A pipe whose ring goes around -/

/-- A write that there is room for does not sleep. -/
theorem writePipe_fits (c : WriteCall) (p : Pipe T) (h : c.rest.length ≤ p.room) :
    (p.writePipe c).1 = .returns (c.written + c.rest.length : Nat) false ∧ (p.writePipe c).2.1.rest = [] ∧
      (p.writePipe c).2.2.iWait = p.iWait.wakeUp := by
  induction c, p using Pipe.writePipe.induct with
  | case1 c p hc =>
    rw [Pipe.writePipe, dif_pos hc]
    refine ⟨?_, hc, rfl⟩
    rw [hc]
    rfl
  | case2 c p hc hr =>
    rw [hr] at h
    exact absurd (List.eq_nil_of_length_eq_zero (Nat.le_zero.mp h)) hc
  | case3 c p hc hr =>
    rw [hr] at h
    exact absurd (List.eq_nil_of_length_eq_zero (Nat.le_zero.mp h)) hc
  | case4 c p hc hr ih =>
    rw [Pipe.writePipe, dif_neg hc, dif_neg hr]
    have hused := p.ring.used_lt
    have hchars : Pipe.writeChars c p ≤ c.rest.length ∧ Pipe.writeChars c p ≤ p.room := by
      unfold Pipe.writeChars
      omega
    have hlength : (c.rest.take (Pipe.writeChars c p)).length = Pipe.writeChars c p := List.length_take_of_le hchars.1
    have hroom : (Pipe.storeRound c p).room = p.room - Pipe.writeChars c p := by
      have hpush := p.ring.used_push (l := c.rest.take (Pipe.writeChars c p)) (by
        unfold Pipe.room at hchars
        omega)
      unfold Pipe.room Pipe.storeRound
      rw [hpush, hlength]
      omega
    have hrest : (Pipe.writeRound c p).rest.length = c.rest.length - Pipe.writeChars c p := List.length_drop
    have hwritten : (Pipe.writeRound c p).written = c.written + Pipe.writeChars c p := rfl
    obtain ⟨hctl, hnil, hwait⟩ := ih (by omega)
    refine ⟨?_, hnil, hwait⟩
    rw [hctl, hrest, hwritten]
    congr 2
    omega

/-- A read of bytes that are there does not sleep. -/
theorem readPipe_fits (c : ReadCall) (p : Pipe T) (h : c.count ≤ p.ring.used) :
    (p.readPipe c).1 = .returns (c.read + c.count : Nat) false ∧ (p.readPipe c).2.1.count = 0 ∧
      (p.readPipe c).2.2.iWait = p.iWait.wakeUp := by
  induction c, p using Pipe.readPipe.induct with
  | case1 c p hc =>
    rw [Pipe.readPipe, dif_pos hc]
    refine ⟨?_, hc, rfl⟩
    rw [hc]
    rfl
  | case2 c p hc hu => exact absurd (Nat.le_zero.mp (hu ▸ h)) hc
  | case3 c p hc hu => exact absurd (Nat.le_zero.mp (hu ▸ h)) hc
  | case4 c p hc hu ih =>
    rw [Pipe.readPipe, dif_neg hc, dif_neg hu]
    have hchars : Pipe.readChars c p ≤ c.count ∧ Pipe.readChars c p ≤ p.ring.used := by
      unfold Pipe.readChars
      omega
    have hused : (Pipe.takeRound c p).ring.used = p.ring.used - Pipe.readChars c p := p.ring.used_drop hchars.2
    have hcount : (Pipe.readRound c p).count = c.count - Pipe.readChars c p := rfl
    have hread : (Pipe.readRound c p).read = c.read + Pipe.readChars c p := rfl
    obtain ⟨hctl, hzero, hwait⟩ := ih (by omega)
    refine ⟨?_, hzero, hwait⟩
    rw [hctl, hcount, hread]
    congr 2
    omega

/-- Between the calls, when nobody waits. -/
structure Quiet (s : PipeSys T) : Prop where
  idle : ∀ t, s.Idle t
  readEnd : s.readEnd = true
  writeEnd : s.writeEnd = true
  head : s.pipe.iWait.q = none
  running : ∀ t, s.pipe.iWait.state t = .running

theorem wakeUp_none {w : WaitQueue T} (h : w.q = none) : w.wakeUp = w := by
  unfold WaitQueue.wakeUp
  rw [h]

theorem Quiet.write (h : s.Quiet) (t : T) {l : List UInt8} (hl : l.length ≤ s.pipe.room) :
    ∃ s', Step initTask s (.write t l (some (l.length, ⟨l, [], l.length⟩))) s' ∧ s'.Quiet ∧
      s'.pipe.ring.contents = s.pipe.ring.contents ++ l := by
  obtain ⟨hctl, hnil, hwait⟩ := writePipe_fits ⟨l, l, 0⟩ s.pipe hl
  dsimp only at hctl
  rw [Nat.zero_add] at hctl
  obtain ⟨stored, hgiven, hrest, hcontents, hwritten, -⟩ := Pipe.writePipe_spec ⟨l, l, 0⟩ s.pipe
  rw [hnil, List.append_nil] at hrest
  change l = stored at hrest
  subst hrest
  have hcall : (s.pipe.writePipe ⟨l, l, 0⟩).2.1 = ⟨l, [], l.length⟩ := by
    generalize (s.pipe.writePipe ⟨l, l, 0⟩).2.1 = c at hgiven hnil hwritten
    obtain ⟨given, rest, written⟩ := c
    dsimp only at hgiven hnil hwritten
    rw [hgiven, hnil, hwritten, Nat.zero_add]
  have hst : Step initTask s (.write t l (result (s.pipe.writePipe ⟨l, l, 0⟩).2.1 (s.pipe.writePipe ⟨l, l, 0⟩).1)) _ :=
    .write (by rw [(h.idle t).2]; exact .call ⟨h.idle t, h.writeEnd⟩ (h.running t) ⟨rfl, rfl⟩)
      (by rw [hnil, List.append_nil]) (by rw [hctl]; rfl)
  rw [hctl, hcall] at hst
  refine ⟨_, hst, ⟨fun u => ⟨(h.idle u).1, ?_⟩, h.readEnd, h.writeEnd, ?_, ?_⟩, hcontents⟩
  · show Function.update s.writing t none u = none
    by_cases hu : u = t
    · rw [hu, Function.update_self]
    · rw [Function.update_of_ne hu, (h.idle u).2]
  · rw [hwait, wakeUp_none h.head]
    exact h.head
  · rw [hwait, wakeUp_none h.head]
    exact h.running

theorem Quiet.read (h : s.Quiet) (t : T) {l rest : List UInt8} (hl : s.pipe.ring.contents = l ++ rest) :
    ∃ s', Step initTask s (.read t l (some (l.length, ⟨l.length, 0, l.length, l⟩))) s' ∧ s'.Quiet ∧
      s'.pipe.ring.contents = rest := by
  have hused : l.length ≤ s.pipe.ring.used := by
    rw [← Lib.Ring.contents_length, hl, List.length_append]
    exact Nat.le_add_right _ _
  obtain ⟨hctl, hzero, hwait⟩ := readPipe_fits ⟨l.length, l.length, 0, []⟩ s.pipe hused
  dsimp only at hctl
  rw [Nat.zero_add] at hctl
  obtain ⟨taken, hasked, hbuf, hcontents, hread, hcount, -⟩ := Pipe.readPipe_spec ⟨l.length, l.length, 0, []⟩ s.pipe
  rw [hzero, Nat.zero_add] at hcount
  rw [hl] at hcontents
  obtain ⟨rfl, hrest⟩ := List.append_inj hcontents hcount.symm
  have hcall : (s.pipe.readPipe ⟨l.length, l.length, 0, []⟩).2.1 = ⟨l.length, 0, l.length, l⟩ := by
    generalize (s.pipe.readPipe ⟨l.length, l.length, 0, []⟩).2.1 = c at hasked hzero hbuf hread
    obtain ⟨asked, count, read, buf⟩ := c
    dsimp only at hasked hzero hbuf hread
    rw [hasked, hzero, hbuf, hread, Nat.zero_add, List.nil_append]
  have hst : Step initTask s (.read t l (result (s.pipe.readPipe ⟨l.length, l.length, 0, []⟩).2.1
      (s.pipe.readPipe ⟨l.length, l.length, 0, []⟩).1)) _ :=
    .read (by rw [(h.idle t).1]; exact .call ⟨h.idle t, h.readEnd⟩ (h.running t) ⟨rfl, rfl, rfl⟩) hbuf
      (by rw [hctl]; rfl)
  rw [hctl, hcall] at hst
  refine ⟨_, hst, ⟨fun u => ⟨?_, (h.idle u).2⟩, h.readEnd, h.writeEnd, ?_, ?_⟩, hrest.symm⟩
  · show Function.update s.reading t none u = none
    by_cases hu : u = t
    · rw [hu, Function.update_self]
    · rw [Function.update_of_ne hu, (h.idle u).1]
  · rw [hwait, wakeUp_none h.head]
    exact h.head
  · rw [hwait, wakeUp_none h.head]
    exact h.running

/-- Task 1 fills a new pipe, task 2 takes all of it, and the next two bytes go around the end of the page. -/
theorem bytes_in_order_wrap : ∃ es : List (Event Nat),
    es.flatMap Event.taken = List.replicate 4095 7 ++ [8, 9] ∧ es.flatMap Event.taken <+: es.flatMap Event.stored := by
  have hquiet : newPipe.Quiet := ⟨fun _ => ⟨rfl, rfl⟩, rfl, rfl, rfl, fun _ => rfl⟩
  have hroom : ∀ {s : PipeSys Nat}, s.pipe.ring.contents = [] → s.pipe.room = 4095 := by
    intro s hs
    have hused := s.pipe.ring.contents_length
    rw [hs] at hused
    unfold Pipe.room
    rw [← hused]
    rfl
  have hempty : newPipe.pipe.ring.contents = [] := rfl
  have hfull : (List.replicate 4095 (7 : UInt8)).length = 4095 := List.length_replicate
  generalize List.replicate 4095 (7 : UInt8) = l at hfull ⊢
  obtain ⟨s₁, hst₁, hquiet₁, hs₁⟩ := @Quiet.write Nat _ 0 _ hquiet 1 _ (Nat.le_of_eq (hfull.trans (hroom hempty).symm))
  rw [hempty, List.nil_append] at hs₁
  obtain ⟨s₂, hst₂, hquiet₂, hs₂⟩ := @Quiet.read Nat _ 0 _ hquiet₁ 2 _ _ (hs₁.trans (List.append_nil _).symm)
  obtain ⟨s₃, hst₃, hquiet₃, hs₃⟩ := @Quiet.write Nat _ 0 _ hquiet₂ 1 [8, 9] (by rw [hroom hs₂]; decide)
  rw [hs₂, List.nil_append] at hs₃
  obtain ⟨s₄, hst₄, -, -⟩ := @Quiet.read Nat _ 0 _ hquiet₃ 2 _ _ (hs₃.trans (List.append_nil _).symm)
  have hrun := Lib.Run.snoc (.snoc (.snoc (.snoc .nil hst₁) hst₂) hst₃) hst₄
  exact ⟨_, by simp [Event.taken], (bytes_in_order newPipe_fresh hrun).1⟩

end PipeSys

end Linux011.Fs
