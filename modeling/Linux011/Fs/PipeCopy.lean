import Mathlib.Logic.Function.Basic
import Linux011.Fs.Pipe
import Linux011.Lib.Run

/-!
# Page faults in the copies of a pipe

`read_pipe` and `write_pipe` of `fs/pipe.c`, with every user byte a step of its own. `get_fs_byte` and
`put_fs_byte` may fault on a page that is not present, and another process may run until it is. Both
functions move the tail or the head over a whole chunk before they copy its first byte.
-/

namespace Linux011.Fs

/-- Where a task is in `read_pipe` or `write_pipe`: in the outer loop, or in the copy of a chunk. `val` is a
byte that has been fetched from the ring and not been put into user memory; `rest` is what `buf` points to. -/
inductive PipeCall where
  | read (count done : Nat) (buf : List UInt8)
  | readCopy (count done : Nat) (buf : List UInt8) (size chars : Nat) (val : Option UInt8)
  | write (count written : Nat) (rest : List UInt8)
  | writeCopy (count written : Nat) (rest : List UInt8) (size chars : Nat)

/-- The pipe, the calls in progress, and who has the processor. -/
structure CopySys (T : Type _) where
  ring : Lib.Ring UInt8 pageSize
  iCount : Nat
  call : T → Option PipeCall
  cpu : Option T

inductive CopyEvent (T : Type _) where
  | readRound (t : T)
  | fault (t : T)
  | other (t : T)

namespace PipeCall

/-- The cells that a writer has yet to store into. -/
def Unstored (k : Nat) : PipeCall → Prop
  | .writeCopy _ _ _ size chars => size ≤ k ∧ k < size + chars
  | _ => False

/-- The cells whose bytes a reader has yet to put into user memory. -/
def Uncopied (k : Nat) : PipeCall → Prop
  | .readCopy _ _ _ size chars val => size ≤ k ∧ k < size + chars ∨ val.isSome = true ∧ k + 1 = size
  | _ => False

end PipeCall

namespace CopySys

variable {T : Type _} [DecidableEq T]

def setCall (s : CopySys T) (t : T) (c : Option PipeCall) : CopySys T :=
  { s with call := Function.update s.call t c }

/-- `PIPE_TAIL(*inode) += chars; PIPE_TAIL(*inode) &= (PAGE_SIZE-1);` -/
def moveTail (s : CopySys T) (chars : Nat) : CopySys T := { s with ring := s.ring.drop chars }

/-- The same with the head. Nothing is stored yet. -/
def moveHead (s : CopySys T) (chars : Nat) : CopySys T :=
  { s with ring :=
    { s.ring with
      head := (s.ring.head + chars) % pageSize
      head_lt := Nat.mod_lt _ (by decide) } }

def store (s : CopySys T) (size : Nat) (b : UInt8) : CopySys T :=
  { s with ring := { s.ring with cell := Function.update s.ring.cell size b } }

/-- The free bytes that `write_pipe` sees. -/
def room (s : CopySys T) : Nat := pageSize - 1 - s.ring.used

def readChars (s : CopySys T) (count : Nat) : Nat := min (min (pageSize - s.ring.tail) count) s.ring.used

def writeChars (s : CopySys T) (count : Nat) : Nat := min (min (pageSize - s.ring.head) count) s.room

/-- The task with the processor goes on in its call, gives up the processor in `sleep_on`, or faults. Who has the
processor next is open; a task that slept looks at the pipe again. -/
inductive Step : CopySys T → CopyEvent T → CopySys T → Prop
  | callRead {s : CopySys T} {t : T} {count : Nat} (hcpu : s.cpu = some t) (hcall : s.call t = none) :
      Step s (.other t) (s.setCall t (some (.read count 0 [])))
  | callWrite {s : CopySys T} {t : T} {bytes : List UInt8} (hcpu : s.cpu = some t) (hcall : s.call t = none) :
      Step s (.other t) (s.setCall t (some (.write bytes.length 0 bytes)))
  | readRound {s : CopySys T} {t : T} {count done : Nat} {buf : List UInt8} (hcpu : s.cpu = some t)
      (hcall : s.call t = some (.read count done buf)) (hcount : 0 < count) (hused : s.ring.used ≠ 0) :
      Step s (.readRound t) ((s.moveTail (s.readChars count)).setCall t (some (.readCopy
        (count - s.readChars count) (done + s.readChars count) buf s.ring.tail (s.readChars count) none)))
  | fetch {s : CopySys T} {t : T} {count done size chars : Nat} {buf : List UInt8} (hcpu : s.cpu = some t)
      (hcall : s.call t = some (.readCopy count done buf size (chars + 1) none)) :
      Step s (.other t)
        (s.setCall t (some (.readCopy count done buf (size + 1) chars (some (s.ring.cell size)))))
  | put {s : CopySys T} {t : T} {count done size chars : Nat} {buf : List UInt8} {v : UInt8}
      (hcpu : s.cpu = some t) (hcall : s.call t = some (.readCopy count done buf size chars (some v))) :
      Step s (.other t) (s.setCall t (some (.readCopy count done (buf ++ [v]) size chars none)))
  | readNext {s : CopySys T} {t : T} {count done size : Nat} {buf : List UInt8} (hcpu : s.cpu = some t)
      (hcall : s.call t = some (.readCopy count done buf size 0 none)) :
      Step s (.other t) (s.setCall t (some (.read count done buf)))
  | readReturn {s : CopySys T} {t : T} {count done : Nat} {buf : List UInt8} (hcpu : s.cpu = some t)
      (hcall : s.call t = some (.read count done buf))
      (hend : count = 0 ∨ s.ring.used = 0 ∧ s.iCount ≠ 2) : Step s (.other t) (s.setCall t none)
  | writeRound {s : CopySys T} {t : T} {count written : Nat} {rest : List UInt8} (hcpu : s.cpu = some t)
      (hcall : s.call t = some (.write count written rest)) (hcount : 0 < count) (hroom : s.room ≠ 0) :
      Step s (.other t) ((s.moveHead (s.writeChars count)).setCall t (some (.writeCopy
        (count - s.writeChars count) (written + s.writeChars count) rest s.ring.head (s.writeChars count))))
  | store {s : CopySys T} {t : T} {count written size chars : Nat} {b : UInt8} {rest : List UInt8}
      (hcpu : s.cpu = some t) (hcall : s.call t = some (.writeCopy count written (b :: rest) size (chars + 1))) :
      Step s (.other t) ((s.store size b).setCall t (some (.writeCopy count written rest (size + 1) chars)))
  | writeNext {s : CopySys T} {t : T} {count written size : Nat} {rest : List UInt8} (hcpu : s.cpu = some t)
      (hcall : s.call t = some (.writeCopy count written rest size 0)) :
      Step s (.other t) (s.setCall t (some (.write count written rest)))
  | writeReturn {s : CopySys T} {t : T} {count written : Nat} {rest : List UInt8} (hcpu : s.cpu = some t)
      (hcall : s.call t = some (.write count written rest))
      (hend : count = 0 ∨ s.room = 0 ∧ s.iCount ≠ 2) : Step s (.other t) (s.setCall t none)
  | readSleep {s : CopySys T} {t : T} {count done : Nat} {buf : List UInt8} (hcpu : s.cpu = some t)
      (hcall : s.call t = some (.read count done buf)) (hcount : 0 < count) (hused : s.ring.used = 0)
      (hopen : s.iCount = 2) : Step s (.other t) { s with cpu := none }
  | writeSleep {s : CopySys T} {t : T} {count written : Nat} {rest : List UInt8} (hcpu : s.cpu = some t)
      (hcall : s.call t = some (.write count written rest)) (hcount : 0 < count) (hroom : s.room = 0)
      (hopen : s.iCount = 2) : Step s (.other t) { s with cpu := none }
  | readFault {s : CopySys T} {t : T} {count done size chars : Nat} {buf : List UInt8} {v : UInt8}
      (hcpu : s.cpu = some t) (hcall : s.call t = some (.readCopy count done buf size chars (some v))) :
      Step s (.fault t) { s with cpu := none }
  | writeFault {s : CopySys T} {t : T} {count written size chars : Nat} {rest : List UInt8}
      (hcpu : s.cpu = some t) (hcall : s.call t = some (.writeCopy count written rest size (chars + 1))) :
      Step s (.fault t) { s with cpu := none }
  | dispatch {s : CopySys T} {t : T} (hcpu : s.cpu = none) : Step s (.other t) { s with cpu := some t }
  | leave {s : CopySys T} {t : T} (hcpu : s.cpu = some t) (hcall : s.call t = none) :
      Step s (.other t) { s with cpu := none }
  | close {s : CopySys T} {t : T} (hcpu : s.cpu = some t) (hcall : s.call t = none) :
      Step s (.other t) { s with iCount := s.iCount - 1 }

/-! ## What other processes may find -/

/-- A cell that `PIPE_SIZE` counts. -/
def Available (s : CopySys T) (k : Nat) : Prop :=
  ∃ i < s.ring.used, k = (s.ring.tail + i) % pageSize

/-- A cell that a writer may store into. -/
def Overwritable (s : CopySys T) (k : Nat) : Prop :=
  ∃ i < s.room, k = (s.ring.head + i) % pageSize

/-- Of the tasks without the processor no writer has left out a byte that is available, and no reader needs a byte
that may be overwritten. -/
def Safe (s : CopySys T) : Prop :=
  ∀ t c, s.cpu ≠ some t → s.call t = some c →
    (∀ k, c.Unstored k → ¬ s.Available k) ∧ ∀ k, c.Uncopied k → ¬ s.Overwritable k

/-- A copy faults only at its last byte, and not when that byte is still to be stored; and no reader begins a chunk
while another one is in the middle of its copy. -/
def Careful (s : CopySys T) : CopyEvent T → Prop
  | .fault t => ∀ c, s.call t = some c →
      (∀ k, ¬ c.Unstored k) ∧ ∀ k k', c.Uncopied k → c.Uncopied k' → k = k'
  | .readRound t => ∀ u c, u ≠ t → s.call u = some c → ∀ k, ¬ c.Uncopied k
  | .other _ => True

/-! ## Careful runs -/

/-- A copy from the ring ends at the tail. A copy of a task without the processor is in a fault, at its last byte
from the ring. -/
def CallOk (tail : Nat) (running : Prop) : PipeCall → Prop
  | .readCopy _ _ _ size chars val => (size + chars) % pageSize = tail ∧ size + chars ≤ pageSize ∧
      (val.isSome = true → 0 < size) ∧ (¬ running → chars = 0 ∧ val.isSome = true)
  | .writeCopy _ _ _ _ _ => running
  | _ => True

def Inv (s : CopySys T) : Prop :=
  ∀ t c, s.call t = some c → CallOk s.ring.tail (s.cpu = some t) c

variable {s s' : CopySys T} {t : T} {tail : Nat} {c : PipeCall} {e : CopyEvent T}

theorem CallOk.of_waiting (h : CallOk tail False c) (p : Prop) : CallOk tail p c := by
  cases c with
  | read => trivial
  | write => trivial
  | readCopy => exact ⟨h.1, h.2.1, h.2.2.1, fun _ => h.2.2.2 id⟩
  | writeCopy => exact h.elim

theorem CallOk.congr {p q : Prop} (h : CallOk tail p c) (hpq : p ↔ q) : CallOk tail q c :=
  propext hpq ▸ h

/-- The task with the processor goes on in its call. -/
theorem Inv.set (h : s.Inv) {o : Option PipeCall} (hcpu : s'.cpu = s.cpu)
    (hother : ∀ u c, u ≠ t → s.call u = some c → CallOk s.ring.tail (s.cpu = some u) c →
      CallOk s'.ring.tail (s.cpu = some u) c)
    (hcall : s'.call = s.call) (hnew : ∀ c, o = some c → CallOk s'.ring.tail (s.cpu = some t) c) :
    (s'.setCall t o).Inv := by
  intro u c hc
  change Function.update s'.call t o u = some c at hc
  change CallOk s'.ring.tail (s'.cpu = some u) c
  rw [hcpu]
  by_cases hu : u = t
  · subst hu
    rw [Function.update_self] at hc
    exact hnew c hc
  · rw [Function.update_of_ne hu, hcall] at hc
    exact hother u c hu hc (h u c hc)

/-- The task with the processor gives it up. -/
theorem Inv.leave (h : s.Inv) (hcpu : s.cpu = some t)
    (hself : ∀ c, s.call t = some c → CallOk s.ring.tail False c) : ({ s with cpu := none } : CopySys T).Inv := by
  intro u c hc
  by_cases hu : u = t
  · subst hu
    exact (hself c hc).of_waiting _
  · refine (h u c hc).congr ?_
    rw [hcpu, Option.some.injEq]
    exact ⟨fun heq => absurd heq.symm hu, fun heq => by cases heq⟩

theorem Step.inv (h : s.Inv) (hstep : Step s e s') (hcareful : s.Careful e) : s'.Inv := by
  -- Most steps leave the tail where it is.
  have hsame : ∀ {s' : CopySys T} {t : T} {o : Option PipeCall}, s'.cpu = s.cpu → s'.ring.tail = s.ring.tail →
      s'.call = s.call → (∀ c, o = some c → CallOk s.ring.tail (s.cpu = some t) c) → (s'.setCall t o).Inv := by
    intro s' t o hcpu htail hcall hnew
    exact h.set hcpu (fun u c _ _ hc => by rwa [htail]) hcall fun c hc => by
      rw [htail]
      exact hnew c hc
  cases hstep with
  | callRead hcpu hcall =>
    refine hsame rfl rfl rfl fun c hc => ?_
    cases hc
    trivial
  | callWrite hcpu hcall =>
    refine hsame rfl rfl rfl fun c hc => ?_
    cases hc
    trivial
  | @readRound t count done buf hcpu hcall hcount hused =>
    refine h.set rfl (fun u c hu hc hok => ?_) rfl fun c hc => ?_
    · -- Nobody else is in the middle of a copy, so no copy has to end at the old tail.
      have hnone := hcareful u c hu hc
      cases c with
      | read => trivial
      | write => trivial
      | writeCopy => exact hok
      | readCopy _ _ _ size chars val =>
        obtain ⟨-, hval⟩ := hok.2.2.2 fun heq => hu (Option.some.inj (heq.symm.trans hcpu))
        have hpos := hok.2.2.1 hval
        exact absurd (Or.inr ⟨hval, by omega⟩) (hnone (size - 1))
    · cases hc
      have htail := s.ring.tail_lt
      have hchars : s.ring.tail + s.readChars count ≤ pageSize := by
        unfold readChars
        omega
      exact ⟨rfl, hchars, fun hv => (by cases hv), fun hn => absurd hcpu hn⟩
  | fetch hcpu hcall =>
    refine hsame rfl rfl rfl fun c hc => ?_
    cases hc
    obtain ⟨hend, hle, -, -⟩ := h _ _ hcall
    exact ⟨by rw [← hend]; congr 1; omega, by omega, fun _ => Nat.succ_pos _, fun hn => absurd hcpu hn⟩
  | put hcpu hcall =>
    refine hsame rfl rfl rfl fun c hc => ?_
    cases hc
    obtain ⟨hend, hle, -, -⟩ := h _ _ hcall
    exact ⟨hend, hle, fun hv => (by cases hv), fun hn => absurd hcpu hn⟩
  | readNext hcpu hcall =>
    refine hsame rfl rfl rfl fun c hc => ?_
    cases hc
    trivial
  | readReturn hcpu hcall hend => exact hsame rfl rfl rfl fun c hc => by cases hc
  | writeRound hcpu hcall hcount hroom =>
    refine hsame rfl rfl rfl fun c hc => ?_
    cases hc
    exact hcpu
  | store hcpu hcall =>
    refine hsame rfl rfl rfl fun c hc => ?_
    cases hc
    exact hcpu
  | writeNext hcpu hcall =>
    refine hsame rfl rfl rfl fun c hc => ?_
    cases hc
    trivial
  | writeReturn hcpu hcall hend => exact hsame rfl rfl rfl fun c hc => by cases hc
  | readSleep hcpu hcall =>
    refine h.leave hcpu fun c hc => ?_
    cases hcall.symm.trans hc
    trivial
  | writeSleep hcpu hcall =>
    refine h.leave hcpu fun c hc => ?_
    cases hcall.symm.trans hc
    trivial
  | @readFault t count done size chars buf v hcpu hcall =>
    refine h.leave hcpu fun c hc => ?_
    cases hcall.symm.trans hc
    obtain ⟨hend, hle, hpos, -⟩ := h _ _ hcall
    have hsize := hpos rfl
    refine ⟨hend, hle, hpos, fun _ => ⟨?_, rfl⟩⟩
    -- With another byte to fetch there would be two.
    rcases Nat.eq_zero_or_pos chars with h0 | h1
    · exact h0
    · have htwo := (hcareful _ hcall).2 (size - 1) size (.inr ⟨rfl, by omega⟩) (.inl ⟨le_rfl, by omega⟩)
      omega
  | @writeFault t count written size chars rest hcpu hcall =>
    exact absurd ⟨le_rfl, by omega⟩ ((hcareful _ hcall).1 size)
  | @dispatch t hcpu =>
    intro u c hc
    refine ((h u c hc).congr (q := False) ?_).of_waiting _
    rw [hcpu]
    exact ⟨fun heq => (by cases heq), False.elim⟩
  | leave hcpu hcall =>
    refine h.leave hcpu fun c hc => ?_
    cases hcall.symm.trans hc
  | close hcpu hcall => exact h

omit [DecidableEq T] in
/-- The cell behind the tail is the one that stays empty. -/
theorem Inv.safe (h : s.Inv) : s.Safe := by
  intro t c hcpu hcall
  have hok := h t c hcall
  cases c with
  | read => exact ⟨fun _ hk => hk.elim, fun _ hk => hk.elim⟩
  | write => exact ⟨fun _ hk => hk.elim, fun _ hk => hk.elim⟩
  | writeCopy => exact absurd hok hcpu
  | readCopy count done buf size chars val =>
    refine ⟨fun _ hk => hk.elim, fun k hk hover => ?_⟩
    obtain ⟨hend, hle, hpos, hwait⟩ := hok
    obtain ⟨rfl, hval⟩ := hwait hcpu
    have hk : k + 1 = size := by
      rcases hk with ⟨hlow, hhigh⟩ | ⟨-, hk⟩
      · omega
      · exact hk
    obtain ⟨i, hi, hki⟩ := hover
    have hused := s.ring.used_eq
    have hhead := s.ring.head_lt
    have htail := s.ring.tail_lt
    unfold room at hi
    unfold pageSize at *
    split at hused <;> omega

/-- Nobody is in a call. -/
def Start (s : CopySys T) : Prop := ∀ t, s.call t = none

/-- In every state of a run of careful steps, the tasks without the processor have stored what is available, and
nothing that they need may be overwritten. -/
theorem pipe_copies_safe {es : List (CopyEvent T)} (hstart : s.Start)
    (hrun : Lib.Run (fun s e s' => Step s e s' ∧ s.Careful e) s es s') : s'.Safe := by
  have hinv : s'.Inv := by
    refine hrun.inv (I := fun s => s.Inv) (fun s e s' h hstep => hstep.1.inv h hstep.2) fun t c hc => ?_
    rw [hstart t] at hc
    cases hc
  exact hinv.safe

/-- An empty pipe; task 0 has the processor. -/
def emptyPipe : CopySys Nat where
  ring := PipeSys.newPipe.pipe.ring
  iCount := 2
  call _ := none
  cpu := some 0

/-- A byte is written, and the reader faults when it puts it into user memory. -/
theorem pipe_copies_safe_last : ∃ (s : CopySys Nat) (es : List (CopyEvent Nat)),
    Lib.Run (fun s e s' => Step s e s' ∧ s.Careful e) emptyPipe es s ∧
      s.call 1 = some (.readCopy 0 1 [] 1 0 (some 7)) ∧ s.cpu = none ∧ s.Safe := by
  obtain ⟨s₁, h₁, s₂, h₂, s₃, h₃, s₄, h₄, s₅, h₅, s₆, h₆, s₇, h₇, s₈, h₈, hcalls, s₉, h₉, s₁₀, h₁₀, hcopy, s₁₁, h₁₁,
      hcall, hcpu⟩ :
      ∃ s₁, Step emptyPipe (.other 0) s₁ ∧ ∃ s₂, Step s₁ (.other 0) s₂ ∧ ∃ s₃, Step s₂ (.other 0) s₃ ∧
      ∃ s₄, Step s₃ (.other 0) s₄ ∧ ∃ s₅, Step s₄ (.other 0) s₅ ∧ ∃ s₆, Step s₅ (.other 0) s₆ ∧
      ∃ s₇, Step s₆ (.other 1) s₇ ∧ ∃ s₈, Step s₇ (.other 1) s₈ ∧ (∀ u, u ≠ 1 → s₈.call u = none) ∧
      ∃ s₉, Step s₈ (.readRound 1) s₉ ∧ ∃ s₁₀, Step s₉ (.other 1) s₁₀ ∧
      s₁₀.call 1 = some (.readCopy 0 1 [] 1 0 (some 7)) ∧ ∃ s₁₁, Step s₁₀ (.fault 1) s₁₁ ∧
      s₁₁.call 1 = some (.readCopy 0 1 [] 1 0 (some 7)) ∧ s₁₁.cpu = none := by
    refine ⟨_, @Step.callWrite _ _ _ 0 [7] rfl rfl, _, .writeRound rfl rfl (by decide) (by decide), _,
      .store rfl rfl, _, .writeNext rfl rfl, _, .writeReturn rfl rfl (.inl rfl), _, .leave rfl rfl, _, .dispatch rfl,
      _, @Step.callRead _ _ _ 1 1 rfl rfl, fun u hu => ?_, _, .readRound rfl rfl (by decide) (by decide), _,
      .fetch rfl rfl, rfl, _, .readFault rfl rfl, rfl, rfl⟩
    -- Task 0 has returned, and the others have not called.
    refine (Function.update_of_ne hu ..).trans ?_
    by_cases h0 : u = 0
    · rw [h0]
      rfl
    · exact (Function.update_of_ne h0 ..).trans ((Function.update_of_ne h0 ..).trans
        ((Function.update_of_ne h0 ..).trans ((Function.update_of_ne h0 ..).trans (Function.update_of_ne h0 ..))))
  have hround : s₈.Careful (.readRound 1) := by
    intro u c hu hc
    rw [hcalls u hu] at hc
    cases hc
  have hfault : s₁₀.Careful (.fault 1) := by
    intro c hc
    cases hcopy.symm.trans hc
    refine ⟨fun _ hk => hk, fun k k' hk hk' => ?_⟩
    simp only [PipeCall.Uncopied, Nat.add_zero] at hk hk'
    omega
  have hrun₀ : Lib.Run (fun (s : CopySys Nat) e s' => Step s e s' ∧ s.Careful e) emptyPipe [] emptyPipe := .nil
  have hrun₅ := (((hrun₀.snoc ⟨h₁, trivial⟩).snoc ⟨h₂, trivial⟩).snoc ⟨h₃, trivial⟩).snoc ⟨h₄, trivial⟩
  have hrun := ((((((hrun₅.snoc ⟨h₅, trivial⟩).snoc ⟨h₆, trivial⟩).snoc ⟨h₇, trivial⟩).snoc ⟨h₈, trivial⟩).snoc
    ⟨h₉, hround⟩).snoc ⟨h₁₀, trivial⟩).snoc ⟨h₁₁, hfault⟩
  exact ⟨s₁₁, _, hrun, hcall, hcpu, pipe_copies_safe (fun _ => rfl) hrun⟩

/-- A process faults when it fetches the first byte that it writes, and the ring counts two bytes that nobody has
stored. -/
theorem pipe_copies_unsafe : ∃ (s : CopySys Nat) (es : List (CopyEvent Nat)),
    Lib.Run (fun s e s' => Step s e s') emptyPipe es s ∧ ¬ s.Safe := by
  obtain ⟨s₁, h₁, s₂, h₂, s₃, h₃, hcall, hcpu, hused, htail⟩ : ∃ s₁, Step emptyPipe (.other 0) s₁ ∧
      ∃ s₂, Step s₁ (.other 0) s₂ ∧ ∃ s₃, Step s₂ (.fault 0) s₃ ∧
      s₃.call 0 = some (.writeCopy 0 2 [7, 8] 0 2) ∧ s₃.cpu = none ∧ s₃.ring.used = 2 ∧ s₃.ring.tail = 0 :=
    ⟨_, @Step.callWrite _ _ _ 0 [7, 8] rfl rfl, _, .writeRound rfl rfl (by decide) (by decide), _,
      .writeFault rfl rfl, rfl, rfl, rfl, rfl⟩
  refine ⟨s₃, _, .snoc (.snoc (.snoc .nil h₁) h₂) h₃, fun hsafe => ?_⟩
  have hleft := (hsafe 0 _ (by rw [hcpu]; simp) hcall).1 0 ⟨le_rfl, by decide⟩
  refine hleft ⟨0, by rw [hused]; decide, ?_⟩
  rw [htail]
  rfl

end CopySys

end Linux011.Fs
