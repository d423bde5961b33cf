import Mathlib.Algebra.Group.Nat.Defs
import Mathlib.Logic.Function.Basic
import Linux011.Lib.Run

/-!
# The floppy motors

The timers of `kernel/sched.c` for the four floppy motors. `current_DOR` has the selected drive in its two
lowest bits and a bit for each motor in its four highest. `waitMotor nr` says that somebody sleeps on
`wait_motor[nr]`.

Interrupts are off only between the `cli` and the `sti` of `ticks_to_floppy_on`. The clock can tick before
that, before `mon_timer` is read for the result, and before `floppy_on` goes to sleep for it.
-/

namespace Linux011.Kernel

open Lib (Run)

def hz : Nat := 100

structure Motors where
  currentDOR : BitVec 8
  monTimer : Nat → Nat
  moffTimer : Nat → Nat
  waitMotor : Nat → Bool
  selected : Bool

/-- `0x10 << nr` -/
def motorMask (nr : Nat) : BitVec 8 := 0x10 <<< nr

namespace Motors

variable (s : Motors)

/-- The motor of a drive is on. -/
def On (nr : Nat) : Prop := motorMask nr &&& s.currentDOR ≠ 0

instance (nr : Nat) : Decidable (s.On nr) := inferInstanceAs (Decidable (_ ≠ _))

/-- What `ticks_to_floppy_on` wants in `current_DOR`. -/
def wanted (nr : Nat) : BitVec 8 :=
  let mask := motorMask nr ||| s.currentDOR
  if s.selected then mask else (mask &&& 0xFC) ||| BitVec.ofNat 8 nr

/-- `ticks_to_floppy_on`, before the `cli`. -/
def enter (nr : Nat) : Except String Motors :=
  if 3 < nr then .error "floppy_on: nr>3"
  else .ok { s with moffTimer := Function.update s.moffTimer nr 10000 }

/-- `ticks_to_floppy_on`, from the `cli` to the `sti`. -/
def ticksToFloppyOn (nr : Nat) : Motors :=
  let mask := s.wanted nr
  if mask ≠ s.currentDOR then
    let mon :=
      if (mask ^^^ s.currentDOR) &&& 0xf0 ≠ 0 then hz / 2
      else if s.monTimer nr < 2 then 2
      else s.monTimer nr
    { s with monTimer := Function.update s.monTimer nr mon, currentDOR := mask }
  else s

/-- What `sleep_on` does in `floppy_on`. -/
def sleepOn (nr : Nat) : Motors := { s with waitMotor := Function.update s.waitMotor nr true }

def floppyOff (nr : Nat) : Motors := { s with moffTimer := Function.update s.moffTimer nr (3 * hz) }

/-- A turn of the loop of `do_floppy_timer`. -/
def turn (i : Nat) : Motors :=
  if ¬ s.On i then s
  else if s.monTimer i ≠ 0 then
    let mon := s.monTimer i - 1
    let s := { s with monTimer := Function.update s.monTimer i mon }
    if mon = 0 then { s with waitMotor := Function.update s.waitMotor i false } else s
  else if s.moffTimer i = 0 then { s with currentDOR := s.currentDOR &&& ~~~motorMask i }
  else { s with moffTimer := Function.update s.moffTimer i (s.moffTimer i - 1) }

def doFloppyTimer : Motors := (((s.turn 0).turn 1).turn 2).turn 3

/-- `floppy_on_interrupt` of the driver, as far as `current_DOR` is concerned. -/
def select (drive : Nat) : Motors :=
  let s := { s with selected := true }
  if BitVec.ofNat 8 drive ≠ s.currentDOR &&& 3 then
    { s with currentDOR := (s.currentDOR &&& 0xFC) ||| BitVec.ofNat 8 drive }
  else s

/-- `floppy_deselect` -/
def deselect : Motors := { s with selected := false }

end Motors

/-- Who is in `ticks_to_floppy_on`, or back in `floppy_on` or in the driver with its result. -/
inductive MotorCaller where
  | out
  | entered (nr : Nat)
  | asked (nr : Nat)
  | told (nr ticks : Nat)

/-- Who moves: the caller `c` of `ticks_to_floppy_on`, somebody who does not need a motor any more, the clock,
or the driver that selects a drive, or none. -/
inductive MotorEvent where
  | enter (c nr : Nat)
  | ask (c nr : Nat)
  | read (c nr ticks : Nat)
  | sleep (c nr : Nat)
  | leave (c : Nat)
  | off (nr : Nat)
  | tick
  | select (drive : Nat)
  | deselect

/-- The motors, their callers and what somebody sees who has a clock: for how many ticks each motor has been
on, when `moff_timer` was last set, when the motor was last asked for or given back, and which of the two it
was. `late` are the motors for which somebody sleeps who went to sleep when their timer had ended. -/
structure Watched extends Motors where
  caller : Nat → MotorCaller
  age : Nat → Nat
  held : Nat → Nat
  since : Nat → Nat
  asked : Nat → Bool
  late : Nat → Bool

namespace Watched

/-- The motors move on to `m`. A motor that was off before is on for no tick. -/
def goTo (w : Watched) (m : Motors) (passed : Nat) : Watched :=
  { w with
    toMotors := m
    age i := if w.On i ∧ m.On i then w.age i + passed else 0
    held i := w.held i + passed
    since i := w.since i + passed
    late i := w.late i && m.waitMotor i }

/-- `moff_timer[nr]` is set. -/
def mark (w : Watched) (nr : Nat) (asked : Bool) : Watched :=
  { w with
    held := Function.update w.held nr 0
    since := Function.update w.since nr 0
    asked := Function.update w.asked nr asked }

def setCaller (w : Watched) (c : Nat) (caller : MotorCaller) : Watched :=
  { w with caller := Function.update w.caller c caller }

inductive Step (w : Watched) : MotorEvent → Watched → Prop
  | enter {c nr : Nat} {m : Motors} (hc : w.caller c = .out) (h : w.enter nr = .ok m) :
      Step w (.enter c nr) (((w.goTo m 0).mark nr true).setCaller c (.entered nr))
  | ask {c nr : Nat} (hc : w.caller c = .entered nr) :
      Step w (.ask c nr)
        ({ w.goTo (w.ticksToFloppyOn nr) 0 with since := Function.update w.since nr 0 }.setCaller c (.asked nr))
  | read {c nr : Nat} (hc : w.caller c = .asked nr) :
      Step w (.read c nr (w.monTimer nr)) (w.setCaller c (.told nr (w.monTimer nr)))
  | sleep {c nr ticks : Nat} (hc : w.caller c = .told nr ticks) (hticks : ticks ≠ 0) :
      Step w (.sleep c nr)
        ({ w with
            toMotors := w.sleepOn nr
            late := Function.update w.late nr (w.late nr || w.monTimer nr == 0) }.setCaller c .out)
  | leave {c nr ticks : Nat} (hc : w.caller c = .told nr ticks) : Step w (.leave c) (w.setCaller c .out)
  | off {nr : Nat} (hnr : nr < 4) : Step w (.off nr) ((w.goTo (w.floppyOff nr) 0).mark nr false)
  | tick : Step w .tick (w.goTo w.doFloppyTimer 1)
  | select {drive : Nat} (hdrive : drive < 4) : Step w (.select drive) (w.goTo (w.toMotors.select drive) 0)
  | deselect : Step w .deselect (w.goTo w.toMotors.deselect 0)

/-- The variables at the start, with all motors off and given back long ago. -/
def start : Watched where
  currentDOR := 0x0C
  monTimer _ := 0
  moffTimer _ := 0
  waitMotor _ := false
  selected := false
  caller _ := .out
  age _ := 0
  held _ := 3 * hz
  since _ := 0
  asked _ := false
  late _ := false

/-- For how long a motor stays on after it was last asked for or given back. -/
def hold (w : Watched) (nr : Nat) : Nat := if w.asked nr then 10000 else 3 * hz

end Watched

/-! ## The bits -/

namespace Motors

variable {s s' : Motors} {nr i ticks : Nat}

theorem on_congr (h : s'.currentDOR = s.currentDOR) : s'.On i ↔ s.On i := by
  simp [On, h]

/-- The bit of a motor. -/
theorem mask_bit (hi : i < 4) (d : BitVec 8) : motorMask i &&& d ≠ 0 ↔ d.getLsbD (4 + i) = true := by
  have hbit : ∀ i < 4, ∀ d : BitVec 8, motorMask i &&& d ≠ 0 ↔ d.getLsbD (4 + i) = true := by decide +kernel
  exact hbit i hi d

theorem mask_getLsbD (hnr : nr < 4) (hi : i < 4) : (motorMask nr).getLsbD (4 + i) = true ↔ i = nr := by
  have hbit : ∀ nr < 4, ∀ i < 4, (motorMask nr).getLsbD (4 + i) = true ↔ i = nr := by decide
  exact hbit nr hnr i hi

/-- The number of a drive is in the two lowest bits. -/
theorem drive_getLsbD {d : BitVec 8} (hnr : nr < 4) (hi : i < 4) :
    ((d &&& 0xFC) ||| BitVec.ofNat 8 nr).getLsbD (4 + i) = d.getLsbD (4 + i) := by
  have hkept : ∀ i < 4, (0xFC : BitVec 8).getLsbD (4 + i) = true := by decide
  have hdrive : ∀ nr < 4, ∀ i < 4, (BitVec.ofNat 8 nr).getLsbD (4 + i) = false := by decide
  rw [BitVec.getLsbD_or, BitVec.getLsbD_and, hkept i hi, hdrive nr hnr i hi, Bool.and_true, Bool.or_false]

theorem wanted_getLsbD (hnr : nr < 4) (hi : i < 4) :
    (s.wanted nr).getLsbD (4 + i) = ((motorMask nr).getLsbD (4 + i) || s.currentDOR.getLsbD (4 + i)) := by
  unfold wanted
  simp only
  split
  · exact BitVec.getLsbD_or
  · rw [drive_getLsbD hnr hi, BitVec.getLsbD_or]

/-- `ticks_to_floppy_on` turns on its own motor, and no motor off. -/
theorem wanted_on (hnr : nr < 4) (hi : i < 4) :
    motorMask i &&& s.wanted nr ≠ 0 ↔ i = nr ∨ s.On i := by
  rw [mask_bit hi, wanted_getLsbD hnr hi, Bool.or_eq_true, mask_getLsbD hnr hi, On, mask_bit hi]

theorem wanted_high (hnr : nr < 4) : (s.wanted nr ^^^ s.currentDOR) &&& 0xf0 ≠ 0 ↔ ¬ s.On nr := by
  have hhigh : ∀ v : BitVec 8, v &&& 0xf0 ≠ 0 ↔ ∃ i < 4, v.getLsbD (4 + i) = true := by decide +kernel
  rw [hhigh, On, mask_bit hnr, Bool.not_eq_true]
  constructor
  · rintro ⟨i, hi, hbit⟩
    rw [BitVec.getLsbD_xor, wanted_getLsbD hnr hi] at hbit
    cases hwas : s.currentDOR.getLsbD (4 + i) with
    | true => simp [hwas] at hbit
    | false =>
      have hmask : (motorMask nr).getLsbD (4 + i) = true := by simpa [hwas] using hbit
      rwa [(mask_getLsbD hnr hi).mp hmask] at hwas
  · intro hoff
    refine ⟨nr, hnr, ?_⟩
    rw [BitVec.getLsbD_xor, wanted_getLsbD hnr hnr, hoff, (mask_getLsbD hnr hnr).mpr rfl]
    rfl

theorem select_on {drive : Nat} (hdrive : drive < 4) (hi : i < 4) : (s.select drive).On i ↔ s.On i := by
  unfold select
  simp only
  split
  · show motorMask i &&& ((s.currentDOR &&& 0xFC) ||| BitVec.ofNat 8 drive) ≠ 0 ↔ motorMask i &&& s.currentDOR ≠ 0
    rw [mask_bit hi, mask_bit hi, drive_getLsbD hdrive hi]
  · rfl

theorem clear_on {j : Nat} (hi : i < 4) (hj : j < 4) :
    motorMask j &&& (s.currentDOR &&& ~~~motorMask i) ≠ 0 ↔ j ≠ i ∧ s.On j := by
  have hbit : ∀ i < 4, ∀ j < 4, (~~~motorMask i).getLsbD (4 + j) = true ↔ j ≠ i := by decide
  rw [mask_bit hj, BitVec.getLsbD_and, Bool.and_eq_true, hbit i hi j hj, On, mask_bit hj, and_comm]

/-! ## The functions -/

/-- What `ticks_to_floppy_on` does with interrupts off. -/
structure Asked (s : Motors) (nr : Nat) (s' : Motors) : Prop where
  on : ∀ i < 4, s'.On i ↔ i = nr ∨ s.On i
  mon : ∀ i, i ≠ nr → s'.monTimer i = s.monTimer i
  moff : s'.moffTimer = s.moffTimer
  waits : s'.waitMotor = s.waitMotor
  fresh : ¬ s.On nr → s'.monTimer nr = hz / 2
  kept : s.On nr → s.monTimer nr ≤ s'.monTimer nr ∧ s'.monTimer nr ≤ max 2 (s.monTimer nr)

theorem ticksToFloppyOn_asked (s : Motors) (hnr : nr < 4) : Asked s nr (s.ticksToFloppyOn nr) := by
  have hon : ∀ i < 4, motorMask i &&& s.wanted nr ≠ 0 ↔ i = nr ∨ s.On i := fun i hi => wanted_on hnr hi
  have hhigh := wanted_high (s := s) hnr
  unfold ticksToFloppyOn
  simp only
  by_cases hsame : s.wanted nr ≠ s.currentDOR
  · rw [if_pos hsame]
    refine ⟨hon, fun i hi => Function.update_of_ne hi .., rfl, rfl, ?_, ?_⟩
    · intro hoff
      dsimp only
      rw [Function.update_self]
      exact if_pos (hhigh.mpr hoff)
    · intro hwas
      have hrest : ¬ (s.wanted nr ^^^ s.currentDOR) &&& 0xf0 ≠ 0 := fun hbit => hhigh.mp hbit hwas
      dsimp only
      rw [Function.update_self, if_neg hrest]
      split <;> omega
  · rw [if_neg hsame]
    -- the motor is on and its drive is selected
    have hwas : s.On nr := by
      have hbit := (hon nr hnr).mpr (.inl rfl)
      rwa [not_not.mp hsame] at hbit
    refine ⟨?_, fun i _ => rfl, rfl, rfl, fun hoff => absurd hwas hoff, fun _ => ⟨Nat.le_refl _, by omega⟩⟩
    intro i hi
    rw [← hon i hi, not_not.mp hsame]
    rfl

theorem enter_eq (h : s.enter nr = .ok s') :
    nr < 4 ∧ s' = { s with moffTimer := Function.update s.moffTimer nr 10000 } := by
  unfold enter at h
  split at h
  · cases h
  · next hnr =>
    cases h
    exact ⟨by omega, rfl⟩

/-- What becomes of one motor in a turn of `do_floppy_timer`. -/
structure Turned (s s' : Motors) (i : Nat) : Prop where
  idle : ¬ s.On i → ¬ s'.On i ∧ s'.monTimer i = s.monTimer i ∧ s'.moffTimer i = s.moffTimer i
  starts : s.On i → s.monTimer i ≠ 0 →
    s'.On i ∧ s'.monTimer i + 1 = s.monTimer i ∧ s'.moffTimer i = s.moffTimer i
  runs : s.On i → s.monTimer i = 0 → s.moffTimer i ≠ 0 →
    s'.On i ∧ s'.monTimer i = 0 ∧ s'.moffTimer i + 1 = s.moffTimer i
  stops : s.On i → s.monTimer i = 0 → s.moffTimer i = 0 → ¬ s'.On i ∧ s'.moffTimer i = 0
  waits : s'.waitMotor i = true → s.waitMotor i = true ∧ (s'.monTimer i = 0 → s.monTimer i = 0)
  still : s.monTimer i = 0 → s'.monTimer i = 0 ∧ s'.waitMotor i = s.waitMotor i

/-- Nothing happens to the motor. -/
structure Same (s s' : Motors) (i : Nat) : Prop where
  on : s'.On i ↔ s.On i
  mon : s'.monTimer i = s.monTimer i
  moff : s'.moffTimer i = s.moffTimer i
  waits : s'.waitMotor i = s.waitMotor i

theorem turn_other (hi : i < 4) {j : Nat} (hj : j < 4) (hne : j ≠ i) : Same s (s.turn i) j := by
  unfold turn
  split
  · exact ⟨Iff.rfl, rfl, rfl, rfl⟩
  · split
    · simp only
      split
      · exact ⟨on_congr rfl, by simp [hne], rfl, by simp [hne]⟩
      · exact ⟨on_congr rfl, by simp [hne], rfl, rfl⟩
    · split
      · refine ⟨?_, rfl, rfl, rfl⟩
        exact (clear_on hi hj).trans (and_iff_right hne)
      · exact ⟨on_congr rfl, rfl, by simp [hne], rfl⟩

theorem turn_self (hi : i < 4) : Turned s (s.turn i) i := by
  unfold turn
  by_cases hon : s.On i
  · rw [if_neg (not_not.mpr hon)]
    by_cases hmon : s.monTimer i = 0
    · rw [if_neg (not_not.mpr hmon)]
      by_cases hmoff : s.moffTimer i = 0
      · rw [if_pos hmoff]
        constructor
        · exact fun hoff => absurd hon hoff
        · exact fun _ hne => absurd hmon hne
        · exact fun _ _ hne => absurd hmoff hne
        · exact fun _ _ _ => ⟨fun hbit => ((clear_on hi hi).mp hbit).1 rfl, hmoff⟩
        · exact fun hwait => ⟨hwait, fun _ => hmon⟩
        · exact fun _ => ⟨hmon, rfl⟩
      · rw [if_neg hmoff]
        constructor
        · exact fun hoff => absurd hon hoff
        · exact fun _ hne => absurd hmon hne
        · refine fun _ _ _ => ⟨hon, hmon, ?_⟩
          simp
          omega
        · exact fun _ _ hzero => absurd hzero hmoff
        · exact fun hwait => ⟨hwait, fun _ => hmon⟩
        · exact fun _ => ⟨hmon, rfl⟩
    · rw [if_pos hmon]
      simp only
      split
      · next hlast =>
        constructor
        · exact fun hoff => absurd hon hoff
        · refine fun _ _ => ⟨hon, ?_, rfl⟩
          simp
          omega
        · exact fun _ hzero => absurd hzero hmon
        · exact fun _ hzero => absurd hzero hmon
        · intro hwait
          simp at hwait
        · exact fun hzero => absurd hzero hmon
      · next hmore =>
        constructor
        · exact fun hoff => absurd hon hoff
        · refine fun _ _ => ⟨hon, ?_, rfl⟩
          simp
          omega
        · exact fun _ hzero => absurd hzero hmon
        · exact fun _ hzero => absurd hzero hmon
        · intro hwait
          refine ⟨hwait, fun hzero => ?_⟩
          simp at hzero
          omega
        · exact fun hzero => absurd hzero hmon
  · rw [if_pos hon]
    exact ⟨fun _ => ⟨hon, rfl, rfl⟩, fun h => absurd h hon, fun h => absurd h hon, fun h => absurd h hon,
      fun h => ⟨h, id⟩, fun h => ⟨h, rfl⟩⟩

theorem Turned.congr {m m' : Motors} (h : Turned m m' i) (hs : Same s m i) (hs' : Same m' s' i) :
    Turned s s' i := by
  obtain ⟨hon, hmon, hmoff, hwaits⟩ := hs
  obtain ⟨hon', hmon', hmoff', hwaits'⟩ := hs'
  constructor
  · rw [← hon, hon', hmon', hmoff', ← hmon, ← hmoff]
    exact h.idle
  · rw [← hon, hon', hmon', hmoff', ← hmon, ← hmoff]
    exact h.starts
  · rw [← hon, hon', hmon', hmoff', ← hmon, ← hmoff]
    exact h.runs
  · rw [← hon, hon', hmoff', ← hmon, ← hmoff]
    exact h.stops
  · rw [hwaits', hmon', ← hwaits, ← hmon]
    exact h.waits
  · rw [hwaits', hmon', ← hwaits, ← hmon]
    exact h.still

theorem Same.refl (s : Motors) (i : Nat) : Same s s i := ⟨Iff.rfl, rfl, rfl, rfl⟩

theorem Same.trans {m : Motors} (h : Same s m i) (h' : Same m s' i) : Same s s' i :=
  ⟨h'.on.trans h.on, h'.mon.trans h.mon, h'.moff.trans h.moff, h'.waits.trans h.waits⟩

/-- The clock tick, for each motor. -/
theorem doFloppyTimer_turned (s : Motors) (hi : i < 4) : Turned s s.doFloppyTimer i := by
  unfold doFloppyTimer
  have hother : ∀ (m : Motors) (j : Nat), j < 4 → j ≠ i → Same m (m.turn j) i :=
    fun m j hj hne => turn_other hj hi hne.symm
  obtain rfl | rfl | rfl | rfl : i = 0 ∨ i = 1 ∨ i = 2 ∨ i = 3 := by omega
  · apply Turned.congr (turn_self (by decide)) (Same.refl s 0)
    exact ((hother _ 1 (by decide) (by decide)).trans (hother _ 2 (by decide) (by decide))).trans
      (hother _ 3 (by decide) (by decide))
  · apply Turned.congr (turn_self (by decide)) (hother s 0 (by decide) (by decide))
    exact (hother _ 2 (by decide) (by decide)).trans (hother _ 3 (by decide) (by decide))
  · apply Turned.congr (turn_self (by decide)) _ (hother _ 3 (by decide) (by decide))
    exact (hother s 0 (by decide) (by decide)).trans (hother _ 1 (by decide) (by decide))
  · apply Turned.congr (turn_self (by decide)) _ (Same.refl _ 3)
    exact ((hother s 0 (by decide) (by decide)).trans (hother _ 1 (by decide) (by decide))).trans
      (hother _ 2 (by decide) (by decide))

end Motors

/-! ## Runs -/

namespace Watched

variable {w w' : Watched} {i : Nat}

/-- What holds of each motor. -/
structure Fine (w : Watched) (i : Nat) : Prop where
  spun : w.On i → hz / 2 ≤ w.age i + w.monTimer i
  soon : w.monTimer i ≤ hz / 2
  idle : ¬ w.On i → w.monTimer i = 0
  early : w.hold i ≤ w.held i + w.moffTimer i
  short : w.moffTimer i ≤ w.hold i
  late : w.On i → w.since i + w.monTimer i + w.moffTimer i ≤ hz / 2 + w.hold i
  waits : w.waitMotor i = true → w.monTimer i ≠ 0 ∨ w.late i = true

theorem Fine.on (h : w.Fine i) (hmon : w.monTimer i ≠ 0) : w.On i := by
  by_contra hoff
  exact hmon (h.idle hoff)

/-- A step of nobody's motor leaves its times alone. -/
theorem Fine.same {m : Motors} (h : w.Fine i) (hsame : Motors.Same w.toMotors m i) : (w.goTo m 0).Fine i := by
  obtain ⟨hon, hmon, hmoff, hwaits⟩ := hsame
  constructor
  · intro hwas
    have hage : (w.goTo m 0).age i = w.age i := if_pos ⟨hon.mp hwas, hwas⟩
    rw [hage]
    show _ ≤ _ + m.monTimer i
    rw [hmon]
    exact h.spun (hon.mp hwas)
  · exact hmon ▸ h.soon
  · intro hoff
    exact hmon.trans (h.idle fun hwas => hoff (hon.mpr hwas))
  · show _ ≤ w.held i + m.moffTimer i
    rw [hmoff]
    exact h.early
  · show m.moffTimer i ≤ _
    rw [hmoff]
    exact h.short
  · intro hwas
    show w.since i + m.monTimer i + m.moffTimer i ≤ _
    rw [hmon, hmoff]
    exact h.late (hon.mp hwas)
  · intro hwait
    change m.waitMotor i = true at hwait
    show m.monTimer i ≠ 0 ∨ (w.late i && m.waitMotor i) = true
    rw [hwait, hmon, Bool.and_true]
    exact h.waits (hwaits ▸ hwait)

theorem Fine.setCaller (h : w.Fine i) (c : Nat) (caller : MotorCaller) : (w.setCaller c caller).Fine i :=
  ⟨h.spun, h.soon, h.idle, h.early, h.short, h.late, h.waits⟩

/-- `moff_timer` is set, for a motor that is asked for or given back. -/
theorem Fine.mark {nr : Nat} {asked : Bool} {ticks : Nat} (h : w.Fine i)
    (hticks : ticks = if asked then 10000 else 3 * hz) :
    ((w.goTo { w.toMotors with moffTimer := Function.update w.moffTimer nr ticks } 0).mark nr asked).Fine i := by
  by_cases hne : i = nr
  · subst hne
    have hsame := Fine.same (m := w.toMotors) h ⟨Iff.rfl, rfl, rfl, rfl⟩
    have hhold : ((w.goTo { w.toMotors with moffTimer := Function.update w.moffTimer i ticks } 0).mark i asked).hold i =
        ticks := by
      unfold hold Watched.mark
      rw [hticks]
      simp
    have hmoff : ((w.goTo { w.toMotors with moffTimer := Function.update w.moffTimer i ticks } 0).mark i
        asked).moffTimer i = ticks := Function.update_self ..
    refine ⟨hsame.spun, hsame.soon, hsame.idle, ?_, ?_, fun _ => ?_, hsame.waits⟩
    · rw [hhold, hmoff]
      exact Nat.le_add_left _ _
    · exact Nat.le_of_eq (hmoff.trans hhold.symm)
    · rw [hhold, hmoff]
      show Function.update (w.goTo w.toMotors 0).since i 0 i + w.monTimer i + ticks ≤ _
      rw [Function.update_self]
      have hsoon := h.soon
      omega
  · have hmoff : Function.update w.moffTimer nr ticks i = w.moffTimer i := Function.update_of_ne hne ..
    have hsame : (w.goTo { w.toMotors with moffTimer := Function.update w.moffTimer nr ticks } 0).Fine i :=
      h.same ⟨Iff.rfl, rfl, hmoff, rfl⟩
    have hhold : ∀ w : Watched, (w.mark nr asked).hold i = w.hold i := by
      intro w
      unfold hold Watched.mark
      simp [hne]
    have hheld : ∀ w : Watched, (w.mark nr asked).held i = w.held i := fun w => Function.update_of_ne hne ..
    have hsince : ∀ w : Watched, (w.mark nr asked).since i = w.since i := fun w => Function.update_of_ne hne ..
    refine ⟨hsame.spun, hsame.soon, hsame.idle, ?_, ?_, ?_, hsame.waits⟩
    · rw [hhold, hheld]
      exact hsame.early
    · rw [hhold]
      exact hsame.short
    · rw [hhold, hsince]
      exact hsame.late

theorem Fine.ask {nr : Nat} (h : w.Fine i) (hi : i < 4) (hnr : nr < 4) :
    ({ w.goTo (w.ticksToFloppyOn nr) 0 with since := Function.update w.since nr 0 } : Watched).Fine i := by
  have hasked := Motors.ticksToFloppyOn_asked w.toMotors hnr
  by_cases hne : i = nr
  · subst hne
    have hnow : (w.ticksToFloppyOn i).On i := (hasked.on i hi).mpr (.inl rfl)
    have hsoon : (w.ticksToFloppyOn i).monTimer i ≤ hz / 2 := by
      by_cases hwas : w.On i
      · have hkept := (hasked.kept hwas).2
        have hle := h.soon
        have hhalf : hz / 2 = 50 := rfl
        omega
      · exact Nat.le_of_eq (hasked.fresh hwas)
    constructor
    · intro _
      show hz / 2 ≤ (if w.On i ∧ (w.ticksToFloppyOn i).On i then w.age i + 0 else 0) +
        (w.ticksToFloppyOn i).monTimer i
      by_cases hwas : w.On i
      · rw [if_pos ⟨hwas, hnow⟩]
        have hspun := h.spun hwas
        have hkept := (hasked.kept hwas).1
        omega
      · rw [hasked.fresh hwas]
        exact Nat.le_add_left _ _
    · exact hsoon
    · exact fun hoff => absurd hnow hoff
    · show _ ≤ w.held i + (w.ticksToFloppyOn i).moffTimer i
      rw [hasked.moff]
      exact h.early
    · show (w.ticksToFloppyOn i).moffTimer i ≤ _
      rw [hasked.moff]
      exact h.short
    · intro _
      show Function.update w.since i 0 i + (w.ticksToFloppyOn i).monTimer i + (w.ticksToFloppyOn i).moffTimer i ≤
        hz / 2 + w.hold i
      rw [Function.update_self, hasked.moff]
      have hshort := h.short
      omega
    · intro hwait
      change (w.ticksToFloppyOn i).waitMotor i = true at hwait
      show (w.ticksToFloppyOn i).monTimer i ≠ 0 ∨ (w.late i && (w.ticksToFloppyOn i).waitMotor i) = true
      rw [hasked.waits] at hwait ⊢
      rw [hwait, Bool.and_true]
      refine (h.waits hwait).imp_left fun hmon => ?_
      have hkept := (hasked.kept (h.on hmon)).1
      omega
  · have hsame : (w.goTo (w.ticksToFloppyOn nr) 0).Fine i := by
      refine h.same ⟨?_, hasked.mon i hne, by rw [hasked.moff], by rw [hasked.waits]⟩
      rw [hasked.on i hi]
      exact or_iff_right hne
    refine ⟨hsame.spun, hsame.soon, hsame.idle, hsame.early, hsame.short, fun hon => ?_, hsame.waits⟩
    have hlate := hsame.late hon
    show Function.update w.since nr 0 i + _ + _ ≤ _
    rw [Function.update_of_ne hne]
    exact hlate

theorem Fine.sleep {nr : Nat} (h : w.Fine i) :
    ({ w with
        toMotors := w.sleepOn nr
        late := Function.update w.late nr (w.late nr || w.monTimer nr == 0) } : Watched).Fine i := by
  refine ⟨h.spun, h.soon, h.idle, h.early, h.short, h.late, fun hwait => ?_⟩
  change Function.update w.waitMotor nr true i = true at hwait
  show w.monTimer i ≠ 0 ∨ Function.update w.late nr (w.late nr || w.monTimer nr == 0) i = true
  by_cases hne : i = nr
  · subst hne
    rw [Function.update_self]
    by_cases hmon : w.monTimer i = 0
    · simp [hmon]
    · exact .inl hmon
  · rw [Function.update_of_ne hne] at hwait ⊢
    exact h.waits hwait

theorem Fine.tick (h : w.Fine i) (hi : i < 4) : (w.goTo w.doFloppyTimer 1).Fine i := by
  have hturn := Motors.doFloppyTimer_turned w.toMotors hi
  have hwas : w.doFloppyTimer.On i → w.On i := fun hon => by
    by_contra hoff
    exact (hturn.idle hoff).1 hon
  have hage : w.doFloppyTimer.On i → (w.goTo w.doFloppyTimer 1).age i = w.age i + 1 :=
    fun hon => if_pos ⟨hwas hon, hon⟩
  have hmoves : w.doFloppyTimer.On i →
      w.doFloppyTimer.monTimer i + 1 = w.monTimer i ∧ w.doFloppyTimer.moffTimer i = w.moffTimer i ∨
        w.monTimer i = 0 ∧ w.doFloppyTimer.monTimer i = 0 ∧ w.doFloppyTimer.moffTimer i + 1 = w.moffTimer i := by
    intro hon
    by_cases hmon : w.monTimer i = 0
    · by_cases hmoff : w.moffTimer i = 0
      · exact absurd hon (hturn.stops (hwas hon) hmon hmoff).1
      · exact .inr ⟨hmon, (hturn.runs (hwas hon) hmon hmoff).2⟩
    · exact .inl (hturn.starts (hwas hon) hmon).2
  -- the timers of a motor that is off, or goes off
  have hoffs : ¬ w.doFloppyTimer.On i →
      w.doFloppyTimer.monTimer i = 0 ∧ w.doFloppyTimer.moffTimer i = w.moffTimer i := by
    intro hoff
    by_cases hon : w.On i
    · have hmon : w.monTimer i = 0 := by
        by_contra hne
        exact hoff (hturn.starts hon hne).1
      have hmoff : w.moffTimer i = 0 := by
        by_contra hne
        exact hoff (hturn.runs hon hmon hne).1
      exact ⟨(hturn.still hmon).1, (hturn.stops hon hmon hmoff).2.trans hmoff.symm⟩
    · obtain ⟨-, hmon, hmoff⟩ := hturn.idle hon
      exact ⟨hmon.trans (h.idle hon), hmoff⟩
  have hsoon := h.soon
  have hearly := h.early
  have hshort := h.short
  constructor
  · intro hon
    have hspun := h.spun (hwas hon)
    have hmove := hmoves hon
    rw [hage hon]
    show _ ≤ _ + w.doFloppyTimer.monTimer i
    omega
  · show w.doFloppyTimer.monTimer i ≤ _
    by_cases hon : w.doFloppyTimer.On i
    · have hmove := hmoves hon
      omega
    · have hoff := (hoffs hon).1
      omega
  · exact fun hoff => (hoffs hoff).1
  · show w.hold i ≤ w.held i + 1 + w.doFloppyTimer.moffTimer i
    by_cases hon : w.doFloppyTimer.On i
    · have hmove := hmoves hon
      omega
    · have hoff := (hoffs hon).2
      omega
  · show w.doFloppyTimer.moffTimer i ≤ w.hold i
    by_cases hon : w.doFloppyTimer.On i
    · have hmove := hmoves hon
      omega
    · have hoff := (hoffs hon).2
      omega
  · intro hon
    have hlate := h.late (hwas hon)
    have hmove := hmoves hon
    show w.since i + 1 + w.doFloppyTimer.monTimer i + w.doFloppyTimer.moffTimer i ≤ hz / 2 + w.hold i
    omega
  · intro hwait
    obtain ⟨hwait', hlast⟩ := hturn.waits hwait
    show w.doFloppyTimer.monTimer i ≠ 0 ∨ (w.late i && w.doFloppyTimer.waitMotor i) = true
    rw [show w.doFloppyTimer.waitMotor i = true from hwait, Bool.and_true]
    exact (h.waits hwait').imp_left fun hmon hzero => hmon (hlast hzero)

/-- The callers know motors that there are. -/
def Known (w : Watched) : Prop := ∀ c nr, w.caller c = .entered nr ∨ w.caller c = .asked nr → nr < 4

theorem Known.setCaller (h : w.Known) {c : Nat} {caller : MotorCaller}
    (hnr : ∀ nr, caller = .entered nr ∨ caller = .asked nr → nr < 4) : (w.setCaller c caller).Known := by
  intro c' nr hc
  by_cases hne : c' = c
  · subst hne
    change Function.update w.caller c' caller c' = _ ∨ Function.update w.caller c' caller c' = _ at hc
    rw [Function.update_self] at hc
    exact hnr nr hc
  · change Function.update w.caller c caller c' = _ ∨ Function.update w.caller c caller c' = _ at hc
    rw [Function.update_of_ne hne] at hc
    exact h c' nr hc

theorem Known.step {e : MotorEvent} (h : w.Known) (hst : Step w e w') : w'.Known := by
  cases hst with
  | enter hc hok =>
    refine Known.setCaller (w := (w.goTo _ 0).mark _ true) h ?_
    rintro _ (heq | heq) <;> cases heq
    exact (Motors.enter_eq hok).1
  | ask hc =>
    refine Known.setCaller (w := { w.goTo _ 0 with since := _ }) h ?_
    rintro _ (heq | heq) <;> cases heq
    exact h _ _ (.inl hc)
  | read hc => exact h.setCaller fun _ heq => by rcases heq with heq | heq <;> cases heq
  | sleep hc hticks =>
    exact Known.setCaller (w := { w with toMotors := _, late := _ }) h fun _ heq => by
      rcases heq with heq | heq <;> cases heq
  | leave hc => exact h.setCaller fun _ heq => by rcases heq with heq | heq <;> cases heq
  | off hnr => exact h
  | tick => exact h
  | select hdrive => exact h
  | deselect => exact h

theorem Fine.step {e : MotorEvent} (h : w.Fine i) (hknown : w.Known) (hi : i < 4) (hst : Step w e w') :
    w'.Fine i := by
  cases hst with
  | enter hc hok =>
    obtain ⟨-, rfl⟩ := Motors.enter_eq hok
    have hticks : 10000 = if true then 10000 else 3 * hz := rfl
    exact (h.mark hticks).setCaller ..
  | ask hc => exact (h.ask hi (hknown _ _ (.inl hc))).setCaller ..
  | read hc => exact h.setCaller ..
  | sleep hc hticks => exact h.sleep.setCaller ..
  | leave hc => exact h.setCaller ..
  | off hnr =>
    have hticks : 3 * hz = if false then 10000 else 3 * hz := rfl
    exact h.mark hticks
  | tick => exact h.tick hi
  | select hdrive =>
    rename_i drive
    have hselect : Motors.Same w.toMotors (w.toMotors.select drive) i := by
      refine ⟨Motors.select_on hdrive hi, ?_, ?_, ?_⟩ <;> unfold Motors.select <;> simp only <;> split <;> rfl
    exact h.same hselect
  | deselect => exact h.same ⟨Iff.rfl, rfl, rfl, rfl⟩

def entered : Watched :=
  ((start.goTo { start.toMotors with moffTimer := Function.update start.moffTimer 1 10000 } 0).mark 1 true).setCaller 0
    (.entered 1)

def turnedOn : Watched :=
  { entered.goTo (entered.ticksToFloppyOn 1) 0 with since := Function.update entered.since 1 0 }.setCaller 0 (.asked 1)

def told : Watched := turnedOn.setCaller 0 (.told 1 (turnedOn.monTimer 1))

def asleep : Watched :=
  { told with
    toMotors := told.sleepOn 1
    late := Function.update told.late 1 (told.late 1 || told.monTimer 1 == 0) }.setCaller 0 .out

end Watched

end Linux011.Kernel
