import Mathlib.Algebra.Group.Int.Defs
import Mathlib.Algebra.Group.Nat.Defs
import Mathlib.Logic.Function.Basic
import Linux011.Lib.Segment

/-!
# The terminal

What the console is there for: a screen with a cursor that carries out commands. There are no addresses here. A
`Parser` finds the commands in what is written.
-/

namespace Linux011.Chr

open Lib (pull push)

structure Terminal where
  columns : Nat
  lines : Nat
  /-- The cell of a line and a column. -/
  grid : Nat → Nat → BitVec 16
  blank : BitVec 16
  attr : BitVec 8
  x : Nat
  y : Nat
  top : Nat
  bottom : Nat
  savedX : Nat
  savedY : Nat

/-- What an erasure takes: the cells from the cursor on, those before it, or all. -/
inductive Part where
  | behind
  | before
  | all
  deriving DecidableEq

inductive Command where
  | print (c : Nat)
  | lineFeed
  | reverseLineFeed
  | carriageReturn
  | delete
  | backspace
  | tab
  | goto (x y : Nat)
  | column (x : Nat)
  | row (y : Nat)
  | move (dx dy : Int)
  /-- To the start of a line. -/
  | line (dy : Int)
  | eraseDisplay (part : Part)
  | eraseLine (part : Part)
  | insertLines (n : Nat)
  | deleteLines (n : Nat)
  | insertChars (n : Nat)
  | deleteChars (n : Nat)
  | paint (pars : List Nat)
  /-- Without a last line the region reaches to the end of the screen. -/
  | region (top : Nat) (bottom : Option Nat)
  | save
  | restore
  /-- Any other character behind ESC. -/
  | other
  deriving DecidableEq

namespace Terminal

/-- The cursor moves only within the screen, or right behind its edge. -/
def goto (x y : Int) (t : Terminal) : Terminal :=
  if 0 ≤ x ∧ x ≤ t.columns ∧ 0 ≤ y ∧ y < t.lines then { t with x := x.toNat, y := y.toNat } else t

/-! ## Lines and characters -/

/-- The lines from `top` on and above `bottom` move up, and blank ones come in. -/
def up (top bottom n : Nat) (t : Terminal) : Terminal :=
  { t with grid := pull top bottom n (fun _ => t.blank) t.grid }

def down (top bottom n : Nat) (t : Terminal) : Terminal :=
  { t with grid := push top bottom n (fun _ => t.blank) t.grid }

def lineFeed (t : Terminal) : Terminal :=
  if t.y + 1 < t.bottom then { t with y := t.y + 1 } else t.up t.top t.bottom 1

def reverseLineFeed (t : Terminal) : Terminal :=
  if t.y > t.top then { t with y := t.y - 1 } else t.down t.top t.bottom 1

def insertChars (n : Nat) (t : Terminal) : Terminal :=
  { t with grid := Function.update t.grid t.y (push t.x t.columns n t.blank (t.grid t.y)) }

def deleteChars (n : Nat) (t : Terminal) : Terminal :=
  { t with grid := Function.update t.grid t.y (pull t.x t.columns n t.blank (t.grid t.y)) }

/-- Counts add up. -/
theorem iterate_down (n : Nat) (t : Terminal) : (fun t => t.down t.y t.lines 1)^[n] t = t.down t.y t.lines n := by
  induction n generalizing t with
  | zero => simp [down]
  | succ n ih =>
    rw [Function.iterate_succ_apply, ih]
    simp only [down]
    rw [Lib.push_push]

theorem iterate_up (n : Nat) (t : Terminal) : (fun t => t.up t.y t.lines 1)^[n] t = t.up t.y t.lines n := by
  induction n generalizing t with
  | zero => simp [up]
  | succ n ih =>
    rw [Function.iterate_succ_apply, ih]
    simp only [up]
    rw [Lib.pull_pull]

theorem iterate_insertChars (n : Nat) (t : Terminal) : (insertChars 1)^[n] t = t.insertChars n := by
  induction n generalizing t with
  | zero => simp [insertChars]
  | succ n ih =>
    rw [Function.iterate_succ_apply, ih]
    simp only [insertChars, Function.update_self, Function.update_idem]
    rw [Lib.push_push]

theorem iterate_deleteChars (n : Nat) (t : Terminal) : (deleteChars 1)^[n] t = t.deleteChars n := by
  induction n generalizing t with
  | zero => simp [deleteChars]
  | succ n ih =>
    rw [Function.iterate_succ_apply, ih]
    simp only [deleteChars, Function.update_self, Function.update_idem]
    rw [Lib.pull_pull]

/-- A count over the number of lines or columns does as much as that number. -/
theorem down_of_le {n n' : Nat} {t : Terminal} (hn : t.lines ≤ n) (hn' : t.lines ≤ n') :
    t.down t.y t.lines n = t.down t.y t.lines n' := by
  unfold down
  rw [Lib.push_of_le (m := n) (n := n') (by omega) (by omega)]

theorem up_of_le {n n' : Nat} {t : Terminal} (hn : t.lines ≤ n) (hn' : t.lines ≤ n') :
    t.up t.y t.lines n = t.up t.y t.lines n' := by
  unfold up
  rw [Lib.pull_of_le (m := n) (n := n') (by omega) (by omega)]

theorem insertChars_of_le {n n' : Nat} {t : Terminal} (hn : t.columns ≤ n) (hn' : t.columns ≤ n') :
    t.insertChars n = t.insertChars n' := by
  unfold insertChars
  rw [Lib.push_of_le (m := n) (n := n') (by omega) (by omega)]

theorem deleteChars_of_le {n n' : Nat} {t : Terminal} (hn : t.columns ≤ n) (hn' : t.columns ≤ n') :
    t.deleteChars n = t.deleteChars n' := by
  unfold deleteChars
  rw [Lib.pull_of_le (m := n) (n := n') (by omega) (by omega)]

/-! ## Printing -/

def put (w : BitVec 16) (t : Terminal) : Terminal :=
  { t with grid := Function.update t.grid t.y (Function.update (t.grid t.y) t.x w) }

/-- A cursor behind the edge goes to the next line before a character is printed. -/
def print (c : Nat) (t : Terminal) : Terminal :=
  let t := if t.columns ≤ t.x then lineFeed { t with x := t.x - t.columns } else t
  { t.put (t.attr ++ BitVec.ofNat 8 c) with x := t.x + 1 }

def delete (t : Terminal) : Terminal :=
  if t.x = 0 then t else { t with x := t.x - 1 }.put t.blank

/-- To the next multiple of eight. -/
def tab (t : Terminal) : Terminal :=
  let x := t.x + (8 - t.x % 8)
  if x ≤ t.columns then { t with x := x } else lineFeed { t with x := x - t.columns }

/-! ## Erasing -/

/-- Whether a part of the screen has the cell of a line and a column. -/
def Has (t : Terminal) (part : Part) (r c : Nat) : Prop :=
  match part with
  | .behind => t.y < r ∨ t.y = r ∧ t.x ≤ c
  | .before => r < t.y ∨ t.y = r ∧ c < t.x
  | .all => True

instance (t : Terminal) (part : Part) (r c : Nat) : Decidable (t.Has part r c) :=
  match part with
  | .behind => inferInstanceAs (Decidable (t.y < r ∨ t.y = r ∧ t.x ≤ c))
  | .before => inferInstanceAs (Decidable (r < t.y ∨ t.y = r ∧ c < t.x))
  | .all => inferInstanceAs (Decidable True)

def eraseDisplay (part : Part) (t : Terminal) : Terminal :=
  { t with grid := fun r c => if t.Has part r c then t.blank else t.grid r c }

def eraseLine (part : Part) (t : Terminal) : Terminal :=
  { t with grid := fun r c => if r = t.y ∧ t.Has part r c then t.blank else t.grid r c }

/-! ## Attributes, the region, the saved cursor -/

def shade (attr : BitVec 8) : Nat → BitVec 8
  | 0 => 0x07
  | 1 => 0x0f
  | 4 => 0x0f
  | 7 => 0x70
  | 27 => 0x07
  | _ => attr

/-- A region without a line, or one that the screen does not have, is not set. -/
def region (top : Nat) (bottom : Option Nat) (t : Terminal) : Terminal :=
  let bottom := bottom.getD t.lines
  if top < bottom ∧ bottom ≤ t.lines then { t with top, bottom } else t

def save (t : Terminal) : Terminal := { t with savedX := t.x, savedY := t.y }

def restore (t : Terminal) : Terminal := t.goto t.savedX t.savedY

/-- Which column the cursor is in decides about another character behind ESC. -/
def other (t : Terminal) : Terminal :=
  if t.x = '7'.toNat then t.save else if t.x = '8'.toNat then t.restore else t

def apply (t : Terminal) : Command → Terminal
  | .print c => t.print c
  | .lineFeed => t.lineFeed
  | .reverseLineFeed => t.reverseLineFeed
  | .carriageReturn => { t with x := 0 }
  | .delete => t.delete
  | .backspace => { t with x := t.x - 1 }
  | .tab => t.tab
  | .goto x y => t.goto x y
  | .column x => t.goto x t.y
  | .row y => t.goto t.x y
  | .move dx dy => t.goto (t.x + dx) (t.y + dy)
  | .line dy => t.goto 0 (t.y + dy)
  | .eraseDisplay part => t.eraseDisplay part
  | .eraseLine part => t.eraseLine part
  | .insertLines n => t.down t.y t.lines n
  | .deleteLines n => t.up t.y t.lines n
  | .insertChars n => t.insertChars n
  | .deleteChars n => t.deleteChars n
  | .paint pars => { t with attr := pars.foldl shade t.attr }
  | .region top bottom => t.region top bottom
  | .save => t.save
  | .restore => t.restore
  | .other => t.other

/-- One command after the other. -/
def run (t : Terminal) (commands : List Command) : Terminal := commands.foldl apply t

@[simp] theorem run_nil (t : Terminal) : t.run [] = t := rfl

@[simp] theorem run_cons (t : Terminal) (command : Command) (commands : List Command) :
    t.run (command :: commands) = (t.apply command).run commands := rfl

theorem run_append (t : Terminal) (commands commands' : List Command) :
    t.run (commands ++ commands') = (t.run commands).run commands' := List.foldl_append ..

/-! ## What no command changes -/

theorem goto_columns (x y : Int) (t : Terminal) : (t.goto x y).columns = t.columns := by
  unfold goto
  split <;> rfl

theorem lineFeed_columns (t : Terminal) : t.lineFeed.columns = t.columns := by
  unfold lineFeed
  split <;> rfl

theorem lineFeed_x (t : Terminal) : t.lineFeed.x = t.x := by
  unfold lineFeed
  split <;> rfl

theorem apply_columns (t : Terminal) (command : Command) : (t.apply command).columns = t.columns := by
  cases command with
  | print c =>
    show (if t.columns ≤ t.x then lineFeed { t with x := t.x - t.columns } else t).columns = _
    split
    · exact lineFeed_columns _
    · rfl
  | lineFeed => exact lineFeed_columns t
  | reverseLineFeed =>
    show t.reverseLineFeed.columns = _
    unfold reverseLineFeed
    split <;> rfl
  | delete =>
    show t.delete.columns = _
    unfold delete
    split <;> rfl
  | tab =>
    show t.tab.columns = _
    unfold tab
    simp only
    split
    · rfl
    · exact lineFeed_columns _
  | region top bottom =>
    show (t.region top bottom).columns = _
    unfold region
    simp only
    split <;> rfl
  | other =>
    show t.other.columns = _
    unfold other
    split
    · rfl
    · split
      · exact goto_columns _ _ t
      · rfl
  | goto x y => exact goto_columns _ _ t
  | column x => exact goto_columns _ _ t
  | row y => exact goto_columns _ _ t
  | move dx dy => exact goto_columns _ _ t
  | line dy => exact goto_columns _ _ t
  | restore => exact goto_columns _ _ t
  | carriageReturn | backspace | eraseDisplay _ | eraseLine _ | insertLines _ | deleteLines _ | insertChars _
  | deleteChars _ | paint _ | save => rfl

theorem run_columns (t : Terminal) (commands : List Command) : (t.run commands).columns = t.columns := by
  induction commands generalizing t with
  | nil => rfl
  | cons command commands ih => exact (ih _).trans (apply_columns t command)

end Terminal

/-! ## The commands in a stream of characters -/

/-- Where the parser is in a sequence. Behind the bracket come parameters, the last of which is still being read. -/
inductive Parser where
  | ground
  | escape
  | bracket
  | parameters (done : List Nat) (last : Nat)
  deriving DecidableEq

namespace Parser

/-- A number of 32 bits with a sign. -/
def signed (n : Nat) : Int := if n < 2 ^ 31 then n else n - 2 ^ 32

/-- Outside of a sequence. -/
def control (eraseChar c : Nat) : Parser × Option Command :=
  if 31 < c ∧ c < 127 then (.ground, some (.print c))
  else if c = 27 then (.escape, none)
  else if c = 10 ∨ c = 11 ∨ c = 12 then (.ground, some .lineFeed)
  else if c = 13 then (.ground, some .carriageReturn)
  else if c < 128 ∧ c = eraseChar then (.ground, some .delete)
  else if c = 8 then (.ground, some .backspace)
  else if c = 9 then (.ground, some .tab)
  else (.ground, none)

def escaped (c : Nat) : Parser × Option Command :=
  if c = '['.toNat then (.bracket, none)
  else if c = 'E'.toNat then (.ground, some (.line 1))
  else if c = 'M'.toNat then (.ground, some .reverseLineFeed)
  else if c = 'D'.toNat then (.ground, some .lineFeed)
  else if c = 'Z'.toNat then (.ground, none)
  else (.ground, some .other)

def part : Nat → Option Part
  | 0 => some .behind
  | 1 => some .before
  | 2 => some .all
  | _ => none

/-- The command of a sequence with the character at its end. Counts are at least one, lines and columns are
numbered from one. -/
def sequence (c : Nat) (pars : List Nat) : Option Command :=
  let first := pars.getD 0 0
  let second := pars.getD 1 0
  let count := max 1 first
  if c = 96 then some (.column (first - 1))
  else
    match Char.ofNat c with
    | 'G' => some (.column (first - 1))
    | 'A' => some (.move 0 (-signed count))
    | 'B' => some (.move 0 (signed count))
    | 'e' => some (.move 0 (signed count))
    | 'C' => some (.move (signed count) 0)
    | 'a' => some (.move (signed count) 0)
    | 'D' => some (.move (-signed count) 0)
    | 'E' => some (.line (signed count))
    | 'F' => some (.line (-signed count))
    | 'd' => some (.row (first - 1))
    | 'H' => some (.goto (second - 1) (first - 1))
    | 'f' => some (.goto (second - 1) (first - 1))
    | 'J' => (part first).map .eraseDisplay
    | 'K' => (part first).map .eraseLine
    | 'L' => some (.insertLines count)
    | 'M' => some (.deleteLines count)
    | 'P' => some (.deleteChars count)
    | '@' => some (.insertChars count)
    | 'm' => some (.paint pars)
    | 'r' => some (.region (first - 1) (if second = 0 then none else some second))
    | 's' => some .save
    | 'u' => some .restore
    | _ => none

/-- There are at most sixteen parameters. -/
def parameter (c : Nat) (done : List Nat) (last : Nat) : Parser × Option Command :=
  if c = ';'.toNat ∧ done.length < 15 then (.parameters (done ++ [last]) 0, none)
  else if '0'.toNat ≤ c ∧ c ≤ '9'.toNat then (.parameters done ((10 * last + (c - '0'.toNat)) % 2 ^ 32), none)
  else (.ground, sequence c (done ++ [last]))

def feed (eraseChar c : Nat) : Parser → Parser × Option Command
  | .ground => control eraseChar c
  | .escape => escaped c
  | .bracket => if c = '?'.toNat then (.parameters [] 0, none) else parameter c [] 0
  | .parameters done last => parameter c done last

/-- The commands in a stream; with each byte comes the `ERASE_CHAR(tty)` of the time it is written. -/
def commands (p : Parser) : List (Nat × UInt8) → List Command
  | [] => []
  | (eraseChar, c) :: rest =>
    let step := p.feed eraseChar c.toNat
    step.2.toList ++ step.1.commands rest

/-- The parser behind a stream. -/
def rest (p : Parser) (stream : List (Nat × UInt8)) : Parser :=
  stream.foldl (fun p b => (p.feed b.1 b.2.toNat).1) p

theorem rest_append (p : Parser) (stream stream' : List (Nat × UInt8)) :
    p.rest (stream ++ stream') = (p.rest stream).rest stream' := List.foldl_append ..

theorem commands_append (p : Parser) (stream stream' : List (Nat × UInt8)) :
    p.commands (stream ++ stream') = p.commands stream ++ (p.rest stream).commands stream' := by
  induction stream generalizing p with
  | nil => rfl
  | cons b stream ih =>
    obtain ⟨eraseChar, c⟩ := b
    simp only [List.cons_append, commands]
    rw [ih, List.append_assoc]
    rfl

end Parser

end Linux011.Chr
