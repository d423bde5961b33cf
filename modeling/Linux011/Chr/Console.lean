import Mathlib.Logic.Function.Iterate
import Linux011.Chr.Screen

/-!
# kernel/chr_drv/console.c

`con_init` and `con_write`. Numbers are of 32 bits; a difference, a parameter and what is added to one may
wrap. The ports of the video card and the beep are left out. What `respond` puts into the read queue comes
back, if it is echoed, through another `con_write`.
-/

namespace Linux011.Chr

inductive VideoType where
  | mda
  | cga
  | egam
  | egac
  deriving DecidableEq

/-- `NPAR` -/
def nPar : Nat := 16

structure Console where
  videoType : VideoType
  videoNumColumns : Nat
  videoSizeRow : Nat
  videoNumLines : Nat
  videoMemStart : Nat
  videoMemEnd : Nat
  videoEraseChar : BitVec 16
  origin : Nat
  scrEnd : Nat
  pos : Nat
  x : Nat
  y : Nat
  top : Nat
  bottom : Nat
  state : Nat
  npar : Nat
  par : Nat → Nat
  ques : Bool
  attr : BitVec 8
  savedX : Nat
  savedY : Nat
  screen : Screen

namespace Console

/-! ## The cursor -/

def gotoxy (newX newY : Nat) (s : Console) : Console :=
  if newX > s.videoNumColumns ∨ newY ≥ s.videoNumLines then s
  else { s with x := newX, y := newY, pos := s.origin + newY * s.videoSizeRow + newX * 2 }

/-! ## Scrolling -/

/-- The assembler of `scrup` that copies lines. -/
def scrupLines (s : Console) : Console :=
  let moved := s.screen.movsl (sub32 (sub32 s.bottom s.top) 1 * s.videoNumColumns / 2)
    (s.origin + s.videoSizeRow * s.top) (s.origin + s.videoSizeRow * (s.top + 1))
  { s with screen := moved.2.stosw s.videoEraseChar s.videoNumColumns moved.1 }

/-- The assembler of `scrup` that takes the screen back to the start of the memory. -/
def scrupWrap (s : Console) : Console :=
  let moved := s.screen.movsl (sub32 s.videoNumLines 1 * s.videoNumColumns / 2) s.videoMemStart s.origin
  { s with
    screen := moved.2.stosw s.videoEraseChar s.videoNumColumns moved.1
    scrEnd := sub32 s.scrEnd (sub32 s.origin s.videoMemStart)
    pos := sub32 s.pos (sub32 s.origin s.videoMemStart)
    origin := s.videoMemStart }

def scrup (s : Console) : Console :=
  if s.videoType = .egac ∨ s.videoType = .egam then
    if s.top = 0 ∧ s.bottom = s.videoNumLines then
      let s := { s with
        origin := s.origin + s.videoSizeRow
        pos := s.pos + s.videoSizeRow
        scrEnd := s.scrEnd + s.videoSizeRow }
      if s.scrEnd > s.videoMemEnd then s.scrupWrap
      else
        { s with
          screen := s.screen.stosw s.videoEraseChar s.videoNumColumns (sub32 s.scrEnd s.videoSizeRow) }
    else s.scrupLines
  else s.scrupLines

/-- Both branches of the source are the same. -/
def scrdown (s : Console) : Console :=
  let moved := s.screen.movslStd (sub32 (sub32 s.bottom s.top) 1 * s.videoNumColumns / 2)
    (sub32 (s.origin + s.videoSizeRow * s.bottom) 4) (sub32 (s.origin + s.videoSizeRow * sub32 s.bottom 1) 4)
  { s with screen := moved.2.stoswStd s.videoEraseChar s.videoNumColumns (moved.1 + 2) }

def lf (s : Console) : Console :=
  if s.y + 1 < s.bottom then { s with y := s.y + 1, pos := s.pos + s.videoSizeRow } else s.scrup

def ri (s : Console) : Console :=
  if s.y > s.top then { s with y := s.y - 1, pos := sub32 s.pos s.videoSizeRow } else s.scrdown

def cr (s : Console) : Console := { s with pos := sub32 s.pos (s.x * 2), x := 0 }

def del (s : Console) : Console :=
  if s.x ≠ 0 then
    { s with
      pos := sub32 s.pos 2
      x := s.x - 1
      screen := s.screen.store (sub32 s.pos 2) s.videoEraseChar }
  else s

/-! ## Erasing, inserting, deleting -/

/-- `count` words from `start` on are erased. -/
def erase (count start : Nat) (s : Console) : Console :=
  { s with screen := s.screen.stosw s.videoEraseChar count start }

def csiJ (par : Nat) (s : Console) : Console :=
  match par with
  | 0 => s.erase (sub32 s.scrEnd s.pos / 2) s.pos
  | 1 => s.erase (sub32 s.pos s.origin / 2) s.origin
  | 2 => s.erase (s.videoNumColumns * s.videoNumLines) s.origin
  | _ => s

def csiK (par : Nat) (s : Console) : Console :=
  match par with
  | 0 => if s.x ≥ s.videoNumColumns then s else s.erase (sub32 s.videoNumColumns s.x) s.pos
  | 1 => s.erase (if s.x < s.videoNumColumns then s.x else s.videoNumColumns) (sub32 s.pos (s.x * 2))
  | 2 => s.erase s.videoNumColumns (sub32 s.pos (s.x * 2))
  | _ => s

/-- What one parameter of `csi_m` makes of the attribute. -/
def paint (par : Nat) (attr : BitVec 8) : BitVec 8 :=
  match par with
  | 0 => 0x07
  | 1 => 0x0f
  | 4 => 0x0f
  | 7 => 0x70
  | 27 => 0x07
  | _ => attr

def csi_m (s : Console) : Console :=
  { s with attr := (List.range (s.npar + 1)).foldl (fun attr i => paint (s.par i) attr) s.attr }

/-- `insert_char`: the loop runs while `x` counts up to `video_num_columns`. -/
def insertChar (s : Console) : Console :=
  { s with screen := s.screen.insertLoop (s.videoNumColumns - s.x) s.videoEraseChar s.pos }

/-- `insert_line` -/
def insertLine (s : Console) : Console :=
  { ({ s with top := s.y, bottom := s.videoNumLines } : Console).scrdown with top := s.top, bottom := s.bottom }

/-- `delete_char`: the loop runs while `x + 1` counts up to `video_num_columns`. -/
def deleteChar (s : Console) : Console :=
  if s.x ≥ s.videoNumColumns then s
  else { s with screen := s.screen.deleteLoop s.videoEraseChar (s.videoNumColumns - (s.x + 1)) s.pos }

/-- `delete_line` -/
def deleteLine (s : Console) : Console :=
  { ({ s with top := s.y, bottom := s.videoNumLines } : Console).scrup with top := s.top, bottom := s.bottom }

/-- How often `csi_at`, `csi_L`, `csi_P` and `csi_M` do what they do. -/
def times (nr max : Nat) : Nat := if nr > max then max else if nr = 0 then 1 else nr

def csiAt (nr : Nat) (s : Console) : Console := insertChar^[times nr s.videoNumColumns] s

def csiL (nr : Nat) (s : Console) : Console := insertLine^[times nr s.videoNumLines] s

def csiP (nr : Nat) (s : Console) : Console := deleteChar^[times nr s.videoNumColumns] s

def csiM (nr : Nat) (s : Console) : Console := deleteLine^[times nr s.videoNumLines] s

/-- `save_cur` -/
def saveCur (s : Console) : Console := { s with savedX := s.x, savedY := s.y }

/-- `restore_cur` -/
def restoreCur (s : Console) : Console := s.gotoxy s.savedX s.savedY

/-! ## con_write -/

def setPar (i v : Nat) (s : Console) : Console := { s with par := Function.update s.par i v }

/-- `if (!par[i]) par[i]++` -/
def atLeastOne (i : Nat) (s : Console) : Console := if s.par i = 0 then s.setPar i 1 else s

/-- `if (par[i]) par[i]--` -/
def fromZero (i : Nat) (s : Console) : Console := if s.par i ≠ 0 then s.setPar i (s.par i - 1) else s

/-- A printing character. -/
def print (c : Nat) (s : Console) : Console :=
  let s := if s.x ≥ s.videoNumColumns then
      lf { s with x := s.x - s.videoNumColumns, pos := sub32 s.pos s.videoSizeRow }
    else s
  { s with
    screen := s.screen.store s.pos (s.attr ++ BitVec.ofNat 8 c)
    pos := s.pos + 2
    x := s.x + 1 }

def tab (s : Console) : Console :=
  let c := 8 - s.x % 8
  let s := { s with x := s.x + c, pos := s.pos + c * 2 }
  if s.x > s.videoNumColumns then
    lf { s with x := s.x - s.videoNumColumns, pos := sub32 s.pos s.videoSizeRow }
  else s

/-- `case 0` of the states; `eraseChar` is `ERASE_CHAR(tty)`. -/
def case0 (eraseChar c : Nat) (s : Console) : Console :=
  if 31 < c ∧ c < 127 then s.print c
  else if c = 27 then { s with state := 1 }
  else if c = 10 ∨ c = 11 ∨ c = 12 then s.lf
  else if c = 13 then s.cr
  else if c < 128 ∧ c = eraseChar then s.del
  else if c = 8 then (if s.x ≠ 0 then { s with x := s.x - 1, pos := sub32 s.pos 2 } else s)
  else if c = 9 then s.tab
  else s

/-- `case 1`; the last two tests are about `x`, as in the source. -/
def case1 (c : Nat) (s : Console) : Console :=
  let s := { s with state := 0 }
  if c = '['.toNat then { s with state := 2 }
  else if c = 'E'.toNat then s.gotoxy 0 (s.y + 1)
  else if c = 'M'.toNat then s.ri
  else if c = 'D'.toNat then s.lf
  else if c = 'Z'.toNat then s
  else if s.x = '7'.toNat then s.saveCur
  else if s.x = '8'.toNat then s.restoreCur
  else s

/-- `case 4`: the end of a sequence. -/
def case4 (c : Nat) (s : Console) : Console :=
  let s := { s with state := 0 }
  match Char.ofNat c with
  | 'G' => let s := s.fromZero 0; s.gotoxy (s.par 0) s.y
  | 'A' => let s := s.atLeastOne 0; s.gotoxy s.x (sub32 s.y (s.par 0))
  | 'B' => let s := s.atLeastOne 0; s.gotoxy s.x (add32 s.y (s.par 0))
  | 'e' => let s := s.atLeastOne 0; s.gotoxy s.x (add32 s.y (s.par 0))
  | 'C' => let s := s.atLeastOne 0; s.gotoxy (add32 s.x (s.par 0)) s.y
  | 'a' => let s := s.atLeastOne 0; s.gotoxy (add32 s.x (s.par 0)) s.y
  | 'D' => let s := s.atLeastOne 0; s.gotoxy (sub32 s.x (s.par 0)) s.y
  | 'E' => let s := s.atLeastOne 0; s.gotoxy 0 (add32 s.y (s.par 0))
  | 'F' => let s := s.atLeastOne 0; s.gotoxy 0 (sub32 s.y (s.par 0))
  | 'd' => let s := s.fromZero 0; s.gotoxy s.x (s.par 0)
  | 'H' => let s := (s.fromZero 0).fromZero 1; s.gotoxy (s.par 1) (s.par 0)
  | 'f' => let s := (s.fromZero 0).fromZero 1; s.gotoxy (s.par 1) (s.par 0)
  | 'J' => s.csiJ (s.par 0)
  | 'K' => s.csiK (s.par 0)
  | 'L' => s.csiL (s.par 0)
  | 'M' => s.csiM (s.par 0)
  | 'P' => s.csiP (s.par 0)
  | '@' => s.csiAt (s.par 0)
  | 'm' => s.csi_m
  | 'r' =>
    let s := s.fromZero 0
    let s := if s.par 1 = 0 then s.setPar 1 s.videoNumLines else s
    if s.par 0 < s.par 1 ∧ s.par 1 ≤ s.videoNumLines then { s with top := s.par 0, bottom := s.par 1 } else s
  | 's' => s.saveCur
  | 'u' => s.restoreCur
  | _ =>
    -- The other label of the first case is the character 96.
    if c = 96 then
      let s := s.fromZero 0
      s.gotoxy (s.par 0) s.y
    else s

/-- `case 3`: a parameter goes on, or the sequence ends. -/
def case3 (c : Nat) (s : Console) : Console :=
  if c = ';'.toNat ∧ s.npar < nPar - 1 then { s with npar := s.npar + 1 }
  else if '0'.toNat ≤ c ∧ c ≤ '9'.toNat then
    s.setPar s.npar (sub32 ((10 * s.par s.npar + c) % 2 ^ 32) '0'.toNat)
  else case4 c { s with state := 4 }

/-- `case 2`: the first character behind the bracket. -/
def case2 (c : Nat) (s : Console) : Console :=
  let s := { s with
    par := fun i => if i < nPar then 0 else s.par i
    npar := 0
    state := 3
    ques := decide (c = '?'.toNat) }
  if s.ques then s else s.case3 c

/-- One round of the loop of `con_write`. -/
def putc (eraseChar : Nat) (s : Console) (c : UInt8) : Console :=
  match s.state with
  | 0 => s.case0 eraseChar c.toNat
  | 1 => s.case1 c.toNat
  | 2 => s.case2 c.toNat
  | 3 => s.case3 c.toNat
  | 4 => s.case4 c.toNat
  | _ => s

/-- `con_write`, of the bytes in the write queue. -/
def conWrite (eraseChar : Nat) (bytes : List UInt8) (s : Console) : Console := bytes.foldl (putc eraseChar) s

end Console

/-! ## con_init -/

/-- What `setup.s` left at `0x90000`. -/
structure Orig where
  x : Nat
  y : Nat
  videoMode : BitVec 16
  egaBx : BitVec 16

def Orig.mode (o : Orig) : Nat := (o.videoMode &&& 0xff#16).toNat

def Orig.columns (o : Orig) : Nat := ((o.videoMode &&& 0xff00#16) >>> 8).toNat

/-- The card, the start and the end of its memory, and its name. -/
def Orig.card (o : Orig) : VideoType × Nat × Nat × List Char :=
  if o.mode = 7 then
    if o.egaBx &&& 0xff#16 ≠ 0x10#16 then (.egam, 0xb0000, 0xb8000, ['E', 'G', 'A', 'm'])
    else (.mda, 0xb0000, 0xb2000, ['*', 'M', 'D', 'A'])
  else
    if o.egaBx &&& 0xff#16 ≠ 0x10#16 then (.egac, 0xb8000, 0xbc000, ['E', 'G', 'A', 'c'])
    else (.cga, 0xb8000, 0xba000, ['*', 'C', 'G', 'A'])

/-- The name of the card goes to the screen without attributes. -/
def Screen.describe : List Char → Nat → Screen → Screen
  | [], _, s => s
  | c :: desc, p, s => describe desc (p + 2) (s.store p ((s.ram p &&& 0xff00#16) ||| BitVec.ofNat 16 c.toNat))

/-- `con_init`; the static variables are zero before it. -/
def conInit (o : Orig) (ram : Nat → BitVec 16) : Console :=
  let (videoType, videoMemStart, videoMemEnd, desc) := o.card
  let videoSizeRow := o.columns * 2
  let s : Console := {
    videoType
    videoNumColumns := o.columns
    videoSizeRow
    videoNumLines := 25
    videoMemStart
    videoMemEnd
    videoEraseChar := 0x0720
    origin := videoMemStart
    scrEnd := videoMemStart + 25 * videoSizeRow
    pos := 0
    x := 0
    y := 0
    top := 0
    bottom := 25
    state := 0
    npar := 0
    par := fun _ => 0
    ques := false
    attr := 0x07
    savedX := 0
    savedY := 0
    screen := Screen.describe desc (sub32 (videoMemStart + videoSizeRow) 8) ⟨ram, []⟩ }
  s.gotoxy o.x o.y

end Linux011.Chr
