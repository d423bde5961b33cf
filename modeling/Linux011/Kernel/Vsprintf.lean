import Mathlib.Data.Nat.Digits.Lemmas

/-!
# kernel/vsprintf.c

`number` and `vsprintf`. A format is the list of its characters before the NUL, and `args` are the words on
the stack from the next argument on. What is appended to the buffer is a list of its own.
-/

namespace Linux011.Kernel

/-- The flags of `number`. -/
structure Flags where
  zeropad : Bool
  sign : Bool
  plus : Bool
  space : Bool
  left : Bool
  special : Bool
  small : Bool
  deriving DecidableEq

def Flags.none : Flags := ⟨false, false, false, false, false, false, false⟩

namespace Vsprintf

/-- `while (a < b--) *str++ = c;`, with what is left in `b`. -/
def fillLoop (c : Char) (a : Int32) : (rounds : Nat) → (b : Int32) → List Char × Int32
  | 0, b => ([], b - 1)
  | rounds + 1, b =>
    if a < b then
      let r := fillLoop c a rounds (b - 1)
      (c :: r.1, r.2)
    else ([], b - 1)

def fill (c : Char) (a b : Int32) : List Char × Int32 := fillLoop c a (b.toInt - a.toInt).toNat b

/-! ## number -/

def upper : List Char := "0123456789ABCDEFGHIJKLMNOPQRSTUVWXYZ".toList

def lower : List Char := "0123456789abcdefghijklmnopqrstuvwxyz".toList

/-- `while (num!=0) tmp[i++]=digits[do_div(num,base)];`, with room for `room` more characters in `tmp`. The
division is one of unsigned numbers. -/
def digitLoop (digits : List Char) (base : Nat) : (room num : Nat) → List Char → Option (List Char)
  | 0, num, tmp => if num = 0 then some tmp else none
  | room + 1, num, tmp =>
    if num = 0 then some tmp else digitLoop digits base room (num / base) (tmp ++ [digits.getD (num % base) '0'])

/-- The digits in `tmp`, the last one first. -/
def makeTmp (digits : List Char) (base num : Int32) : Option (List Char) :=
  if num = 0 then some ['0'] else digitLoop digits base.toInt.toNat 36 num.toUInt32.toNat []

/-- The sign, and the number without it. -/
def takeSign (num : Int32) (type : Flags) : List Char × Int32 :=
  if type.sign ∧ num < 0 then (['-'], -num)
  else (if type.plus then ['+'] else if type.space then [' '] else [], num)

/-- The room that sign and prefix take. -/
def takeRoom (sign : List Char) (base size : Int32) (type : Flags) : Int32 :=
  let size := if sign ≠ [] then size - 1 else size
  if type.special then
    if base = 16 then size - 2 else if base = 8 then size - 1 else size
  else size

def specialPrefix (digits : List Char) (base : Int32) (type : Flags) : List Char :=
  if type.special then
    if base = 8 then ['0'] else if base = 16 then ['0', digits.getD 33 '0'] else []
  else []

/-- The end of `number`, with the loops that count `size` down. -/
def putNumber (type : Flags) (size : Int32) (sign special digits : List Char) : List Char :=
  let c := if type.zeropad then '0' else ' '
  let blanks := if !(type.zeropad || type.left) then fill ' ' 0 size else ([], size)
  let padding := if !type.left then fill c 0 blanks.2 else ([], blanks.2)
  let trailing := fill ' ' 0 padding.2
  blanks.1 ++ sign ++ special ++ padding.1 ++ digits ++ trailing.1

/-- `number`; it gives `none` if it returns 0 or leaves `tmp`. -/
def number (num base size precision : Int32) (type : Flags) : Option (List Char) :=
  let digits := if type.small then lower else upper
  let type := if type.left then { type with zeropad := false } else type
  if base < 2 ∨ base > 36 then none
  else do
    let sign := takeSign num type
    let size := takeRoom sign.1 base size type
    let tmp ← makeTmp digits base sign.2
    let i := Int32.ofNat tmp.length
    let precision := if i > precision then i else precision
    let size := size - precision
    return putNumber type size sign.1 (specialPrefix digits base type) ((fill '0' i precision).1 ++ tmp.reverse)

/-! ## vsprintf -/

/-- `is_digit` -/
def isDigit (c : Char) : Bool := '0' ≤ c && c ≤ '9'

/-- `skip_atoi` -/
def skipAtoi : List Char → Int32 → Int32 × List Char
  | [], i => (i, [])
  | c :: fmt, i =>
    if isDigit c then skipAtoi fmt (i * 10 + Int32.ofNat c.toNat - Int32.ofNat '0'.toNat) else (i, c :: fmt)

/-- The loop at `repeat`, behind the `%`. -/
def processFlags : List Char → Flags → Flags × List Char
  | '-' :: fmt, flags => processFlags fmt { flags with left := true }
  | '+' :: fmt, flags => processFlags fmt { flags with plus := true }
  | ' ' :: fmt, flags => processFlags fmt { flags with space := true }
  | '#' :: fmt, flags => processFlags fmt { flags with special := true }
  | '0' :: fmt, flags => processFlags fmt { flags with zeropad := true }
  | fmt, flags => (flags, fmt)

abbrev Args := Nat → Int32

/-- The arguments behind the next one. -/
def Args.tail (args : Args) : Args := fun i => args (i + 1)

/-- What `vsprintf` knows of a directive. -/
structure Directive where
  flags : Flags
  fieldWidth : Int32
  precision : Int32
  fmt : List Char
  args : Args

/-- The field width; a `*` stays where it is. -/
def getFieldWidth (flags : Flags) (fmt : List Char) (args : Args) : Directive :=
  match fmt with
  | [] => ⟨flags, -1, -1, [], args⟩
  | c :: rest =>
    if isDigit c then
      let r := skipAtoi (c :: rest) 0
      ⟨flags, r.1, -1, r.2, args⟩
    else if c = '*' then
      if args 0 < 0 then ⟨{ flags with left := true }, -args 0, -1, c :: rest, args.tail⟩
      else ⟨flags, args 0, -1, c :: rest, args.tail⟩
    else ⟨flags, -1, -1, c :: rest, args⟩

/-- The precision behind the dot; a `*` stays where it is. -/
def getPrecision (d : Directive) (fmt : List Char) : Directive :=
  let d := match fmt with
    | [] => { d with fmt := [] }
    | c :: rest =>
      if isDigit c then
        let r := skipAtoi (c :: rest) 0
        { d with precision := r.1, fmt := r.2 }
      else if c = '*' then { d with precision := d.args 0, fmt := c :: rest, args := d.args.tail }
      else { d with fmt := c :: rest }
  if d.precision < 0 then { d with precision := 0 } else d

def skipQualifier : List Char → List Char
  | [] => []
  | c :: fmt => if c = 'h' ∨ c = 'l' ∨ c = 'L' then fmt else c :: fmt

/-- `get the precision` -/
def atPrecision (d : Directive) : Directive :=
  match d.fmt with
  | '.' :: rest => getPrecision d rest
  | _ => d

/-- From behind the `%` to the conversion. -/
def directive (fmt : List Char) (args : Args) : Directive :=
  let r := processFlags fmt Flags.none
  let d := atPrecision (getFieldWidth r.1 r.2 args)
  { d with fmt := skipQualifier d.fmt }

/-- `while (--field_width > 0) *str++ = ' ';` -/
def blankLoop : (rounds : Nat) → (fieldWidth : Int32) → List Char × Int32
  | 0, fieldWidth => ([], fieldWidth - 1)
  | rounds + 1, fieldWidth =>
    if fieldWidth - 1 > 0 then
      let r := blankLoop rounds (fieldWidth - 1)
      (' ' :: r.1, r.2)
    else ([], fieldWidth - 1)

def blanks (fieldWidth : Int32) : List Char × Int32 := blankLoop (fieldWidth - 1).toInt.toNat fieldWidth

/-- `case 'c'` -/
def putChar (d : Directive) : List Char :=
  let before := if !d.flags.left then blanks d.fieldWidth else ([], d.fieldWidth)
  before.1 ++ [Char.ofNat ((d.args 0).toUInt32.toNat % 256)] ++ (blanks before.2).1

/-- `case 's'`, of the string `s`. -/
def putString (d : Directive) (s : List Char) : List Char :=
  let len := Int32.ofNat s.length
  let len := if d.precision < 0 then len else if len > d.precision then d.precision else len
  let before := if !d.flags.left then fill ' ' len d.fieldWidth else ([], d.fieldWidth)
  before.1 ++ s.take len.toInt.toNat ++ (fill ' ' len before.2).1

/-- The switch over the conversion `c`, which `len` characters stand before: what is written to the buffer, what
is stored through a pointer, and the arguments behind. -/
def convert (string : Int32 → List Char) (len : Nat) (d : Directive) (c : Char) :
    Option (List Char × List (Int32 × Int32) × Args) :=
  let numeric (base : Int32) (d : Directive) : Option (List Char × List (Int32 × Int32) × Args) := do
    let text ← number (d.args 0) base d.fieldWidth d.precision d.flags
    return (text, [], d.args.tail)
  match c with
  | 'c' => some (putChar d, [], d.args.tail)
  | 's' => some (putString d (string (d.args 0)), [], d.args.tail)
  | 'o' => numeric 8 d
  | 'p' =>
    if d.fieldWidth = -1 then numeric 16 { d with fieldWidth := 8, flags := { d.flags with zeropad := true } }
    else numeric 16 d
  | 'x' => numeric 16 { d with flags := { d.flags with small := true } }
  | 'X' => numeric 16 d
  | 'd' => numeric 10 { d with flags := { d.flags with sign := true } }
  | 'i' => numeric 10 { d with flags := { d.flags with sign := true } }
  | 'u' => numeric 10 d
  | 'n' => some ([], [(d.args 0, Int32.ofNat len)], d.args.tail)
  | '%' => some (['%'], [], d.args)
  | c => some (['%', c], [], d.args)

/-- The loop of `vsprintf`, with `len` characters written. Each round takes a character of the format at
least. `string` reads the memory that a pointer points to up to a NUL. -/
def vsprintfLoop (string : Int32 → List Char) :
    (rounds len : Nat) → List Char → Args → Option (List Char × List (Int32 × Int32))
  | _, _, [], _ => some ([], [])
  | 0, _, _ :: _, _ => none
  | rounds + 1, len, c :: fmt, args =>
    if c ≠ '%' then do
      let (text, stores) ← vsprintfLoop string rounds (len + 1) fmt args
      return (c :: text, stores)
    else
      let d := directive fmt args
      match d.fmt with
      | [] => some (['%'], [])
      | c :: fmt => do
        let (text, stores, args) ← convert string len d c
        let (text', stores') ← vsprintfLoop string rounds (len + text.length) fmt args
        return (text ++ text', stores ++ stores')

/-- `vsprintf`: the text before the NUL, whose length it returns, and what `%n` stores. -/
def vsprintf (string : Int32 → List Char) (fmt : List Char) (args : Args) :
    Option (List Char × List (Int32 × Int32)) :=
  vsprintfLoop string fmt.length 0 fmt args

end Vsprintf

end Linux011.Kernel
