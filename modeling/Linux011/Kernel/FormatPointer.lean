import Linux011.Lib.Terminated
import Linux011.Kernel.Directive

/-!
# The format as a pointer

`vsprintf` as the source has it, with a pointer into the format that goes forward at six places and once goes
back, and with a buffer in memory. It gives `none` if it reads behind the NUL or has no fuel left; it does
neither, and does the same as `vsprintf` on the characters of the format.
-/

namespace Linux011.Kernel

namespace Vsprintf

abbrev Format := Lib.Terminated '\x00'

/-- The buffer, and the pointer behind what is stored. -/
structure Buffer where
  mem : Nat → Char
  str : Nat

/-- `*str++ = c` -/
def Buffer.put (b : Buffer) (c : Char) : Buffer := ⟨Function.update b.mem b.str c, b.str + 1⟩

def Buffer.puts (b : Buffer) (text : List Char) : Buffer := text.foldl Buffer.put b

/-- What `vsprintf` knows of a directive, with the pointer into the format. -/
structure Pointed where
  flags : Flags
  fieldWidth : Int32
  precision : Int32
  fmt : Nat
  args : Args

/-! ## The source -/

/-- `i = i*10 + *((*s)++) - '0'`, of a digit. -/
def addDigit (i : Int32) (c : Char) : Option Int32 :=
  if isDigit c then some (i * 10 + Int32.ofNat c.toNat - Int32.ofNat '0'.toNat) else none

/-- `skip_atoi` -/
def skipAtoiAt (s : Format) (fuel fmt : Nat) : Option (Int32 × Nat) := s.walk addDigit fuel fmt 0

/-- The switch at `repeat`. -/
def addFlag (flags : Flags) : Char → Option Flags
  | '-' => some { flags with left := true }
  | '+' => some { flags with plus := true }
  | ' ' => some { flags with space := true }
  | '#' => some { flags with special := true }
  | '0' => some { flags with zeropad := true }
  | _ => none

/-- `process flags`, from the `%` on. -/
def flagsAt (s : Format) (fuel fmt : Nat) : Option (Flags × Nat) := s.walk addFlag fuel (fmt + 1) Flags.none

/-- `get field width` -/
def fieldWidthAt (s : Format) (fuel : Nat) (flags : Flags) (fmt : Nat) (args : Args) : Option Pointed := do
  let c ← s.read fmt
  if isDigit c then
    let (fieldWidth, fmt) ← skipAtoiAt s fuel fmt
    return ⟨flags, fieldWidth, -1, fmt, args⟩
  else if c = '*' then
    if args 0 < 0 then return ⟨{ flags with left := true }, -args 0, -1, fmt, args.tail⟩
    else return ⟨flags, args 0, -1, fmt, args.tail⟩
  else return ⟨flags, -1, -1, fmt, args⟩

/-- `if (precision < 0) precision = 0` -/
def Pointed.clamp (d : Pointed) : Pointed := if d.precision < 0 then { d with precision := 0 } else d

/-- The precision behind the dot. -/
def behindDot (s : Format) (fuel : Nat) (d : Pointed) : Option Pointed := do
  let c ← s.read d.fmt
  if isDigit c then
    let (precision, fmt) ← skipAtoiAt s fuel d.fmt
    return { d with precision, fmt }
  else if c = '*' then return { d with precision := d.args 0, args := d.args.tail }
  else return d

/-- `get the precision` -/
def precisionAt (s : Format) (fuel : Nat) (d : Pointed) : Option Pointed := do
  let c ← s.read d.fmt
  if c = '.' then (behindDot s fuel { d with fmt := d.fmt + 1 }).map Pointed.clamp else return d

/-- `get the conversion qualifier` -/
def qualifierAt (s : Format) (d : Pointed) : Option Pointed := do
  let c ← s.read d.fmt
  return if c = 'h' ∨ c = 'l' ∨ c = 'L' then { d with fmt := d.fmt + 1 } else d

def directiveAt (s : Format) (fuel fmt : Nat) (args : Args) : Option Pointed := do
  let (flags, fmt) ← flagsAt s fuel fmt
  let d ← fieldWidthAt s fuel flags fmt args
  let d ← precisionAt s fuel d
  qualifierAt s d

/-- The switch over the conversion, with `len` characters stored. At the NUL the pointer goes back, so that
`++fmt` of the loop comes to the NUL again. -/
def convertAt (string : Int32 → List Char) (s : Format) (len : Nat) (d : Pointed) (b : Buffer) :
    Option (Nat × Buffer × List (Int32 × Int32) × Args) := do
  let c ← s.read d.fmt
  if c = '\x00' then return (d.fmt - 1, b.put '%', [], d.args)
  else
    let (text, stores, args) ← convert string len ⟨d.flags, d.fieldWidth, d.precision, [], d.args⟩ c
    return (d.fmt, b.puts text, stores, args)

/-- `for (str=buf ; *fmt ; ++fmt)` -/
def loopAt (string : Int32 → List Char) (s : Format) (buf : Nat) :
    (fuel fmt : Nat) → Buffer → Args → Option (Buffer × List (Int32 × Int32))
  | 0, _, _, _ => none
  | fuel + 1, fmt, b, args => do
    let c ← s.read fmt
    if c = '\x00' then return (b, [])
    else if c ≠ '%' then loopAt string s buf fuel (fmt + 1) (b.put c) args
    else
      let d ← directiveAt s fuel fmt args
      let (fmt, b, stores, args) ← convertAt string s (b.str - buf) d b
      let (b, stores') ← loopAt string s buf fuel (fmt + 1) b args
      return (b, stores ++ stores')

/-- `vsprintf`: what it returns, the memory, and what `%n` stores. -/
def vsprintfAt (string : Int32 → List Char) (fuel buf : Nat) (s : Format) (args : Args) (mem : Nat → Char) :
    Option (Int32 × (Nat → Char) × List (Int32 × Int32)) := do
  let (b, stores) ← loopAt string s buf fuel 0 ⟨mem, buf⟩ args
  return (Int32.ofNat (b.str - buf), (b.put '\x00').mem, stores)

/-! ## The pointer and the rest of the format -/

theorem skipAtoi_walkList (l : List Char) (i : Int32) : skipAtoi l i = Lib.walkList addDigit l i := by
  induction l generalizing i with
  | nil => rfl
  | cons c l ih =>
    unfold skipAtoi Lib.walkList addDigit
    split
    · exact ih _
    · rfl

theorem processFlags_walkList (l : List Char) (flags : Flags) :
    processFlags l flags = Lib.walkList addFlag l flags := by
  fun_induction processFlags l flags with
  | case1 fmt flags ih => exact ih
  | case2 fmt flags ih => exact ih
  | case3 fmt flags ih => exact ih
  | case4 fmt flags ih => exact ih
  | case5 fmt flags ih => exact ih
  | case6 fmt flags h1 h2 h3 h4 h5 =>
    cases fmt with
    | nil => rfl
    | cons c fmt =>
      unfold Lib.walkList
      rw [addFlag.eq_6]
      · exact fun h => h1 fmt (by rw [h])
      · exact fun h => h2 fmt (by rw [h])
      · exact fun h => h3 fmt (by rw [h])
      · exact fun h => h4 fmt (by rw [h])
      · exact fun h => h5 fmt (by rw [h])

/-- A directive with the pointer in the place of what is left of the format. -/
def Directive.at (d : Directive) (fmt : Nat) : Pointed := ⟨d.flags, d.fieldWidth, d.precision, fmt, d.args⟩

variable {s : Format} {p fuel : Nat} {l : List Char}

theorem skipAtoiAt_rest (h : s.Rest p l) (hfuel : l.length < fuel) :
    ∃ q, skipAtoiAt s fuel p = some ((skipAtoi l 0).1, q) ∧ s.Rest q (skipAtoi l 0).2 := by
  rw [skipAtoi_walkList]
  exact h.walk (fun _ => rfl) hfuel 0

theorem flagsAt_rest (h : s.Rest p ('%' :: l)) (hfuel : l.length < fuel) :
    ∃ q, flagsAt s fuel p = some ((processFlags l Flags.none).1, q) ∧ s.Rest q (processFlags l Flags.none).2 := by
  rw [processFlags_walkList]
  exact h.next.walk (fun _ => rfl) hfuel Flags.none

theorem fieldWidthAt_rest (h : s.Rest p l) (hfuel : l.length < fuel) (flags : Flags) (args : Args) :
    ∃ q, fieldWidthAt s fuel flags p args = some ((getFieldWidth flags l args).at q) ∧
      s.Rest q (getFieldWidth flags l args).fmt := by
  unfold fieldWidthAt
  cases l with
  | nil =>
    rw [h.read_nil]
    exact ⟨p, rfl, h⟩
  | cons c rest =>
    rw [h.read_cons, Option.bind_eq_bind, Option.bind_some]
    by_cases hdigit : isDigit c = true
    · obtain ⟨q, hq, hrest⟩ := skipAtoiAt_rest h hfuel
      rw [if_pos hdigit, hq, getFieldWidth_digit hdigit]
      exact ⟨q, rfl, hrest⟩
    · rw [if_neg hdigit]
      by_cases hstar : c = '*'
      · subst hstar
        rw [if_pos rfl, getFieldWidth_star]
        split
        · exact ⟨p, rfl, h⟩
        · exact ⟨p, rfl, h⟩
      · rw [if_neg hstar, getFieldWidth_other hdigit hstar]
        exact ⟨p, rfl, h⟩

theorem Directive.at_fmt (d : Directive) (fmt : Nat) : (d.at fmt).fmt = fmt := rfl

theorem Directive.clamp_at (d : Directive) (fmt : Nat) : (d.at fmt).clamp = d.clamp.at fmt := by
  unfold Directive.clamp Pointed.clamp Directive.at
  simp only
  split
  · rfl
  · rfl

theorem behindDot_rest (d : Directive) (h : s.Rest p l) (hfuel : l.length < fuel) :
    ∃ q, (behindDot s fuel (d.at p)).map Pointed.clamp = some ((getPrecision d l).at q) ∧
      s.Rest q (getPrecision d l).fmt := by
  unfold behindDot
  rw [Directive.at_fmt]
  cases l with
  | nil =>
    rw [h.read_nil]
    refine ⟨p, congrArg some (Directive.clamp_at { d with fmt := [] } p), ?_⟩
    rw [getPrecision_fmt]
    exact h
  | cons c rest =>
    rw [h.read_cons, Option.bind_eq_bind, Option.bind_some]
    by_cases hdigit : isDigit c = true
    · obtain ⟨q, hq, hrest⟩ := skipAtoiAt_rest h hfuel
      rw [if_pos hdigit, hq, getPrecision_digit hdigit, Directive.clamp_fmt]
      refine ⟨q, ?_, hrest⟩
      rw [← Directive.clamp_at]
      rfl
    · rw [if_neg hdigit]
      by_cases hstar : c = '*'
      · subst hstar
        rw [if_pos rfl, getPrecision_star, Directive.clamp_fmt]
        refine ⟨p, ?_, h⟩
        rw [← Directive.clamp_at]
        rfl
      · rw [if_neg hstar, getPrecision_other hdigit hstar, Directive.clamp_fmt]
        refine ⟨p, ?_, h⟩
        rw [← Directive.clamp_at]
        rfl

theorem precisionAt_rest {d : Directive} (h : s.Rest p d.fmt) (hfuel : d.fmt.length < fuel) :
    ∃ q, precisionAt s fuel (d.at p) = some ((atPrecision d).at q) ∧ s.Rest q (atPrecision d).fmt := by
  unfold precisionAt
  rw [Directive.at_fmt]
  by_cases hdot : ∃ rest, d.fmt = '.' :: rest
  · obtain ⟨rest, hfmt⟩ := hdot
    rw [hfmt] at h hfuel
    rw [h.read_cons, atPrecision_dot hfmt, Option.bind_eq_bind, Option.bind_some, if_pos rfl]
    exact behindDot_rest d h.next (Nat.lt_of_succ_lt hfuel)
  · have hother : ∀ rest, d.fmt ≠ '.' :: rest := fun rest heq => hdot ⟨rest, heq⟩
    rw [atPrecision_other hother]
    cases hfmt : d.fmt with
    | nil =>
      rw [hfmt] at h
      rw [h.read_nil]
      exact ⟨p, rfl, h⟩
    | cons c rest =>
      rw [hfmt] at h
      have hc : c ≠ '.' := fun heq => hother rest (by rw [hfmt, heq])
      rw [h.read_cons, Option.bind_eq_bind, Option.bind_some, if_neg hc]
      exact ⟨p, rfl, h⟩

theorem qualifierAt_rest {d : Directive} (h : s.Rest p d.fmt) :
    ∃ q, qualifierAt s (d.at p) = some (d.at q) ∧ s.Rest q (skipQualifier d.fmt) := by
  unfold qualifierAt
  rw [Directive.at_fmt]
  cases hfmt : d.fmt with
  | nil =>
    rw [hfmt] at h
    rw [h.read_nil]
    exact ⟨p, rfl, h⟩
  | cons c rest =>
    rw [hfmt] at h
    rw [h.read_cons, Option.bind_eq_bind, Option.bind_some]
    by_cases hc : c = 'h' ∨ c = 'l' ∨ c = 'L'
    · have hskip : skipQualifier (c :: rest) = rest := if_pos hc
      rw [if_pos hc, hskip]
      exact ⟨p + 1, rfl, h.next⟩
    · have hskip : skipQualifier (c :: rest) = c :: rest := if_neg hc
      rw [if_neg hc, hskip]
      exact ⟨p, rfl, h⟩

/-- A directive is read up to its conversion, or up to the NUL. -/
theorem directiveAt_rest (h : s.Rest p ('%' :: l)) (hfuel : l.length < fuel) (args : Args) :
    ∃ q, directiveAt s fuel p args = some ((directive l args).at q) ∧ s.Rest q (directive l args).fmt := by
  obtain ⟨p₁, hflags, h₁⟩ := flagsAt_rest h hfuel
  have hfuel₁ : (processFlags l Flags.none).2.length < fuel := by
    rw [processFlags_walkList]
    exact Nat.lt_of_le_of_lt (Lib.walkList_length_le ..) hfuel
  obtain ⟨p₂, hwidth, h₂⟩ := fieldWidthAt_rest h₁ hfuel₁ (processFlags l Flags.none).1 args
  have hfuel₂ : (getFieldWidth (processFlags l Flags.none).1 (processFlags l Flags.none).2 args).fmt.length < fuel := by
    rw [getFieldWidth_fmt]
    exact Nat.lt_of_le_of_lt (List.length_dropWhile_le ..) hfuel₁
  obtain ⟨p₃, hprecision, h₃⟩ := precisionAt_rest h₂ hfuel₂
  obtain ⟨p₄, hqualifier, h₄⟩ := qualifierAt_rest h₃
  refine ⟨p₄, ?_, h₄⟩
  unfold directiveAt
  simp only [hflags, hwidth, hprecision, hqualifier, Option.bind_eq_bind, Option.bind_some]
  rfl

/-! ## The loop -/

theorem Buffer.puts_str (b : Buffer) (text : List Char) : (b.puts text).str = b.str + text.length := by
  induction text generalizing b with
  | nil => rfl
  | cons c text ih =>
    show ((b.put c).puts text).str = _
    rw [ih, List.length_cons]
    exact Nat.add_right_comm ..

theorem Buffer.puts_append (b : Buffer) (text text' : List Char) : b.puts (text ++ text') = (b.puts text).puts text' :=
  List.foldl_append

/-- Nothing is stored outside of the text. -/
theorem Buffer.puts_other (b : Buffer) (text : List Char) {a : Nat} (ha : a < b.str ∨ b.str + text.length ≤ a) :
    (b.puts text).mem a = b.mem a := by
  induction text generalizing b with
  | nil => rfl
  | cons c text ih =>
    rw [List.length_cons] at ha
    have hne : a ≠ b.str := by omega
    calc ((b.put c).puts text).mem a
        _ = (b.put c).mem a := ih _ (by show a < b.str + 1 ∨ b.str + 1 + text.length ≤ a; omega)
        _ = b.mem a := Function.update_of_ne hne ..

theorem Buffer.puts_mem (b : Buffer) (text : List Char) {i : Nat} (hi : i < text.length) :
    (b.puts text).mem (b.str + i) = text[i] := by
  induction text generalizing b i with
  | nil => cases hi
  | cons c text ih =>
    cases i with
    | zero =>
      show ((b.put c).puts text).mem b.str = c
      rw [Buffer.puts_other _ _ (.inl (Nat.lt_succ_self _))]
      exact Function.update_self ..
    | succ i =>
      have hrest := ih (b.put c) (Nat.lt_of_succ_lt_succ hi)
      have haddr : b.str + 1 + i = b.str + (i + 1) := by omega
      show ((b.put c).puts text).mem _ = _
      rw [← haddr]
      exact hrest

/-- Every conversion ends. -/
theorem convert_some (string : Int32 → List Char) (len : Nat) (d : Directive) (c : Char) :
    ∃ text stores args, convert string len d c = some (text, stores, args) := by
  obtain ⟨m, hm⟩ := convert_takes c
  obtain ⟨text, htext, -⟩ := hm string d
  obtain ⟨stores, hstores⟩ := htext d.args d.fmt (fun _ _ => rfl) len
  exact ⟨text, stores, _, hstores⟩

theorem convertAt_nil {d : Directive} (h : s.Rest p []) (string : Int32 → List Char) (len : Nat) (b : Buffer) :
    convertAt string s len (d.at p) b = some (p - 1, b.put '%', [], d.args) := by
  unfold convertAt
  rw [Directive.at_fmt, h.read_nil]
  rfl

theorem convertAt_cons {d : Directive} {c : Char} {string : Int32 → List Char} {len : Nat} {text : List Char}
    {stores : List (Int32 × Int32)} {args : Args} (h : s.Rest p (c :: l))
    (hconvert : convert string len d c = some (text, stores, args)) (b : Buffer) :
    convertAt string s len (d.at p) b = some (p, b.puts text, stores, args) := by
  have hsame : convert string len ⟨d.flags, d.fieldWidth, d.precision, [], d.args⟩ c = some (text, stores, args) :=
    hconvert
  unfold convertAt
  rw [Directive.at_fmt, h.read_cons, Option.bind_eq_bind, Option.bind_some, if_neg h.ne]
  show (do
    let (text, stores, args) ← convert string len ⟨d.flags, d.fieldWidth, d.precision, [], d.args⟩ c
    return (p, b.puts text, stores, args)) = _
  rw [hsame]
  rfl

theorem scan_length (fmt : List Char) : (scan fmt).length ≤ fmt.length := by
  obtain ⟨mid, hmid, -⟩ := scan_split fmt
  have hlength := congrArg List.length hmid
  rw [List.length_append] at hlength
  omega

theorem loopAt_literal {c : Char} (hc : c ≠ '%') (h : s.Rest p (c :: l)) (string : Int32 → List Char) (buf : Nat)
    (b : Buffer) (args : Args) :
    loopAt string s buf (fuel + 1) p b args = loopAt string s buf fuel (p + 1) (b.put c) args := by
  rw [loopAt, h.read_cons]
  show (if c = '\x00' then _ else if c ≠ '%' then _ else _) = _
  rw [if_neg h.ne, if_pos hc]

/-- The pointer goes back to the character before the NUL, and forward again. -/
theorem loopAt_unfinished {q : Nat} (h : s.Rest p ('%' :: l)) (hfuel : l.length < fuel) {args : Args}
    (hdirective : directiveAt s fuel p args = some ((directive l args).at q)) (hrest : s.Rest q [])
    (string : Int32 → List Char) (buf : Nat) (b : Buffer) :
    loopAt string s buf (fuel + 1) p b args = some (b.put '%', []) := by
  have hback : q - 1 + 1 = q := by
    have hp := h.length
    have hq := hrest.length
    rw [List.length_cons] at hp
    rw [List.length_nil] at hq
    omega
  have hend : loopAt string s buf fuel (q - 1 + 1) (b.put '%') (directive l args).args = some (b.put '%', []) := by
    obtain ⟨fuel, rfl⟩ := Nat.exists_eq_add_one.mpr (Nat.zero_lt_of_lt hfuel)
    rw [hback, loopAt, hrest.read_nil]
    rfl
  rw [loopAt, h.read_cons]
  show (do
    let d ← directiveAt s fuel p args
    let (fmt, b, stores, args) ← convertAt string s (b.str - buf) d b
    let (b, stores') ← loopAt string s buf fuel (fmt + 1) b args
    return (b, stores ++ stores')) = _
  simp only [hdirective, Option.bind_eq_bind, Option.bind_some, convertAt_nil hrest, hend]
  rfl

theorem loopAt_directive {q : Nat} {c : Char} {rest text : List Char} {stores : List (Int32 × Int32)}
    (h : s.Rest p ('%' :: l)) {args args' : Args}
    (hdirective : directiveAt s fuel p args = some ((directive l args).at q)) (hrest : s.Rest q (c :: rest))
    (string : Int32 → List Char) {buf len : Nat} {b : Buffer} (hlen : b.str = buf + len)
    (hconvert : convert string len (directive l args) c = some (text, stores, args')) :
    loopAt string s buf (fuel + 1) p b args =
      (loopAt string s buf fuel (q + 1) (b.puts text) args').map fun r => (r.1, stores ++ r.2) := by
  have hstr : b.str - buf = len := by omega
  rw [loopAt, h.read_cons]
  show (do
    let d ← directiveAt s fuel p args
    let (fmt, b, stores, args) ← convertAt string s (b.str - buf) d b
    let (b, stores') ← loopAt string s buf fuel (fmt + 1) b args
    return (b, stores ++ stores')) = _
  simp only [hdirective, Option.bind_eq_bind, Option.bind_some, hstr, convertAt_cons hrest hconvert]
  cases loopAt string s buf fuel (q + 1) (b.puts text) args' with
  | none => rfl
  | some r => rfl

/-- The pointer does what is done to the rest of the format that it stands before. -/
theorem loopAt_rest (string : Int32 → List Char) {rounds len buf : Nat} {b : Buffer} (h : s.Rest p l)
    (hfuel : l.length < fuel) (hrounds : l.length ≤ rounds) (hlen : b.str = buf + len) (args : Args) :
    ∃ text stores, vsprintfLoop string rounds len l args = some (text, stores) ∧
      loopAt string s buf fuel p b args = some (b.puts text, stores) := by
  induction fuel generalizing p l rounds len b args with
  | zero => cases hfuel
  | succ fuel ih =>
    cases l with
    | nil =>
      refine ⟨[], [], ?_, ?_⟩
      · cases rounds with
        | zero => rfl
        | succ rounds => rfl
      · rw [loopAt, h.read_nil]
        rfl
    | cons c l =>
      rw [List.length_cons] at hfuel hrounds
      obtain ⟨rounds, rfl⟩ : ∃ r, rounds = r + 1 := ⟨rounds - 1, by omega⟩
      have hfuel := Nat.lt_of_succ_lt_succ hfuel
      by_cases hc : c = '%'
      · subst hc
        obtain ⟨q, hdirective, hrest⟩ := directiveAt_rest h hfuel args
        have hscan := directive_fmt l args
        cases hfmt : (directive l args).fmt with
        | nil =>
          -- the format ends within the directive
          rw [hfmt] at hrest
          refine ⟨['%'], [], ?_, loopAt_unfinished h hfuel hdirective hrest string buf b⟩
          rw [vsprintfLoop, if_neg (by decide)]
          simp only [hfmt]
        | cons c' rest =>
          rw [hfmt] at hrest hscan
          -- what is left behind the conversion is shorter, and the fuel is enough for it
          have hle := scan_length l
          rw [← hscan, List.length_cons] at hle
          obtain ⟨text, stores, args', hconvert⟩ := convert_some string len (directive l args) c'
          have hlen' : (b.puts text).str = buf + (len + text.length) := by
            rw [Buffer.puts_str, hlen, Nat.add_assoc]
          obtain ⟨text', stores', hloop, hloopAt⟩ :=
            ih hrest.next (by omega) (show rest.length ≤ rounds by omega) hlen' args'
          refine ⟨text ++ text', stores ++ stores', ?_, ?_⟩
          · rw [vsprintfLoop, if_neg (by decide)]
            simp only [hfmt, hconvert, hloop, Option.bind_eq_bind, Option.bind_some]
            rfl
          · rw [loopAt_directive h hdirective hrest string hlen hconvert, hloopAt, Buffer.puts_append]
            rfl
      · have hlen' : (b.put c).str = buf + (len + 1) := congrArg (· + 1) hlen
        obtain ⟨text, stores, hloop, hloopAt⟩ :=
          ih h.next hfuel (Nat.le_of_succ_le_succ hrounds) hlen' args
        refine ⟨c :: text, stores, ?_, ?_⟩
        · rw [vsprintfLoop, if_pos hc, hloop]
          rfl
        · rw [loopAt_literal hc h, hloopAt]
          rfl

/-- `vsprintf` ends, reads no character behind the NUL, stores a text and a NUL behind it and nothing else, and
returns how many characters the text has. -/
theorem vsprintfAt_ends (string : Int32 → List Char) (s : Format) (args : Args) (buf : Nat) (mem : Nat → Char) :
    ∃ text ret mem' stores,
      (∀ fuel, s.chars.length < fuel → vsprintfAt string fuel buf s args mem = some (ret, mem', stores)) ∧
      vsprintf string s.chars args = some (text, stores) ∧
      (∀ i, ∀ hi : i < text.length, mem' (buf + i) = text[i]) ∧ mem' (buf + text.length) = '\x00' ∧
      (∀ a, a < buf ∨ buf + text.length < a → mem' a = mem a) ∧
      ret = Int32.ofNat text.length ∧ (text.length < 2 ^ 31 → ret.toInt = text.length) := by
  obtain ⟨text, stores, htext, -⟩ := loopAt_rest string (b := ⟨mem, buf⟩) Lib.Terminated.rest_zero
    (Nat.lt_succ_self s.chars.length) (Nat.le_refl _) (Nat.add_zero buf).symm args
  have hstr : ((⟨mem, buf⟩ : Buffer).puts text).str = buf + text.length := Buffer.puts_str ..
  refine ⟨text, Int32.ofNat text.length, (((⟨mem, buf⟩ : Buffer).puts text).put '\x00').mem, stores,
    fun fuel hfuel => ?_, htext, fun i hi => ?_, ?_, fun a ha => ?_, rfl, fun hlt => ?_⟩
  · -- more fuel gives the same text
    obtain ⟨text₁, stores₁, htext₁, hloopAt⟩ := loopAt_rest string (b := ⟨mem, buf⟩) Lib.Terminated.rest_zero hfuel
      (Nat.le_refl _) (Nat.add_zero buf).symm args
    rw [htext] at htext₁
    cases htext₁
    have hcount : ((⟨mem, buf⟩ : Buffer).puts text).str - buf = text.length := by omega
    unfold vsprintfAt
    rw [hloopAt]
    simp only [Option.bind_eq_bind, Option.bind_some]
    rw [hcount]
    rfl
  · have hne : buf + i ≠ ((⟨mem, buf⟩ : Buffer).puts text).str := by omega
    exact (Function.update_of_ne hne ..).trans (Buffer.puts_mem ⟨mem, buf⟩ text hi)
  · rw [← hstr]
    exact Function.update_self ..
  · have hne : a ≠ ((⟨mem, buf⟩ : Buffer).puts text).str := by omega
    exact (Function.update_of_ne hne ..).trans (Buffer.puts_other ⟨mem, buf⟩ text (ha.imp id Nat.le_of_lt))
  · exact Int32.toInt_ofNat_of_lt hlt

end Vsprintf

end Linux011.Kernel
