import Mathlib.Data.Nat.Digits.Defs
import Linux011.Chr.Refinement

/-!
# Sequences for the commands

Each command of the terminal can be written as a sequence of characters, and the parser of the console reads it back,
also in the middle of others.
-/

namespace Linux011.Chr

/-! ## Parameters -/

/-- The decimal digits of a number, none for zero. -/
def decimal (n : Nat) : List UInt8 := ((Nat.digits 10 n).map fun d => UInt8.ofNat (48 + d)).reverse

/-- Numbers with semicolons between them. -/
def joined : List Nat → List UInt8
  | [] => []
  | [n] => decimal n
  | n :: pars => decimal n ++ 59 :: joined pars

/-- The sequence that begins with ESC and a bracket. -/
def csi (pars : List Nat) (c : Char) : List UInt8 := 27 :: 91 :: (joined pars ++ [UInt8.ofNat c.toNat])

/-- What is written while `ERASE_CHAR(tty)` stays the same. -/
def typed (eraseChar : Nat) (bytes : List UInt8) : List (Nat × UInt8) := bytes.map fun c => (eraseChar, c)

@[simp] theorem typed_cons (eraseChar : Nat) (c : UInt8) (bytes : List UInt8) :
    typed eraseChar (c :: bytes) = (eraseChar, c) :: typed eraseChar bytes := rfl

@[simp] theorem typed_append (eraseChar : Nat) (bytes bytes' : List UInt8) :
    typed eraseChar (bytes ++ bytes') = typed eraseChar bytes ++ typed eraseChar bytes' := List.map_append

theorem decimal_succ {n : Nat} (h : 0 < n) : decimal n = decimal (n / 10) ++ [UInt8.ofNat (48 + n % 10)] := by
  unfold decimal
  rw [Nat.digits_def' (by decide) h, List.map_cons, List.reverse_cons]

theorem digit_toNat (n : Nat) : (UInt8.ofNat (48 + n % 10)).toNat = 48 + n % 10 := by
  rw [UInt8.toNat_ofNat']
  omega

theorem mem_decimal {n : Nat} {b : UInt8} (h : b ∈ decimal n) : 48 ≤ b.toNat ∧ b.toNat ≤ 57 := by
  induction n using Nat.strongRecOn with
  | ind n ih =>
    by_cases hn : 0 < n
    · rw [decimal_succ hn] at h
      rcases List.mem_append.mp h with h | h
      · exact ih (n / 10) (Nat.div_lt_self hn (by decide)) h
      · rw [List.mem_singleton.mp h, digit_toNat]
        omega
    · obtain rfl := Nat.eq_zero_of_not_pos hn
      exact absurd h List.not_mem_nil

namespace Parser

/-- What a stream is read as, and where the parser is behind it. -/
structure Reads (p : Parser) (stream : List (Nat × UInt8)) (commands : List Command) (p' : Parser) : Prop where
  commands : p.commands stream = commands
  rest : p.rest stream = p'

variable {p p' p'' : Parser} {stream stream' : List (Nat × UInt8)} {commands commands' : List Command}
  {eraseChar : Nat} {done : List Nat}

theorem Reads.nil (p : Parser) : Reads p [] [] p := ⟨rfl, rfl⟩

theorem Reads.append (h : Reads p stream commands p') (h' : Reads p' stream' commands' p'') :
    Reads p (stream ++ stream') (commands ++ commands') p'' := by
  constructor
  · rw [commands_append, h.commands, h.rest, h'.commands]
  · rw [rest_append, h.rest, h'.rest]

/-- One character. -/
theorem Reads.one {c : UInt8} {command : Option Command} (h : p.feed eraseChar c.toNat = (p', command)) :
    Reads p (typed eraseChar [c]) command.toList p' := by
  constructor
  · show (p.feed eraseChar c.toNat).2.toList ++ [] = _
    rw [List.append_nil, h]
  · show (p.feed eraseChar c.toNat).1 = _
    rw [h]

/-- A number is read digit by digit. -/
theorem reads_decimal {n : Nat} (h : n < 2 ^ 32) :
    Reads (.parameters done 0) (typed eraseChar (decimal n)) [] (.parameters done n) := by
  induction n using Nat.strongRecOn with
  | ind n ih =>
    by_cases hn : 0 < n
    · have hdigit : Parser.feed eraseChar (UInt8.ofNat (48 + n % 10)).toNat (.parameters done (n / 10)) =
          (.parameters done n, none) := by
        rw [digit_toNat]
        show parameter (48 + n % 10) done (n / 10) = _
        have hzero : '0'.toNat = 48 := rfl
        have hnine : '9'.toNat = 57 := rfl
        have hsemi : ';'.toNat = 59 := rfl
        unfold parameter
        rw [if_neg (by omega), if_pos (by omega)]
        congr 2
        omega
      rw [decimal_succ hn, typed_append]
      exact (ih (n / 10) (Nat.div_lt_self hn (by decide)) (by omega)).append (.one hdigit)
    · obtain rfl := Nat.eq_zero_of_not_pos hn
      exact .nil _

/-- The parameters are those that were written, and the character behind them ends the sequence. -/
theorem reads_joined {pars : List Nat} (hne : pars ≠ []) (hlength : done.length + pars.length ≤ 16)
    (hlt : ∀ n ∈ pars, n < 2 ^ 32) {c : UInt8} (hc : c.toNat ≠ 59 ∧ ¬ (48 ≤ c.toNat ∧ c.toNat ≤ 57)) :
    Reads (.parameters done 0) (typed eraseChar (joined pars ++ [c])) (sequence c.toNat (done ++ pars)).toList
      .ground := by
  induction pars generalizing done with
  | nil => exact absurd rfl hne
  | cons n pars ih =>
    obtain ⟨hn, hlt⟩ := List.forall_mem_cons.mp hlt
    have hnumber : Reads (.parameters done 0) (typed eraseChar (decimal n)) [] (.parameters done n) :=
      reads_decimal hn
    cases pars with
    | nil =>
      have hend : Parser.feed eraseChar c.toNat (.parameters done n) = (.ground, sequence c.toNat (done ++ [n])) := by
        show parameter c.toNat done n = _
        unfold parameter
        rw [if_neg fun h => hc.1 h.1]
        exact if_neg hc.2
      rw [typed_append]
      exact hnumber.append (.one hend)
    | cons n' pars =>
      simp only [List.length_cons] at hlength
      have hnext : Parser.feed eraseChar (59 : UInt8).toNat (.parameters done n) = (.parameters (done ++ [n]) 0, none) :=
        if_pos ⟨rfl, by omega⟩
      have hlength : (done ++ [n]).length + (n' :: pars).length ≤ 16 := by
        simp only [List.length_append, List.length_cons, List.length_nil]
        omega
      have hrest := ih (List.cons_ne_nil n' pars) hlength hlt
      rw [List.append_assoc] at hrest
      show Reads _ (typed eraseChar (decimal n ++ 59 :: joined (n' :: pars) ++ [c])) _ _
      rw [List.append_assoc, typed_append, List.cons_append, typed_cons]
      exact hnumber.append ((Reads.one hnext).append hrest)

/-- Behind the bracket there is a digit, a semicolon or the end of the sequence, but no question mark. -/
theorem Reads.bracket {c : UInt8} {bytes : List UInt8} (hc : c.toNat ≠ 63)
    (h : Reads (.parameters [] 0) (typed eraseChar (c :: bytes)) commands p') :
    Reads .bracket (typed eraseChar (c :: bytes)) commands p' := by
  have hfeed : Parser.feed eraseChar c.toNat .bracket = Parser.feed eraseChar c.toNat (.parameters [] 0) := if_neg hc
  constructor
  · rw [← h.commands, typed_cons, Parser.commands, Parser.commands, hfeed]
  · rw [← h.rest]
    show Parser.rest (Parser.feed eraseChar c.toNat .bracket).1 _ = _
    rw [hfeed]
    rfl

theorem joined_ne {pars : List Nat} {b : UInt8} (h : b ∈ joined pars) : b.toNat ≠ 63 := by
  induction pars with
  | nil => exact absurd h List.not_mem_nil
  | cons n pars ih =>
    cases pars with
    | nil =>
      have hdigit := mem_decimal h
      omega
    | cons n' pars =>
      rcases List.mem_append.mp h with h | h
      · have hdigit := mem_decimal h
        omega
      · rcases List.mem_cons.mp h with rfl | h
        · decide
        · exact ih h

theorem reads_csi {pars : List Nat} (hne : pars ≠ []) (hlength : pars.length ≤ 16) (hlt : ∀ n ∈ pars, n < 2 ^ 32)
    {c : Char} (hc : c.toNat < 128 ∧ c.toNat ≠ 59 ∧ c.toNat ≠ 63 ∧ ¬ (48 ≤ c.toNat ∧ c.toNat ≤ 57)) :
    Reads .ground (typed eraseChar (csi pars c)) (sequence c.toNat pars).toList .ground := by
  have hbyte : (UInt8.ofNat c.toNat).toNat = c.toNat := by
    rw [UInt8.toNat_ofNat']
    omega
  have hjoined : Reads (.parameters [] 0) (typed eraseChar (joined pars ++ [UInt8.ofNat c.toNat]))
      (sequence (UInt8.ofNat c.toNat).toNat ([] ++ pars)).toList .ground :=
    reads_joined hne (by simpa using hlength) hlt (by rw [hbyte]; exact ⟨hc.2.1, hc.2.2.2⟩)
  rw [hbyte, List.nil_append] at hjoined
  have hnot : ∀ b ∈ joined pars, b.toNat ≠ 63 := fun b => joined_ne
  have hbracket : Reads .bracket (typed eraseChar (joined pars ++ [UInt8.ofNat c.toNat]))
      (sequence c.toNat pars).toList .ground := by
    generalize joined pars = digits at hjoined hnot
    cases digits with
    | nil => exact hjoined.bracket (by rw [hbyte]; exact hc.2.2.1)
    | cons b digits => exact hjoined.bracket (hnot b List.mem_cons_self)
  have hescape : Reads .ground (typed eraseChar [27, 91]) [] .bracket := ⟨rfl, rfl⟩
  exact hescape.append hbracket

end Parser

/-! ## Commands -/

def Part.toNat : Part → Nat
  | .behind => 0
  | .before => 1
  | .all => 2

namespace Command

/-- How a command is written. -/
def bytes (eraseChar : Nat) : Command → List UInt8
  | print c => [UInt8.ofNat c]
  | lineFeed => [10]
  | reverseLineFeed => [27, 77]
  | carriageReturn => [13]
  | delete => [UInt8.ofNat eraseChar]
  | backspace => [8]
  | tab => [9]
  | goto x y => csi [y + 1, x + 1] 'H'
  | column x => csi [x + 1] 'G'
  | row y => csi [y + 1] 'd'
  | move dx dy =>
    if dx = 0 then csi [dy.natAbs] (if 0 < dy then 'B' else 'A') else csi [dx.natAbs] (if 0 < dx then 'C' else 'D')
  | line dy => csi [dy.natAbs] (if 0 < dy then 'E' else 'F')
  | eraseDisplay part => csi [part.toNat] 'J'
  | eraseLine part => csi [part.toNat] 'K'
  | insertLines n => csi [n] 'L'
  | deleteLines n => csi [n] 'M'
  | insertChars n => csi [n] '@'
  | deleteChars n => csi [n] 'P'
  | paint pars => csi pars 'm'
  | region top none => csi [top + 1] 'r'
  | region top (some bottom) => csi [top + 1, bottom] 'r'
  | save => csi [0] 's'
  | restore => csi [0] 'u'
  | other => [27, 55]

/-- A command that has a sequence: its numbers are of 32 bits, counts are at least one, the cursor moves in one
direction, and another function of `ERASE_CHAR(tty)` does not come first. -/
def Sendable (eraseChar : Nat) : Command → Prop
  | print c => 31 < c ∧ c < 127
  | delete => eraseChar < 128 ∧ ¬ (31 < eraseChar ∧ eraseChar < 127) ∧ eraseChar ∉ [10, 11, 12, 13, 27]
  | backspace => eraseChar ≠ 8
  | tab => eraseChar ≠ 9
  | goto x y => x + 1 < 2 ^ 32 ∧ y + 1 < 2 ^ 32
  | column x => x + 1 < 2 ^ 32
  | row y => y + 1 < 2 ^ 32
  | move dx dy => dx = 0 ∧ dy ≠ 0 ∧ dy.natAbs < 2 ^ 31 ∨ dy = 0 ∧ dx ≠ 0 ∧ dx.natAbs < 2 ^ 31
  | line dy => dy ≠ 0 ∧ dy.natAbs < 2 ^ 31
  | insertLines n => 0 < n ∧ n < 2 ^ 32
  | deleteLines n => 0 < n ∧ n < 2 ^ 32
  | insertChars n => 0 < n ∧ n < 2 ^ 32
  | deleteChars n => 0 < n ∧ n < 2 ^ 32
  | paint pars => pars ≠ [] ∧ pars.length ≤ 16 ∧ ∀ n ∈ pars, n < 2 ^ 32
  | region top bottom => top + 1 < 2 ^ 32 ∧ ∀ n ∈ bottom, 0 < n ∧ n < 2 ^ 32
  | lineFeed | reverseLineFeed | carriageReturn | eraseDisplay _ | eraseLine _ | save | restore | other => True

variable {eraseChar : Nat}

/-- One parameter, and the command it belongs to. -/
theorem reads_one {n : Nat} (hn : n < 2 ^ 32) {c : Char}
    (hc : c.toNat < 128 ∧ c.toNat ≠ 59 ∧ c.toNat ≠ 63 ∧ ¬ (48 ≤ c.toNat ∧ c.toNat ≤ 57)) {command command' : Command}
    (hcommand : Parser.sequence c.toNat [n] = some command') (heq : command' = command) :
    Parser.Reads .ground (typed eraseChar (csi [n] c)) [command] .ground := by
  have hread : Parser.Reads .ground (typed eraseChar (csi [n] c)) (Parser.sequence c.toNat [n]).toList .ground :=
    Parser.reads_csi (List.cons_ne_nil n []) (by simp) (by simpa using hn) hc
  rwa [hcommand, heq] at hread

/-- Two parameters. -/
theorem reads_two {n n' : Nat} (hn : n < 2 ^ 32) (hn' : n' < 2 ^ 32) {c : Char}
    (hc : c.toNat < 128 ∧ c.toNat ≠ 59 ∧ c.toNat ≠ 63 ∧ ¬ (48 ≤ c.toNat ∧ c.toNat ≤ 57)) {command command' : Command}
    (hcommand : Parser.sequence c.toNat [n, n'] = some command') (heq : command' = command) :
    Parser.Reads .ground (typed eraseChar (csi [n, n'] c)) [command] .ground := by
  have hread : Parser.Reads .ground (typed eraseChar (csi [n, n'] c)) (Parser.sequence c.toNat [n, n']).toList
      .ground :=
    Parser.reads_csi (List.cons_ne_nil n [n']) (by simp) (by simpa using ⟨hn, hn'⟩) hc
  rwa [hcommand, heq] at hread

theorem max_one {n : Nat} (h : 0 < n) : max 1 n = n := Nat.max_eq_right h

/-- A distance is written without its sign. -/
theorem signed_pos {d : Int} (hpos : 0 < d) (hlt : d.natAbs < 2 ^ 31) : Parser.signed (max 1 d.natAbs) = d := by
  unfold Parser.signed
  omega

theorem signed_neg {d : Int} (hneg : ¬ 0 < d) (hne : d ≠ 0) (hlt : d.natAbs < 2 ^ 31) :
    -Parser.signed (max 1 d.natAbs) = d := by
  unfold Parser.signed
  omega

/-- A single character outside of a sequence. -/
theorem reads_control {c : Nat} {command : Command} (hlt : c < 256)
    (hcontrol : Parser.control eraseChar c = (.ground, some command)) :
    Parser.Reads .ground (typed eraseChar [UInt8.ofNat c]) [command] .ground := by
  have hfeed : Parser.feed eraseChar (UInt8.ofNat c).toNat .ground = (.ground, some command) := by
    rw [UInt8.toNat_ofNat', Nat.mod_eq_of_lt hlt]
    exact hcontrol
  exact .one hfeed

theorem reads_bytes {command : Command} (h : command.Sendable eraseChar) :
    Parser.Reads .ground (typed eraseChar (command.bytes eraseChar)) [command] .ground := by
  cases command with
  | print c => exact reads_control (Nat.lt_trans h.2 (by decide)) (if_pos h)
  | lineFeed => exact ⟨rfl, rfl⟩
  | reverseLineFeed => exact ⟨rfl, rfl⟩
  | carriageReturn => exact ⟨rfl, rfl⟩
  | other => exact ⟨rfl, rfl⟩
  | delete =>
    obtain ⟨hlt, hprint, hfirst⟩ := h
    have hcontrol : Parser.control eraseChar eraseChar = (.ground, some .delete) := by
      unfold Parser.control
      simp only [List.mem_cons, List.not_mem_nil, or_false, not_or] at hfirst
      rw [if_neg hprint, if_neg (by omega), if_neg (by omega), if_neg (by omega), if_pos ⟨hlt, rfl⟩]
    exact reads_control (Nat.lt_trans hlt (by decide)) hcontrol
  | backspace =>
    have hcontrol : Parser.control eraseChar 8 = (.ground, some .backspace) := by
      unfold Parser.control
      rw [if_neg (by decide), if_neg (by decide), if_neg (by decide), if_neg (by decide),
        if_neg fun herase => h herase.2.symm, if_pos rfl]
    exact reads_control (by decide) hcontrol
  | tab =>
    have hcontrol : Parser.control eraseChar 9 = (.ground, some .tab) := by
      unfold Parser.control
      rw [if_neg (by decide), if_neg (by decide), if_neg (by decide), if_neg (by decide),
        if_neg fun herase => h herase.2.symm, if_neg (by decide), if_pos rfl]
    exact reads_control (by decide) hcontrol
  | goto x y => exact reads_two (c := 'H') h.2 h.1 (by decide) rfl rfl
  | column x => exact reads_one (c := 'G') h (by decide) rfl rfl
  | row y => exact reads_one (c := 'd') h (by decide) rfl rfl
  | save => exact reads_one (c := 's') (by decide) (by decide) rfl rfl
  | restore => exact reads_one (c := 'u') (by decide) (by decide) rfl rfl
  | eraseDisplay part => cases part <;> exact reads_one (c := 'J') (by decide) (by decide) rfl rfl
  | eraseLine part => cases part <;> exact reads_one (c := 'K') (by decide) (by decide) rfl rfl
  | insertLines n => exact reads_one (c := 'L') h.2 (by decide) rfl (congrArg insertLines (max_one h.1))
  | deleteLines n => exact reads_one (c := 'M') h.2 (by decide) rfl (congrArg deleteLines (max_one h.1))
  | insertChars n => exact reads_one (c := '@') h.2 (by decide) rfl (congrArg insertChars (max_one h.1))
  | deleteChars n => exact reads_one (c := 'P') h.2 (by decide) rfl (congrArg deleteChars (max_one h.1))
  | paint pars =>
    obtain ⟨hne, hlength, hlt⟩ := h
    exact Parser.reads_csi (c := 'm') hne hlength hlt (by decide)
  | region top bottom =>
    obtain ⟨htop, hbottom⟩ := h
    cases bottom with
    | none => exact reads_one (c := 'r') htop (by decide) rfl rfl
    | some bottom =>
      obtain ⟨hpos, hlt⟩ := hbottom bottom rfl
      have hsecond : (if bottom = 0 then none else some bottom) = some bottom := if_neg (Nat.ne_of_gt hpos)
      exact reads_two (c := 'r') htop hlt (by decide) rfl (congrArg (region top) hsecond)
  | move dx dy =>
    rcases h with ⟨rfl, hne, hlt⟩ | ⟨rfl, hne, hlt⟩
    · show Parser.Reads _ (typed eraseChar (csi [dy.natAbs] (if 0 < dy then 'B' else 'A'))) _ _
      have hlt32 : dy.natAbs < 2 ^ 32 := by omega
      split
      · next hpos => exact reads_one (c := 'B') hlt32 (by decide) rfl (congrArg (move 0) (signed_pos hpos hlt))
      · next hneg => exact reads_one (c := 'A') hlt32 (by decide) rfl (congrArg (move 0) (signed_neg hneg hne hlt))
    · have hbytes : (move dx 0).bytes eraseChar = csi [dx.natAbs] (if 0 < dx then 'C' else 'D') := if_neg hne
      have hlt32 : dx.natAbs < 2 ^ 32 := by omega
      rw [hbytes]
      split
      · next hpos => exact reads_one (c := 'C') hlt32 (by decide) rfl (congrArg (move · 0) (signed_pos hpos hlt))
      · next hneg => exact reads_one (c := 'D') hlt32 (by decide) rfl (congrArg (move · 0) (signed_neg hneg hne hlt))
  | line dy =>
    obtain ⟨hne, hlt⟩ := h
    show Parser.Reads _ (typed eraseChar (csi [dy.natAbs] (if 0 < dy then 'E' else 'F'))) _ _
    have hlt32 : dy.natAbs < 2 ^ 32 := by omega
    split
    · next hpos => exact reads_one (c := 'E') hlt32 (by decide) rfl (congrArg line (signed_pos hpos hlt))
    · next hneg => exact reads_one (c := 'F') hlt32 (by decide) rfl (congrArg line (signed_neg hneg hne hlt))

/-- Every program of commands can be written to the console, and is read back as it was. -/
theorem reads_sent {commands : List Command} (h : ∀ command ∈ commands, command.Sendable eraseChar) :
    Parser.Reads .ground (typed eraseChar (commands.flatMap (bytes eraseChar))) commands .ground := by
  induction commands with
  | nil => exact .nil _
  | cons command commands ih =>
    obtain ⟨hcommand, hrest⟩ := List.forall_mem_cons.mp h
    rw [List.flatMap_cons, typed_append]
    exact (reads_bytes hcommand).append (ih hrest)

end Command

/-- The console reads the sequences of a program of commands back as the program, and makes of them what the
terminal makes of the commands. -/
theorem conWrite_sent {s : Console} (h : s.Ok) (heven : s.videoNumColumns % 2 = 0) (hidle : s.state = 0)
    {eraseChar : Nat} {commands : List Command} (hsend : ∀ command ∈ commands, command.Sendable eraseChar) :
    let sent := commands.flatMap (Command.bytes eraseChar)
    let s' := s.conWrite eraseChar sent
    let t := s.terminal.run commands
    Parser.ground.commands (typed eraseChar sent) = commands ∧ s'.state = 0 ∧
      (∀ r < 25, ∀ c < s.videoNumColumns, s'.grid r c = t.grid r c) ∧ s'.x = t.x ∧ s'.y = t.y ∧
      s'.attr = t.attr ∧ s'.top = t.top ∧ s'.bottom = t.bottom ∧ s'.savedX = t.savedX ∧ s'.savedY = t.savedY := by
  have hstart : Refines s s.terminal .ground := { shows_terminal h heven with state_eq := hidle }
  have hwritten := hstart.conWrite eraseChar (commands.flatMap (Command.bytes eraseChar))
  obtain ⟨hcommands, hrest⟩ := Command.reads_sent hsend
  refine ⟨hcommands, ?_⟩
  unfold typed at hcommands hrest
  simp only at hwritten ⊢
  rw [hcommands, hrest] at hwritten
  have hcolumns : (s.terminal.run commands).columns = s.videoNumColumns := Terminal.run_columns s.terminal commands
  have hshows : Shows _ 0 _ := hwritten
  refine ⟨hshows.state_eq, fun r hr c hc => hshows.cells r hr c ?_, hshows.x.symm, hshows.y.symm, hshows.attr.symm,
    hshows.top.symm, hshows.bottom.symm, hshows.savedX.symm, hshows.savedY.symm⟩
  rw [← hshows.columns, hcolumns]
  exact hc

/-- A character in the sixth line, two new lines above it, and one line up. -/
theorem conWrite_sent_ega :
    let s := conInit ⟨0, 24, 0x5003, 0⟩ fun _ => 0x0720
    let commands := [Command.goto 3 5, .print 65, .insertLines 2, .move 0 (-1)]
    let sent := commands.flatMap (Command.bytes 127)
    let s' := s.conWrite 127 sent
    Parser.ground.commands (typed 127 sent) = commands ∧ s'.state = 0 ∧ s'.x = 4 ∧ s'.y = 4 := by
  have hok : (conInit ⟨0, 24, 0x5003, 0⟩ fun _ => 0x0720).Ok :=
    conInit_ok ⟨by decide, by decide, by decide, by decide⟩ fun _ => 0x0720
  have hsend : ∀ command ∈ [Command.goto 3 5, .print 65, .insertLines 2, .move 0 (-1)], command.Sendable 127 := by
    simp [Command.Sendable]
  obtain ⟨hcommands, hstate, -, hx, hy, -⟩ := conWrite_sent hok rfl rfl hsend
  exact ⟨hcommands, hstate, hx.trans rfl, hy.trans rfl⟩

end Linux011.Chr
