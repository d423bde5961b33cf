import Linux011.Chr.Refinement

/-!
# Text on the screen

A text without control characters goes onto a terminal as if it were laid out in lines of its own, as long as those of
the screen, and the screen showed the last of them.
-/

namespace Linux011.Chr

namespace Terminal

variable {t : Terminal} {text : List Nat} {row : Nat}

/-- What a cell shows of a text. -/
def word (t : Terminal) (text : List Nat) (i : Nat) : BitVec 16 :=
  (text[i]?).elim t.blank fun c => t.attr ++ BitVec.ofNat 8 c

/-- The terminal shows a text, and the cursor is in the line `row` of it. -/
structure Lays (t : Terminal) (text : List Nat) (row : Nat) : Prop where
  columns : 0 < t.columns
  lines : 0 < t.lines
  top : t.top = 0
  bottom : t.bottom = t.lines
  x : row * t.columns + t.x = text.length
  x_le : t.x ≤ t.columns
  y : t.y = min row (t.lines - 1)
  cells : ∀ r < t.lines, ∀ c < t.columns, t.grid r c = t.word text ((row + 1 - t.lines + r) * t.columns + c)

/-- Behind the last column the next line begins, and the screen may have to scroll. -/
theorem Lays.wrap (h : Lays t text row) (hx : t.x = t.columns) :
    Lays (lineFeed { t with x := t.x - t.columns }) text (row + 1) := by
  have hlines := h.lines
  have hlength := h.x
  have hy := h.y
  have hnext : (row + 1) * t.columns + (t.x - t.columns) = text.length := by
    rw [Nat.succ_mul, ← hlength]
    omega
  have hbottom := h.bottom
  unfold lineFeed
  simp only
  split
  · next hmore =>
    refine { h with x := hnext, x_le := Nat.le_trans (Nat.sub_le _ _) h.x_le, y := ?_, cells := fun r hr c hc => ?_ }
    · show t.y + 1 = min (row + 1) (t.lines - 1)
      omega
    · have hfits : row + 1 + 1 ≤ t.lines := by omega
      rw [Nat.sub_eq_zero_of_le hfits, ← Nat.sub_eq_zero_of_le (Nat.le_of_succ_le hfits)]
      exact h.cells r hr c hc
  · next hlast =>
    refine { h with x := hnext, x_le := Nat.le_trans (Nat.sub_le _ _) h.x_le, y := ?_, cells := fun r hr c hc => ?_ }
    · show t.y = min (row + 1) (t.lines - 1)
      omega
    · have hr' : r < t.lines := hr
      have hover : t.lines ≤ row + 1 := by omega
      clear hy
      show Lib.pull t.top t.bottom 1 (fun _ => t.blank) t.grid r c =
        t.word text ((row + 1 + 1 - t.lines + r) * t.columns + c)
      rw [h.top, hbottom]
      unfold Lib.pull
      rw [if_pos ⟨Nat.zero_le r, hr'⟩]
      split
      · next hin =>
        rw [Nat.sub_add_comm hover, Nat.add_assoc, Nat.add_comm 1 r]
        exact h.cells (r + 1) hin c hc
      · -- the line that comes in lies behind the text
        have hbehind : text.length ≤ (row + 1 + 1 - t.lines + r) * t.columns + c := by
          rw [show row + 1 + 1 - t.lines + r = row + 1 by omega]
          omega
        unfold word
        rw [List.getElem?_eq_none hbehind]
        rfl

/-- Before the last column a character goes to the end of the text. -/
theorem Lays.put (h : Lays t text row) (hx : t.x < t.columns) (c : Nat) :
    Lays { t.put (t.attr ++ BitVec.ofNat 8 c) with x := t.x + 1 } (text ++ [c]) row := by
  have hlines := h.lines
  have hlength := h.x
  have hy := h.y
  have hrow : row + 1 - t.lines + t.y = row := by omega
  refine { h with x := ?_, x_le := hx, cells := fun r hr c' hc => ?_ }
  · show row * t.columns + (t.x + 1) = _
    rw [List.length_append, List.length_singleton, ← hlength]
    rfl
  · show Function.update t.grid t.y (Function.update (t.grid t.y) t.x (t.attr ++ BitVec.ofNat 8 c)) r c' =
      t.word (text ++ [c]) ((row + 1 - t.lines + r) * t.columns + c')
    have hle := cell_le (y := row) (r := row + 1 - t.lines + r) (Nat.le_of_lt hx) hc
    have hlt := cell_le (y := row) (r := row + 1 - t.lines + r) (x := t.x + 1) hx hc
    rw [Function.update_apply]
    by_cases hhere : r = t.y ∧ c' = t.x
    · rw [if_pos hhere.1, hhere.2, Function.update_self, hhere.1, hrow, hlength]
      unfold word
      rw [List.getElem?_append_right (Nat.le_refl _), Nat.sub_self]
      rfl
    · have hcell : t.word (text ++ [c]) ((row + 1 - t.lines + r) * t.columns + c') =
          t.word text ((row + 1 - t.lines + r) * t.columns + c') := by
        unfold word
        by_cases hin : (row + 1 - t.lines + r) * t.columns + c' < text.length
        · rw [List.getElem?_append_left hin]
        · rw [List.getElem?_eq_none (by rw [List.length_append, List.length_singleton]; omega),
            List.getElem?_eq_none (by omega)]
      rw [hcell, ← h.cells r hr c' hc]
      split
      · next hr' =>
        rw [Function.update_of_ne fun hc' => hhere ⟨hr', hc'⟩, hr']
      · rfl

theorem Lays.print (h : Lays t text row) (c : Nat) :
    ∃ row', Lays (t.print c) (text ++ [c]) row' ∧ 0 < (t.print c).x := by
  unfold Terminal.print
  simp only
  by_cases hedge : t.columns ≤ t.x
  · have hwrap := h.wrap (Nat.le_antisymm h.x_le hedge)
    rw [if_pos hedge]
    have hcolumns := h.columns
    have hx := hwrap.x
    refine ⟨row + 1, hwrap.put ?_ c, Nat.succ_pos _⟩
    rw [lineFeed_x, lineFeed_columns]
    show t.x - t.columns < t.columns
    have hle := h.x_le
    omega
  · rw [if_neg hedge]
    exact ⟨row, h.put (Nat.not_le.mp hedge) c, Nat.succ_pos _⟩

/-- A whole text. -/
theorem Lays.run (h : Lays t text row) (hx : text ≠ [] → 0 < t.x) (more : List Nat) :
    ∃ row', Lays (t.run (more.map .print)) (text ++ more) row' ∧
      (text ++ more ≠ [] → 0 < (t.run (more.map .print)).x) := by
  induction more generalizing t text row with
  | nil =>
    rw [List.append_nil]
    exact ⟨row, h, hx⟩
  | cons c more ih =>
    obtain ⟨row', hlays, hpos⟩ := h.print c
    rw [List.append_cons]
    exact ih hlays fun _ => hpos

/-- The line of the cursor is that of the last character. -/
theorem Lays.row_eq (h : Lays t text row) (hx : text ≠ [] → 0 < t.x) : (text.length - 1) / t.columns = row := by
  have hlength := h.x
  have hle := h.x_le
  have hcolumns := h.columns
  by_cases hnil : text = []
  · rw [hnil, List.length_nil] at hlength ⊢
    have hzero : row * t.columns = 0 := by omega
    rw [Nat.zero_sub, Nat.zero_div]
    exact ((Nat.mul_eq_zero.mp hzero).resolve_right (by omega)).symm
  · have hpos := hx hnil
    apply Nat.div_eq_of_lt_le
    · omega
    · rw [Nat.succ_mul]
      omega

theorem print_word (t : Terminal) (c : Nat) (text : List Nat) (i : Nat) : (t.print c).word text i = t.word text i := by
  have hline : ∀ t : Terminal, t.lineFeed.word text i = t.word text i := by
    intro t
    unfold lineFeed
    split <;> rfl
  show Terminal.word (if t.columns ≤ t.x then lineFeed { t with x := t.x - t.columns } else t) text i = _
  split
  · exact hline _
  · rfl

theorem run_word (t : Terminal) (more text : List Nat) (i : Nat) :
    (t.run (more.map .print)).word text i = t.word text i := by
  induction more generalizing t with
  | nil => rfl
  | cons c more ih => exact (ih _).trans (print_word t c text i)

/-- The whole screen is the region, it is blank, and the cursor is at its start. -/
def cleared (t : Terminal) : Terminal :=
  { t with grid := fun _ _ => t.blank, x := 0, y := 0, top := 0, bottom := t.lines }

theorem run_clear (hlines : 0 < t.lines) (commands : List Command) :
    t.run (.region 0 none :: .goto 0 0 :: .eraseDisplay .all :: commands) = t.cleared.run commands := by
  have hregion : t.region 0 none = { t with top := 0, bottom := t.lines } := if_pos ⟨hlines, Nat.le_refl _⟩
  have hgoto : Terminal.goto 0 0 { t with top := 0, bottom := t.lines } =
      { t with top := 0, bottom := t.lines, x := 0, y := 0 } :=
    if_pos ⟨Int.le_refl 0, Int.natCast_nonneg _, Int.le_refl 0, Int.natCast_pos.mpr hlines⟩
  simp only [run_cons]
  show (Terminal.eraseDisplay .all (Terminal.goto 0 0 (t.region 0 none))).run commands = _
  rw [hregion, hgoto]
  rfl

/-- Nothing has been written to a blank screen. -/
theorem lays_nil (hcolumns : 0 < t.columns) (hlines : 0 < t.lines) :
    Lays t.cleared [] 0 := by
  constructor
  case columns => exact hcolumns
  case lines => exact hlines
  case x => exact Nat.zero_mul _
  case y => exact (Nat.zero_min _).symm
  case x_le => exact Nat.zero_le _
  case cells => exact fun r hr c hc => rfl
  all_goals rfl

end Terminal

/-! ## Text for the console -/

/-- The sequences that set the region to the whole screen, take the cursor to its start and erase it. -/
def clearScreen : List UInt8 := [27, 91, 114, 27, 91, 72, 27, 91, 50, 74]

theorem commands_clearScreen {stream : List (Nat × UInt8)} {text : List UInt8}
    (h : stream.map Prod.snd = clearScreen ++ text) :
    ∃ rest, rest.map Prod.snd = text ∧
      Parser.ground.commands stream = .region 0 none :: .goto 0 0 :: .eraseDisplay .all :: Parser.ground.commands rest := by
  simp only [clearScreen, List.cons_append, List.nil_append, List.map_eq_cons_iff] at h
  obtain ⟨⟨_, _⟩, _, rfl, rfl, ⟨_, _⟩, _, rfl, rfl, ⟨_, _⟩, _, rfl, rfl, ⟨_, _⟩, _, rfl, rfl, ⟨_, _⟩, _, rfl, rfl,
    ⟨_, _⟩, _, rfl, rfl, ⟨_, _⟩, _, rfl, rfl, ⟨_, _⟩, _, rfl, rfl, ⟨_, _⟩, _, rfl, rfl, ⟨_, _⟩, rest, rfl, rfl, hrest⟩ := h
  exact ⟨rest, hrest, rfl⟩

theorem commands_text {stream : List (Nat × UInt8)} (h : ∀ c ∈ stream.map Prod.snd, 31 < c.toNat ∧ c.toNat < 127) :
    Parser.ground.commands stream = ((stream.map Prod.snd).map UInt8.toNat).map .print := by
  induction stream with
  | nil => rfl
  | cons c stream ih =>
    obtain ⟨hc, hrest⟩ := List.forall_mem_cons.mp h
    have hfeed : Parser.feed c.1 c.2.toNat .ground = (.ground, some (.print c.2.toNat)) := if_pos hc
    simp only [List.map_cons, Parser.commands, hfeed]
    rw [ih hrest]
    rfl

/-- Whatever the console shows: when it is cleared and any text is written, in whatever pieces, the screen has the
last lines of the text laid out in lines of its width, and the cursor stands behind the text. -/
theorem conWrite_text {s : Console} (h : s.Ok) (heven : s.videoNumColumns % 2 = 0) (hidle : s.state = 0)
    {calls : List (Nat × List UInt8)} {text : List UInt8} (hcalls : calls.flatMap Prod.snd = clearScreen ++ text)
    (htext : ∀ c ∈ text, 31 < c.toNat ∧ c.toNat < 127) :
    let s' := calls.foldl (fun s call => s.conWrite call.1 call.2) s
    let row := (text.length - 1) / s.videoNumColumns
    s'.y = min row 24 ∧ s'.x = text.length - row * s.videoNumColumns ∧
      ∀ r < 25, ∀ c < s.videoNumColumns, s'.grid r c =
        (text[(row - 24 + r) * s.videoNumColumns + c]?).elim s.videoEraseChar fun ch =>
          s.attr ++ BitVec.ofNat 8 ch.toNat := by
  have hstart : Refines s s.terminal .ground := { shows_terminal h heven with state_eq := hidle }
  obtain ⟨state, hshows⟩ := (hstart.calls calls).shows
  have hstream : (calls.flatMap fun call => call.2.map fun c => (call.1, c)).map Prod.snd = clearScreen ++ text := by
    rw [List.map_flatMap, ← hcalls]
    exact congrArg calls.flatMap (funext fun call => by simp)
  obtain ⟨rest, hrest, hcommands⟩ := commands_clearScreen hstream
  subst hrest
  have hlines : 0 < s.terminal.lines := by
    show 0 < s.videoNumLines
    rw [h.lines]
    decide
  have hcolumns : 0 < s.terminal.columns := Nat.lt_of_lt_of_le (by decide) h.columns.1
  rw [hcommands, commands_text htext, Terminal.run_clear hlines] at hshows
  obtain ⟨row, hlays, hpos⟩ :=
    (Terminal.lays_nil hcolumns hlines).run (fun hnil => absurd rfl hnil) ((rest.map Prod.snd).map UInt8.toNat)
  rw [List.nil_append] at hlays hpos
  have hwidth : (s.terminal.cleared.run (((rest.map Prod.snd).map UInt8.toNat).map .print)).columns = s.videoNumColumns :=
    Terminal.run_columns s.terminal.cleared _
  have hrow := hlays.row_eq hpos
  have hlength := hlays.x
  have hcells := hlays.cells
  have hy := hlays.y
  rw [hshows.lines] at hcells hy
  rw [hwidth] at hrow hlength hcells
  rw [List.length_map (f := UInt8.toNat)] at hrow hlength
  simp only
  rw [hrow, ← hshows.y, ← hshows.x]
  refine ⟨hy, by omega, fun r hr c hc => ?_⟩
  rw [hshows.cells r hr c (by rw [← hshows.columns, hwidth]; exact hc), hcells r hr c hc, Terminal.run_word]
  unfold Terminal.word
  rw [List.getElem?_map, Option.elim_map]
  rfl

/-- 26 lines of one letter each, on a color card, in calls of one line: the first line is gone. -/
theorem conWrite_text_ega :
    let s := conInit ⟨0, 24, 0x5003, 0⟩ fun _ => 0x0720
    let lines := (List.range 26).map fun i => List.replicate 80 (UInt8.ofNat (97 + i))
    let calls := (127, clearScreen) :: lines.map fun line => (127, line)
    let s' := calls.foldl (fun s call => s.conWrite call.1 call.2) s
    s'.y = 24 ∧ s'.x = 80 := by
  intro s lines calls
  have hok : s.Ok := conInit_ok ⟨by decide, by decide, by decide, by decide⟩ fun _ => 0x0720
  have hcolumns : s.videoNumColumns = 80 := rfl
  have hidle : s.state = 0 := rfl
  have hcalls : calls.flatMap Prod.snd = clearScreen ++ lines.flatten := by
    have hflat : ∀ ls : List (List UInt8), (ls.map fun l => ((127 : Nat), l)).flatMap Prod.snd = ls.flatten := by
      intro ls
      rw [List.flatMap_map, List.flatMap_def]
      exact congrArg List.flatten (List.map_id ls)
    exact congrArg (clearScreen ++ ·) (hflat lines)
  have hprint : ∀ c ∈ lines.flatten, 31 < c.toNat ∧ c.toNat < 127 := by
    intro c hc
    obtain ⟨line, hline, hc⟩ := List.mem_flatten.mp hc
    obtain ⟨i, hi, rfl⟩ := List.mem_map.mp hline
    have hlt := List.mem_range.mp hi
    rw [List.eq_of_mem_replicate hc, UInt8.toNat_ofNat']
    omega
  have hlength : lines.flatten.length = 2080 := by
    rw [List.length_flatten, List.map_map]
    rfl
  obtain ⟨hy, hx, -⟩ := conWrite_text hok (by rw [hcolumns]) hidle hcalls hprint
  rw [hlength, hcolumns] at hy hx
  exact ⟨hy, hx⟩

end Linux011.Chr
